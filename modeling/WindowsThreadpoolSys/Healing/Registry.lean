import WindowsThreadpoolSys.Library.Execution
import Mathlib.Data.List.Perm.Basic

/-! A cancellation may leave a thread pool dispatching nothing. Each pool an object was made on has an entry
in a process-wide registry; a cancellation stamps the entry, and a healer's tick submits a repair, a work
item of the pool's own, until one has started after the last cancellation.

The registry's list and the count of objects change under its lock. The stamps and counters are atomics
that anyone holding the entry changes without it: cancelling threads, the tick on a snapshot of the
registry, and the repair's callback on the pool. A step here is one atomic access, one clock reading, one
call of the operating system, or what is done under the lock where nothing else can see it. -/
namespace WindowsThreadpoolSys.Healing
open Library Option

/-! ## Entries -/

/-- `PoolEntry`. The fields after `queued` stand beside the state: the clock readings of the
cancellations marked on it and of its repair callbacks, and how many repairs `stamp_submitted` counted,
which is before the pool is handed the work item, had their callback begin, and were counted as started. -/
structure PoolEntry where
  key : ℕ
  objects : ℕ
  lastCancelled : ℕ
  lastStarted : ℕ
  lastSubmitted : ℕ
  outstanding : ℕ
  stuckReattempts : ℕ
  runs : ℕ
  /-- The strong count of its `Arc`. -/
  refs : ℕ
  /-- The submitted work items whose callback has not begun. -/
  queued : ℕ
  marks : List ℕ
  reads : List ℕ
  submitted : ℕ
  begun : ℕ
  noted : ℕ
  /-- What was queued and outstanding when the last reference was dropped. -/
  closedWith : Option (ℕ × ℕ)
deriving DecidableEq

namespace PoolEntry

variable (entry : PoolEntry)

def new (key : ℕ) : PoolEntry :=
  { key, objects := 0, lastCancelled := 0, lastStarted := 0, lastSubmitted := 0, outstanding := 0
    stuckReattempts := 0, runs := 0, refs := 0, queued := 0, marks := [], reads := [], submitted := 0
    begun := 0, noted := 0, closedWith := none }

def unhealed : Bool :=
  entry.lastCancelled ≠ 0 ∧ entry.lastStarted ≤ entry.lastCancelled

def stampCancelled (at_ : ℕ) (entry : PoolEntry) : PoolEntry :=
  { entry with lastCancelled := max entry.lastCancelled at_, marks := at_ :: entry.marks }

def readStart (at_ : ℕ) (entry : PoolEntry) : PoolEntry := { entry with reads := at_ :: entry.reads }

def stampStarted (at_ : ℕ) (entry : PoolEntry) : PoolEntry :=
  { entry with lastStarted := max entry.lastStarted at_ }

/-- `note_repair_started`, whose subtraction saturates. -/
def noteStarted : PoolEntry :=
  { entry with outstanding := entry.outstanding - 1, noted := entry.noted + 1 }

def countRun : PoolEntry := { entry with runs := entry.runs + 1 }

def resetStuck : PoolEntry := { entry with stuckReattempts := 0 }

def noteOverdue : PoolEntry :=
  { entry with stuckReattempts := (entry.stuckReattempts + 1) % 2 ^ 32 }

def stampSubmitted (at_ : ℕ) (entry : PoolEntry) : PoolEntry :=
  { entry with lastSubmitted := max entry.lastSubmitted at_ }

def countSubmitted : PoolEntry :=
  { entry with outstanding := (entry.outstanding + 1) % 2 ^ 32, submitted := entry.submitted + 1 }

def hand : PoolEntry := { entry with queued := entry.queued + 1 }

/-- The pool dispatches one of the queued repairs. -/
def begin : PoolEntry :=
  { entry with queued := entry.queued - 1, begun := entry.begun + 1 }

/-- `Arc::clone`, and the object count of a registration where one is made. -/
def share (objects : ℕ) (entry : PoolEntry) : PoolEntry :=
  { entry with refs := entry.refs + 1, objects := entry.objects + objects }

def loseObject : PoolEntry := { entry with objects := entry.objects - 1 }

def dropRef : PoolEntry :=
  { entry with
    refs := entry.refs - 1
    closedWith := if entry.refs = 1 then some (entry.queued, entry.outstanding) else entry.closedWith }

end PoolEntry

structure Registration where
  id : ℕ
  key : ℕ
  entry : Option ℕ
deriving DecidableEq

/-! ## Operations in progress -/

inductive SubmitPc
  | readClock
  | stamp (now : ℕ)
  | count
  | hand
deriving DecidableEq

namespace SubmitPc

def effect : SubmitPc → PoolEntry → PoolEntry
  | readClock => id
  | stamp now => PoolEntry.stampSubmitted now
  | count => PoolEntry.countSubmitted
  | hand => PoolEntry.hand

def next (clock : ℕ) : SubmitPc → Option SubmitPc
  | readClock => some (stamp clock)
  | stamp _ => some count
  | count => some hand
  | hand => none

end SubmitPc

inductive CheckPc
  | objects
  | cancelled
  | started (cancelled : ℕ)
  | outstanding
deriving DecidableEq

/-- One load of `is_retirable`: it goes on, or it has its answer. -/
def CheckPc.step (entry : PoolEntry) : CheckPc → CheckPc ⊕ Bool
  | objects => if entry.objects = 0 then .inl cancelled else .inr false
  | cancelled =>
    if entry.lastCancelled = 0 then .inl outstanding else .inl (started entry.lastCancelled)
  | started c => if entry.lastStarted ≤ c then .inr false else .inl outstanding
  | outstanding => .inr (entry.outstanding = 0)

inductive OwePc
  | readClock
  | mark (now : ℕ)
  | arrange
  | submit (pc : SubmitPc)
deriving DecidableEq

inductive ReleasePc
  | enter
  | check (pc : CheckPc)
  | retire
deriving DecidableEq

inductive VisitPc
  | cancelled
  | started (cancelled : ℕ)
  | inFlight
  | overdueClock
  | overdueInFlight (now : ℕ)
  | overdueSubmitted (now : ℕ)
  | noteOverdue
  | submit (pc : SubmitPc)
  | letGo
deriving DecidableEq

inductive CallbackPc
  | readClock
  | stamp (now : ℕ)
  | note
  | countRun
  | resetStuck
deriving DecidableEq

/-- An operation in progress. A tick keeps beside the state how the entry it visits stood when the visit
began. -/
inductive Op
  | owe (registration : Registration) (entry : ℕ) (pc : OwePc)
  | release (registration : Registration) (entry : ℕ) (pc : ReleasePc)
  | tick (left : List ℕ) (pc : VisitPc) (since : PoolEntry)
  | idle (left kept out : List ℕ) (pc : CheckPc)
  | drops (entries : List ℕ)
  | callback (entry : ℕ) (pc : CallbackPc)
deriving DecidableEq

namespace Op

def borrows : Op → Option Registration
  | owe r _ _ => some r
  | _ => none

/-- The registration a release has taken and not yet uncounted. -/
def drops? : Op → Option Registration
  | release r _ .enter => some r
  | _ => none

end Op

/-! ## The system -/

structure State where
  clock : ℕ
  entries : ℕ → PoolEntry
  allocated : ℕ
  registry : List ℕ
  locked : Bool
  registrations : List Registration
  minted : ℕ
  ops : List Op
  /-- A `fail-fast` panic ended the process. -/
  stopped : Bool

namespace State

variable (s : State)

def new : State :=
  { clock := 1, entries := fun _ => .new 0, allocated := 0, registry := [], locked := false
    registrations := [], minted := 0, ops := [], stopped := false }

def change (e : ℕ) (f : PoolEntry → PoolEntry) : State :=
  { s with entries := Function.update s.entries e (f (s.entries e)) }

def go (op : Op) (next : Option Op) : State :=
  { s with ops := next.toList ++ s.ops.erase op }

/-- `register`, under the lock. The entry of a pool already known is shared; for another `arm_repair`
makes the work item, or fails and leaves the registration without an entry. -/
def register (key : ℕ) (armed : Bool) : State :=
  match s.registry.find? fun e => (s.entries e).key = key with
  | some e =>
    { s.change e (·.share 1) with
      registrations := ⟨s.minted, key, some e⟩ :: s.registrations
      minted := s.minted + 1 }
  | none =>
    if armed then
      { s with
        entries := Function.update s.entries s.allocated { PoolEntry.new key with objects := 1, refs := 2 }
        allocated := s.allocated + 1
        registry := s.registry ++ [s.allocated]
        registrations := ⟨s.minted, key, some s.allocated⟩ :: s.registrations
        minted := s.minted + 1 }
    else
      { s with registrations := ⟨s.minted, key, none⟩ :: s.registrations, minted := s.minted + 1 }

def snapshot : State :=
  { s with
    entries := fun e => if e ∈ s.registry then (s.entries e).share 0 else s.entries e
    ops := .tick s.registry .cancelled (.new 0) :: s.ops }

def actOwe (choice : Bool) (r : Registration) (e : ℕ) (pc : OwePc) : State :=
  let op := Op.owe r e pc
  match pc with
  | .readClock => s.go op (some (.owe r e (.mark s.clock)))
  | .mark now => (s.change e (·.stampCancelled now)).go op (some (.owe r e .arrange))
  | .arrange => if choice then s.go op none else s.go op (some (.owe r e (.submit .readClock)))
  | .submit pc => (s.change e pc.effect).go op ((pc.next s.clock).map fun pc => .owe r e (.submit pc))

def actRelease (r : Registration) (e : ℕ) (pc : ReleasePc) : Option State :=
  let op := Op.release r e pc
  match pc with
  | .enter =>
    if s.locked then none
    else some (({ s.change e PoolEntry.loseObject with
      registrations := s.registrations.erase r
      locked := true }).go op (some (.release r e (.check .objects))))
  | .check pc =>
    match pc.step (s.entries e) with
    | .inl pc => some (s.go op (some (.release r e (.check pc))))
    | .inr true => some (s.go op (some (.release r e .retire)))
    | .inr false => some (({ s with locked := false }).go op (some (.drops [e])))
  | .retire =>
    let retired := s.registry.filter fun held => (s.entries held).key = (s.entries e).key
    some (({ s with
      registry := s.registry.filter fun held => (s.entries held).key ≠ (s.entries e).key
      locked := false }).go op (some (.drops (retired ++ [e]))))

def actVisit (failFast : Bool) (s : State) (e : ℕ) (rest : List ℕ) (pc : VisitPc) (since : PoolEntry) :
    State :=
  let op := Op.tick (e :: rest) pc since
  let entry := s.entries e
  let goes := fun pc => s.go op (some (.tick (e :: rest) pc since))
  match pc with
  | .cancelled =>
    let pc := if entry.lastCancelled = 0 then .letGo else .started entry.lastCancelled
    s.go op (some (.tick (e :: rest) pc entry))
  | .started c => goes (if entry.lastStarted ≤ c then .inFlight else .letGo)
  | .inFlight => goes (if 0 < entry.outstanding then .overdueClock else .submit .readClock)
  | .overdueClock => goes (.overdueInFlight s.clock)
  | .overdueInFlight now => goes (if 0 < entry.outstanding then .overdueSubmitted now else .letGo)
  | .overdueSubmitted now =>
    goes (if 5 * 10000000 ≤ now - entry.lastSubmitted then .noteOverdue else .letGo)
  | .noteOverdue =>
    let s' := (s.change e PoolEntry.noteOverdue).go op
      (some (.tick (e :: rest) (.submit .readClock) since))
    { s' with stopped := failFast ∧ 1 < entry.stuckReattempts + 1 }
  | .submit pc =>
    let next := match pc.next s.clock with
      | some pc => VisitPc.submit pc
      | none => .letGo
    (s.change e pc.effect).go op (some (.tick (e :: rest) next since))
  | .letGo => (s.change e PoolEntry.dropRef).go op (some (.tick rest .cancelled (.new 0)))

def actIdle (left kept out : List ℕ) (pc : CheckPc) : State :=
  let op := Op.idle left kept out pc
  match left with
  | [] => ({ s with registry := kept, locked := false }).go op (some (.drops out))
  | e :: rest =>
    match pc.step (s.entries e) with
    | .inl pc => s.go op (some (.idle (e :: rest) kept out pc))
    | .inr true => s.go op (some (.idle rest kept (out ++ [e]) .objects))
    | .inr false => s.go op (some (.idle rest (kept ++ [e]) out .objects))

def actCallback (e : ℕ) (pc : CallbackPc) : State :=
  let op := Op.callback e pc
  match pc with
  | .readClock => (s.change e (·.readStart s.clock)).go op (some (.callback e (.stamp s.clock)))
  | .stamp now => (s.change e (·.stampStarted now)).go op (some (.callback e .note))
  | .note => (s.change e PoolEntry.noteStarted).go op (some (.callback e .countRun))
  | .countRun => (s.change e PoolEntry.countRun).go op (some (.callback e .resetStuck))
  | .resetStuck => (s.change e PoolEntry.resetStuck).go op none

def act (failFast : Bool) (s : State) (choice : Bool) (op : Op) : Option State :=
  match op with
  | .owe r e pc => some (s.actOwe choice r e pc)
  | .release r e pc => s.actRelease r e pc
  | .tick [] _ _ =>
    -- `retire_idle` begins
    if s.locked then none
    else some (({ s with locked := true }).go op (some (.idle s.registry [] [] .objects)))
  | .tick (e :: rest) pc since => some (s.actVisit failFast e rest pc since)
  | .idle left kept out pc => some (s.actIdle left kept out pc)
  | .drops [] => some (s.go op none)
  | .drops (e :: rest) => some ((s.change e PoolEntry.dropRef).go op (some (.drops rest)))
  | .callback e pc => some (s.actCallback e pc)

end State

/-- What happens next: the clock moves on, an object is made or dropped, a cancellation or a tick begins,
a pool dispatches a repair, or an operation takes its next step. -/
inductive Event
  | clock (by_ : ℕ)
  | register (key : ℕ) (armed : Bool)
  | owe (registration : Registration)
  | drop (registration : Registration)
  | tick
  | dispatch (entry : ℕ)
  | act (op : Op) (choice : Bool)
deriving DecidableEq

namespace State

def holds (s : State) (r : Registration) : Bool :=
  decide (r ∈ s.registrations) && !s.ops.any fun op => op.drops? == some r

/-- One step. A registration is dropped only while nothing borrows it. -/
def step (failFast : Bool) (s : State) (event : Event) : Option State :=
  if s.stopped then none
  else
    match event with
    | .clock by_ => some { s with clock := s.clock + by_ }
    | .register key armed => if s.locked then none else some (s.register key armed)
    | .owe r =>
      match r.entry with
      | none => none
      | some e => if s.holds r then some { s with ops := .owe r e .readClock :: s.ops } else none
    | .drop r =>
      if s.holds r && !s.ops.any fun op => op.borrows == some r then
        match r.entry with
        | none => some { s with registrations := s.registrations.erase r }
        | some e => some { s with ops := .release r e .enter :: s.ops }
      else none
    | .tick => if s.locked then none else some s.snapshot
    | .dispatch e =>
      if 0 < (s.entries e).queued then
        some { s.change e PoolEntry.begin with ops := .callback e .readClock :: s.ops }
      else none
    | .act op choice => if op ∈ s.ops then s.act failFast choice op else none

end State

abbrev Tick := Taken State Event

abbrev Run (failFast : Bool) : List Tick → State → Prop :=
  Execution (Allows (State.step failFast)) (· = .new)

/-! ## Scripts -/

inductive Move
  | enter (event : Event)
  | next (position : ℕ) (choice : Bool)

def State.event (s : State) : Move → Option Event
  | .enter event => some event
  | .next position choice => s.ops[position]?.map fun op => .act op choice

abbrev State.read (failFast : Bool) : State → Move → Option (Event × State) :=
  named (State.step failFast) State.event

end WindowsThreadpoolSys.Healing
