import WindowsThreadpoolSys.TailWatcher.Watcher

/-! It drains the watcher's queue, reads what each attention announced through the ring, and writes each chunk
to the client's queue as its read completes. A step is one call the engine makes of something it shares
with others (the watcher's queue, the client's, the pool, the ring, the stop flag), with what the call
returns given by the event, so that completions, refusals and full queues come in every order. Between two
such calls the watcher, the client and a stop request may act.

The bytes themselves, the handles that keep the files open, the doorbells and the gates are left out. What
was taken from the watcher and what was delivered is recorded beside the engine, each with its poll: how
many poll-dones had been taken when its entry was. -/
namespace WindowsThreadpoolSys.TailWatcher
open Library

variable {T : Type}

/-! ## Plans -/

structure Shrink (T : Type) where
  value : T
  lastKnown : ℕ
  current : ℕ
  deriving DecidableEq, Repr

structure Data (T : Type) where
  value : T
  start : ℕ
  stop : ℕ
  deriving DecidableEq, Repr

inductive ReadEntry (T : Type) where
  | data (d : Data T)
  | shrink (s : Shrink T)
  | terminal (t : Terminal T)
  | pollDone
  deriving DecidableEq, Repr

structure PlannedRead where
  offset : ℕ
  len : ℕ
  deriving DecidableEq, Repr

/-- The reads still to submit for one attention: the offsets from `start` to `stop`. -/
structure Reads (T : Type) where
  value : T
  start : ℕ
  stop : ℕ
  bufferLen : ℕ

namespace Reads

variable (r : Reads T)

def front : Option PlannedRead :=
  if r.stop ≤ r.start then none
  else
    some
      { offset := r.start
        len := if r.stop - r.start < 2 ^ 32 then min (r.stop - r.start) r.bufferLen else r.bufferLen }

def next : Reads T :=
  match r.front with
  | none => r
  | some read => { r with start := read.offset + read.len }

end Reads

inductive Plan (T : Type) where
  | reads (r : Reads T)
  | deliver (entry : ReadEntry T)
  | pollDone

def plan (entry : SqEntry T) (bufferLen : ℕ) : Plan T :=
  match entry with
  | .attention a =>
    if a.current < a.lastKnown then .deliver (.shrink ⟨a.value, a.lastKnown, a.current⟩)
    else .reads ⟨a.value, a.lastKnown, a.current, bufferLen⟩
  | .terminal t => .deliver (.terminal t)
  | .pollDone => .pollDone

structure Tracked (T : Type) where
  value : T
  registration : ℕ
  deriving DecidableEq, Repr

def split : SqEntry (Tracked T) → SqEntry T
  | .attention a => .attention ⟨a.value.value, a.lastKnown, a.current⟩
  | .terminal t => .terminal ⟨t.value.value, t.win32Code, t.lastKnown⟩
  | .pollDone => .pollDone

def SqEntry.registration : SqEntry (Tracked T) → Option ℕ
  | .attention a => some a.value.registration
  | .terminal t => some t.value.registration
  | .pollDone => none

def SqEntry.isPollDone {α : Type} : SqEntry α → Bool
  | .pollDone => true
  | _ => false

/-! ## Groups -/

structure Group where
  outstanding : ℕ
  closed : Bool
  deriving DecidableEq, Repr

/-- The polls whose poll-done is not delivered, oldest first; `first` is the id of the front one. -/
structure Groups where
  first : ℕ
  list : List Group
  deriving DecidableEq, Repr

namespace Groups

variable (g : Groups)

def openGroup : Groups × ℕ :=
  let list := if g.list.getLast?.all Group.closed then g.list ++ [⟨0, false⟩] else g.list
  ({ g with list := list }, g.first + (list.length - 1))

def started (id : ℕ) : Groups :=
  { g with list := g.list.modify (id - g.first) fun group =>
      { group with outstanding := group.outstanding + 1 } }

def settled (id : ℕ) : Groups :=
  { g with list := g.list.modify (id - g.first) fun group =>
      { group with outstanding := group.outstanding - 1 } }

def closeOpen : Groups :=
  if g.list.getLast?.all Group.closed then { g with list := g.list ++ [⟨0, true⟩] }
  else { g with list := g.list.modify (g.list.length - 1) fun group => { group with closed := true } }

def ready : Bool := g.list.head?.any fun group => group.closed && decide (group.outstanding = 0)

def popReady : Groups := { first := g.first + 1, list := g.list.tail }

end Groups

/-! ## The engine -/

/-- What the ring holds for a read. `poll` is kept beside it. -/
structure Pending (T : Type) where
  registration : ℕ
  value : T
  offset : ℕ
  len : ℕ
  group : ℕ
  poll : ℕ

structure Current (T : Type) where
  reads : Reads T
  registration : ℕ
  group : ℕ
  poll : ℕ

structure Note (T : Type) where
  entry : ReadEntry T
  poll : ℕ
  registration : Option ℕ
  deriving DecidableEq, Repr

inductive Stop where
  | idle
  | poolEmpty
  | ringFull
  deriving DecidableEq, Repr

structure Refusal (T : Type) where
  code : Option ℕ
  registration : ℕ
  value : T
  offset : ℕ
  poll : ℕ

inductive Ended (T : Type) where
  | planned
  | abandoned
  | stopped (stop : Stop)
  | ringSqFull
  | refused (refusal : Refusal T)

inductive Phase (T : Type) where
  /-- No run. -/
  | idle
  | submitQueued
  /-- `deliver`, of the entry the client's queue refused. -/
  | deliver
  /-- `deliver`, of the poll-dones. -/
  | pollDones
  | settle
  | advance
  /-- `submit_reads`, with the reads of the batch so far and what the ring holds. -/
  | pushing (pushed outstanding : ℕ)
  /-- `submit_reads`, about to submit a batch. -/
  | submitting (pushed : ℕ) (ended : Ended T)
  /-- What the stop waited for may have completed. -/
  | lastSettle (stop : Stop)

structure Config where
  watcherCapacity : ℕ
  cqSize : ℕ
  bufferLen : ℕ
  bufferLen_pos : 0 < bufferLen
  bufferLen_lt : bufferLen < 2 ^ 32

structure ReadEngine (T : Type) where
  /-- The reads the ring holds: queued, in flight, or completed and not popped. -/
  held : List (Pending T)
  watcher : Watcher (Tracked T)
  stop : Bool
  current : Option (Current T)
  undelivered : Option (Note T)
  groups : Groups
  unsubmitted : Bool
  phase : Phase T
  /-- What was taken from the watcher's queue, each with its poll. -/
  taken : List (ℕ × SqEntry (Tracked T))
  /-- What the client's queue has accepted. -/
  delivered : List (Note T)

inductive PopOutcome where
  | failed
  | none
  /-- A completion of the read at `index`: the bytes read, or the Win32 code of the failure. -/
  | completion (index : ℕ) (result : Except (Option ℕ) ℕ)

inductive PushOutcome where
  | poolEmpty
  | pushed
  | sqFull
  | refused (code : Option ℕ)

inductive Event (T : Type) where
  | register (offset len : ℕ) (value : T)
  | watcher (event : WatcherEvent)
  | requestStop
  | run
  /-- A step that calls nothing that may fail. -/
  | go
  | submit (ok : Bool)
  | clientPush (accepted : Bool)
  | pop (outcome : PopOutcome)
  | push (outcome : PushOutcome)

namespace ReadEngine

variable (e : ReadEngine T) (K : Config)

def new : ReadEngine T :=
  { held := []
    watcher := .new K.watcherCapacity
    stop := false
    current := none
    undelivered := none
    groups := ⟨0, []⟩
    unsubmitted := false
    phase := .idle
    taken := []
    delivered := [] }

def polls : ℕ := e.taken.countP fun entry => entry.2.isPollDone

/-- `report_failure`: a terminal entry if the code is terminal and this is the first to say so. -/
def reportFailure (r : Refusal T) : ReadEngine T :=
  match r.code with
  | none => e
  | some code =>
    if isTerminal (some code) then
      let (watcher, marked) := e.watcher.markTerminal r.registration code
      if marked then
        { e with
          watcher := watcher
          undelivered := some
            { entry := .terminal ⟨r.value, code, r.offset⟩
              poll := r.poll
              registration := some r.registration } }
      else e
    else e

def handleEof : ℕ := 38

def finishRead (p : Pending T) (result : Except (Option ℕ) ℕ) : ReadEngine T :=
  let e := { e with groups := e.groups.settled p.group }
  match result with
  | .ok read =>
    if read = 0 then e
    else
      { e with
        undelivered := some
          { entry := .data ⟨p.value, p.offset, p.offset + read⟩
            poll := p.poll
            registration := some p.registration } }
  | .error code =>
    if code = some handleEof then e else e.reportFailure ⟨code, p.registration, p.value, p.offset, p.poll⟩

/-- `settle_completion`, and then `found` or `empty`. A read returns no more than it asked for. -/
def settleCompletion (found empty : Phase T) : PopOutcome → Option (ReadEngine T)
  | .failed => some { e with phase := .idle }
  | .none => some { e with phase := empty }
  | .completion index result =>
    match e.held[index]? with
    | none => none
    | some p =>
      if result.toOption.all (fun read => decide (read ≤ p.len)) then
        some { ({ e with held := e.held.eraseIdx index } : ReadEngine T).finishRead p result with
          phase := found }
      else none

def takeEntry (entry : SqEntry (Tracked T)) : ReadEngine T :=
  let poll := e.polls
  let e := { e with taken := e.taken ++ [(poll, entry)] }
  match plan (split entry) K.bufferLen with
  | .reads reads =>
    let (groups, group) := e.groups.openGroup
    { e with
      groups := groups
      current := some
        { reads := reads, registration := entry.registration.getD 0, group := group, poll := poll } }
  | .deliver out => { e with undelivered := some ⟨out, poll, entry.registration⟩ }
  | .pollDone => { e with groups := e.groups.closeOpen }

def abandon : ReadEngine T := if e.stop then { e with current := none } else e

def takeWork : ReadEngine T :=
  match e.current with
  | some _ => { e with phase := .pushing 0 e.held.length }
  | none =>
    match e.watcher.sq with
    | [] => { e with phase := .lastSettle .idle }
    | entry :: rest =>
      { ({ e with watcher := { e.watcher with sq := rest } } : ReadEngine T).takeEntry K entry with
        phase := .deliver }

def advance : ReadEngine T := e.abandon.takeWork K

/-- What `advance` and `submit_reads` do once a batch is submitted, or had nothing to submit. -/
def batchDone (pushed : ℕ) : Ended T → ReadEngine T
  | .planned | .abandoned => { e with current := none, phase := .deliver }
  | .stopped stop => { e with phase := .lastSettle stop }
  | .ringSqFull =>
    -- The submit made room.
    if 0 < pushed then { e with phase := .pushing 0 e.held.length }
    else { e with phase := .lastSettle .ringFull }
  | .refused refusal => ({ e with current := none, phase := .deliver } : ReadEngine T).reportFailure refusal

def endBatch (pushed : ℕ) (ended : Ended T) : ReadEngine T :=
  if pushed = 0 then e.batchDone 0 ended
  else { e with unsubmitted := true, phase := .submitting pushed ended }

/-- What ends a batch before the next push, if anything does. -/
def ends (c : Current T) (outstanding : ℕ) : Option (Ended T) :=
  match c.reads.front with
  | none => some .planned
  | some _ =>
    if e.stop then some .abandoned
    else if K.cqSize ≤ outstanding then some (.stopped .ringFull)
    else none

def pushRead (c : Current T) (read : PlannedRead) (pushed outstanding : ℕ) :
    PushOutcome → ReadEngine T
  | .poolEmpty => e.endBatch pushed (.stopped .poolEmpty)
  | .sqFull => e.endBatch pushed .ringSqFull
  | .refused code =>
    e.endBatch pushed (.refused ⟨code, c.registration, c.reads.value, read.offset, c.poll⟩)
  | .pushed =>
    { e with
      held := e.held ++
        [{ registration := c.registration
           value := c.reads.value
           offset := read.offset
           len := read.len
           group := c.group
           poll := c.poll }]
      current := some { c with reads := c.reads.next }
      groups := e.groups.started c.group
      phase := .pushing (pushed + 1) (outstanding + 1) }

def runStep : Phase T → Event T → Option (ReadEngine T)
  | .idle, .run => some { e with phase := .submitQueued }
  | .submitQueued, .go => if e.unsubmitted then none else some { e with phase := .deliver }
  | .submitQueued, .submit ok =>
    if e.unsubmitted then
      some (if ok then { e with unsubmitted := false, phase := .deliver } else { e with phase := .idle })
    else none
  | .deliver, .go => if e.undelivered.isNone then some { e with phase := .pollDones } else none
  | .deliver, .clientPush accepted =>
    match e.undelivered with
    | none => none
    | some note =>
      some
        (if accepted then
          { e with
            undelivered := none
            delivered := e.delivered ++ [note]
            phase := .pollDones }
        else { e with phase := .idle })
  | .pollDones, .go => if e.groups.ready then none else some { e with phase := .settle }
  | .pollDones, .clientPush accepted =>
    if e.groups.ready then
      some
        (if accepted then
          { e with
            groups := e.groups.popReady
            delivered := e.delivered ++ [⟨.pollDone, e.groups.first, none⟩] }
        else { e with phase := .idle })
    else none
  | .settle, .pop outcome => e.settleCompletion .deliver .advance outcome
  | .advance, .go => some (e.advance K)
  | .pushing pushed outstanding, .go =>
    e.current.bind fun c => (e.ends K c outstanding).map fun ended => e.endBatch pushed ended
  | .pushing pushed outstanding, .push outcome =>
    e.current.bind fun c =>
      if (e.ends K c outstanding).isSome then none
      else c.reads.front.map fun read => e.pushRead c read pushed outstanding outcome
  | .submitting pushed ended, .submit ok =>
    some
      (if ok then ({ e with unsubmitted := false } : ReadEngine T).batchDone pushed ended
      else { e with phase := .idle })
  | .lastSettle _, .pop outcome => e.settleCompletion .deliver .idle outcome
  | _, _ => none

def step : Event T → Option (ReadEngine T)
  | .register offset len value =>
    some { e with watcher := e.watcher.register offset len fun id => ⟨value, id⟩ }
  | .watcher event => (e.watcher.step event).map fun watcher => { e with watcher := watcher }
  | .requestStop => some { e with stop := true }
  | event => e.runStep K e.phase event

end ReadEngine

/-! ## Runs -/

abbrev Tick (T : Type) := Taken (ReadEngine T) (Event T)

abbrev Run (K : Config) : List (Tick T) → ReadEngine T → Prop :=
  Execution (Allows fun e event => e.step K event) (· = .new K)

end WindowsThreadpoolSys.TailWatcher
