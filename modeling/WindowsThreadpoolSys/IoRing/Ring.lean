import WindowsThreadpoolSys.Library.Execution
import WindowsThreadpoolSys.Library.TableCount

/-! A push hands a buffer to the ring: it reserves an identity, asks the kernel to queue an entry with it, and
keeps what the entry uses in the ring's inventory until the completion with that identity is popped. A
buffer registered with the ring stays with its registration, which counts the operations that use it.

The kernel takes queued entries at a submit, answers each at most once, and puts its answer in the
completion queue; every call of it may fail. Here one step is one call that returns at once, one turn of a
call that loops, or one act of the kernel. -/
namespace WindowsThreadpoolSys.IoRing
open Library

/-! ## What is held -/

inductive KernelAccess
  | writesBuffer
  | readsBuffer
deriving DecidableEq

structure RegisteredSpan where
  bufferIndex : ℕ
  offset : ℕ
  len : ℕ
deriving DecidableEq

structure RegisteredUse where
  registration : ℕ
  index : ℕ
  access : KernelAccess
deriving DecidableEq

structure Held (G : Type) where
  guard : Option G
  registration : Option RegisteredUse

structure Entry (T X G : Type) where
  payload : Option T
  extra : X
  held : Held G

structure BufferCounts where
  outstanding : ℕ
  kernelWrites : ℕ
deriving DecidableEq

namespace BufferCounts

def begun (access : KernelAccess) (counts : BufferCounts) : BufferCounts :=
  { outstanding := counts.outstanding + 1
    kernelWrites := counts.kernelWrites + if access = .writesBuffer then 1 else 0 }

def ended (access : KernelAccess) (counts : BufferCounts) : BufferCounts :=
  { outstanding := counts.outstanding - 1
    kernelWrites := counts.kernelWrites - if access = .writesBuffer then 1 else 0 }

end BufferCounts

/-- Where a registration's buffers are: with a `PendingBufferRegistration`, with a `RegisteredBuffers`, or
given up, freed or leaked. -/
inductive BufferStatus
  | absent
  | pending
  | registered
  | freed
  | leaked
deriving DecidableEq

structure Registration where
  status : BufferStatus
  registeredLens : List ℕ

structure Completion where
  userData : ℕ
  succeeded : Bool
deriving DecidableEq

/-- `Open` may have operations in flight that it holds nothing for. -/
inductive Kind
  | open_
  | owned
deriving DecidableEq

/-! ## Calls that loop -/

inductive PopPc
  | pop
  | wait
deriving DecidableEq

/-- Where `run_down_within` stands; `drain` is followed by a wait the first time and by the loop's next
turn the second. -/
inductive RunDownPc
  | top
  | drain (again : Bool)
  | wait
deriving DecidableEq

/-- A call under way. A rundown may be the one of the ring's `drop`. -/
inductive Call
  | popWithin (pc : PopPc)
  | runDown (dropping : Bool) (pc : RunDownPc)
deriving DecidableEq

/-- How a turn of a looping call goes: whether its kernel call fails, and whether its time is up. -/
structure Turn where
  fails : Bool
  expired : Bool

/-! ## The ring -/

/-- The ring, its registrations and the kernel's queues. `queued` and `released` stand beside the state:
the operations ever queued with what was held for them, and those let go of. -/
structure State (T X G : Type) where
  /-- `none` once closed. -/
  kind : Option Kind
  nextUserData : ℕ
  inFlight : List ℕ
  registeredBuffers : ℕ
  inventory : Table ℕ (Entry T X G)
  registrations : ℕ → Registration
  counts : ℕ × ℕ → BufferCounts
  call : Option Call
  /-- Entries the kernel has queued and not taken. -/
  submissionQueue : List ℕ
  submitted : List ℕ
  completionQueue : List Completion
  popped : List Completion
  queued : List (ℕ × Entry T X G)
  released : List (ℕ × Entry T X G)
  /-- A pop found its bookkeeping inconsistent. -/
  panicked : Bool

section

variable {T X G : Type}

namespace State

variable (s : State T X G)

def new : State T X G :=
  { kind := some .open_, nextUserData := 0, inFlight := [], registeredBuffers := 0
    inventory := Table.empty, registrations := fun _ => ⟨.absent, []⟩, counts := fun _ => ⟨0, 0⟩
    call := none, submissionQueue := [], submitted := [], completionQueue := [], popped := []
    queued := [], released := [], panicked := false }

def reserveUserData (usizeMax : ℕ) (s : State T X G) : Option ℕ × State T X G :=
  let id := s.nextUserData
  if id = usizeMax then (none, s)
  else if id ∈ s.inFlight then (none, { s with nextUserData := id + 1 })
  else (some id, { s with nextUserData := id + 1, inFlight := id :: s.inFlight })

def cancelReservation (userData : ℕ) (s : State T X G) : State T X G :=
  { s with inFlight := s.inFlight.erase userData }

def lens (registration : ℕ) : List ℕ := (s.registrations registration).registeredLens

def checkedSpan (registration : ℕ) (span : RegisteredSpan) : Bool :=
  (s.lens registration)[span.bufferIndex]?.any fun len => span.offset + span.len ≤ len

def count (use : RegisteredUse) (f : BufferCounts → BufferCounts) : State T X G :=
  let buffer := (use.registration, use.index)
  if use.index < (s.lens use.registration).length then
    { s with counts := Function.update s.counts buffer (f (s.counts buffer)) }
  else s

def beginUse : Option RegisteredUse → State T X G
  | some use => s.count use (.begun use.access)
  | none => s

/-- What the ring held for an operation is dropped: the file's guard, and the registered buffer's use. -/
def dropHeld (held : Held G) : State T X G :=
  match held.registration with
  | some use => s.count use (.ended use.access)
  | none => s

end State

/-! ## Pushes -/

/-- What a push brings: whether it passes the checks made before the identity is reserved, what it hands
over, the file's guard, and the registered span it addresses. -/
structure Push (T X G : Type) where
  accepted : Bool
  payload : Option T
  extra : X
  guard : Option G
  registered : Option (ℕ × RegisteredSpan × KernelAccess)

namespace Push

def ofBuffer (accepted : Bool) (guard : Option G) (buffer : T) (extra : X) : Push T X G :=
  ⟨accepted, some buffer, extra, guard, none⟩

def ofFile (accepted : Bool) (guard : Option G) (extra : X) : Push T X G :=
  ⟨accepted, none, extra, guard, none⟩

def ofSpan (accepted : Bool) (guard : Option G) (access : KernelAccess) (registration : ℕ)
    (span : RegisteredSpan) (extra : X) : Push T X G :=
  ⟨accepted, none, extra, guard, some (registration, span, access)⟩

def readOwned (accepted : Bool) (file : G) : T → X → Push T X G := ofBuffer accepted (some file)

def writeOwned (accepted : Bool) (file : G) : T → X → Push T X G := ofBuffer accepted (some file)

def readRawOwned (accepted : Bool) : T → X → Push T X G := ofBuffer accepted none

def writeRawOwned (accepted : Bool) : T → X → Push T X G := ofBuffer accepted none

def flushOwned (accepted : Bool) (file : G) : X → Push T X G := ofFile accepted (some file)

def flushRawOwned (accepted : Bool) : X → Push T X G := ofFile accepted none

def cancelOwned (accepted : Bool) (file : G) : X → Push T X G := ofFile accepted (some file)

def readRegisteredOwned (accepted : Bool) (file : G) : ℕ → RegisteredSpan → X → Push T X G :=
  ofSpan accepted (some file) .writesBuffer

def readRegisteredRawOwned (accepted : Bool) : ℕ → RegisteredSpan → X → Push T X G :=
  ofSpan accepted none .writesBuffer

def writeRegisteredOwned (accepted : Bool) (file : G) : ℕ → RegisteredSpan → X → Push T X G :=
  ofSpan accepted (some file) .readsBuffer

def writeRegisteredRawOwned (accepted : Bool) : ℕ → RegisteredSpan → X → Push T X G :=
  ofSpan accepted none .readsBuffer

def use (push : Push T X G) : Option RegisteredUse :=
  push.registered.map fun r => ⟨r.1, r.2.1.bufferIndex, r.2.2⟩

def held (push : Push T X G) : Held G := ⟨push.guard, push.use⟩

def entry (push : Push T X G) : Entry T X G := ⟨push.payload, push.extra, push.held⟩

end Push

inductive PushResult (T X : Type)
  | queued (userData : ℕ)
  | refused (payload : Option T) (extra : X)

namespace State

variable (s : State T X G)

def finishOwned (built : Bool) (id : ℕ) (push : Push T X G) : PushResult T X × State T X G :=
  if built then
    (.queued id, { s with
      inventory := s.inventory.insert id push.entry
      submissionQueue := s.submissionQueue ++ [id]
      queued := (id, push.entry) :: s.queued })
  else (.refused push.payload push.extra, (s.cancelReservation id).dropHeld push.held)

def push (usizeMax : ℕ) (s : State T X G) (push : Push T X G) (built : Bool) :
    PushResult T X × State T X G :=
  if push.accepted && push.registered.all fun r => s.checkedSpan r.1 r.2.1 then
    match s.reserveUserData usizeMax with
    | (some id, s) => (s.beginUse push.use).finishOwned built id push
    | (none, s) => (.refused push.payload push.extra, s)
  else (.refused push.payload push.extra, s)

def pushRaw (usizeMax : ℕ) (s : State T X G) (built : Bool) : State T X G :=
  match s.reserveUserData usizeMax with
  | (some id, s) =>
    if built then { s with submissionQueue := s.submissionQueue ++ [id] } else s.cancelReservation id
  | (none, s) => s

def registerBuffers (usizeMax : ℕ) (s : State T X G) (lens : List ℕ) (built : Bool) : State T X G :=
  if 0 < s.registeredBuffers then s
  else
    match s.reserveUserData usizeMax with
    | (some id, s) =>
      if built then
        { s with
          registeredBuffers := s.registeredBuffers + lens.length
          registrations := Function.update s.registrations id ⟨.pending, lens⟩
          submissionQueue := s.submissionQueue ++ [id] }
      else s.cancelReservation id
    | (none, s) => s

def setStatus (registration : ℕ) (status : BufferStatus) : State T X G :=
  let changed := { s.registrations registration with status }
  { s with registrations := Function.update s.registrations registration changed }

/-! ## Pops -/

def submit (fails : Bool) : State T X G :=
  if fails then s else { s with submitted := s.submitted ++ s.submissionQueue, submissionQueue := [] }

/-- An entry is let go of: handed back or dropped, and what the ring held for it dropped. -/
def letGo (userData : ℕ) (entry : Entry T X G) : State T X G :=
  ({ s with released := (userData, entry) :: s.released }).dropHeld entry.held

/-- `pop_raw` and `reclaim` of a completion that is there. -/
def reclaim (completion : Completion) (rest : List Completion) : Option (Entry T X G) × State T X G :=
  let id := completion.userData
  let s' := { s with
    completionQueue := rest
    popped := completion :: s.popped
    inFlight := s.inFlight.erase id
    inventory := s.inventory.erase id
    panicked := s.panicked || decide (id ∉ s.inFlight) }
  match s.inventory.get id with
  | some entry => (some entry, s'.letGo id entry)
  | none => (none, s')

def shape (entry : Option (Entry T X G)) : State T X G :=
  { s with panicked := s.panicked || (entry.isNone && decide (s.kind = some .owned)) }

def tryPop (fails : Bool) : State T X G :=
  if fails then s
  else
    match s.completionQueue with
    | [] => s
    | completion :: rest => (s.reclaim completion rest).2.shape (s.reclaim completion rest).1

def done : State T X G := { s with call := none }

def at_ (call : Call) : State T X G := { s with call := some call }

def actPop (turn : Turn) : PopPc → State T X G
  | .pop =>
    if turn.fails then s.done
    else
      match s.completionQueue with
      | [] => if s.inFlight = [] ∨ turn.expired then s.done else s.at_ (.popWithin .wait)
      | _ :: _ => (s.tryPop false).done
  | .wait => if turn.fails then s.done else (s.submit false).at_ (.popWithin .pop)

/-- The ring's `drop` after its rundown: the inventory is dropped if nothing is outstanding and leaked
otherwise, and the ring is closed. -/
def close (quiesced : Bool) : State T X G :=
  let s := { s with kind := none, call := none }
  if quiesced ∧ s.inFlight = [] then
    s.inventory.entries.foldl (fun s e => s.letGo e.1 e.2) { s with inventory := Table.empty }
  else s

def runDownEnds (dropping succeeded : Bool) : State T X G :=
  if dropping then s.close succeeded else s.done

def actRunDown (turn : Turn) (dropping : Bool) : RunDownPc → State T X G
  | .top =>
    if s.inFlight = [] then s.runDownEnds dropping true
    else if turn.expired ∧ ¬ dropping then s.done
    else s.at_ (.runDown dropping (.drain false))
  | .drain again =>
    if turn.fails then s.runDownEnds dropping false
    else
      match s.completionQueue with
      | completion :: rest => (s.reclaim completion rest).2
      | [] =>
        if again then s.at_ (.runDown dropping .top)
        else if s.inFlight = [] then s.runDownEnds dropping true
        else s.at_ (.runDown dropping .wait)
  | .wait =>
    if turn.fails then s.runDownEnds dropping false
    else (s.submit false).at_ (.runDown dropping (.drain true))

/-! ## Registered buffers -/

inductive GetError
  | invalidInput
  | wouldBlock
deriving DecidableEq

def get (registration i : ℕ) : Except GetError ℕ :=
  match (s.lens registration)[i]? with
  | none => .error .invalidInput
  | some len =>
    if 0 < (s.counts (registration, i)).kernelWrites then .error .wouldBlock else .ok len

def getMut (registration i : ℕ) : Except GetError ℕ :=
  match (s.lens registration)[i]? with
  | none => .error .invalidInput
  | some len =>
    if 0 < (s.counts (registration, i)).outstanding then .error .wouldBlock else .ok len

/-- The `drop` of a `RegisteredBuffers`: leaked while any operation is outstanding, freed otherwise. -/
def dropBuffers (registration : ℕ) : State T X G :=
  if (List.range (s.lens registration).length).any fun i =>
      0 < (s.counts (registration, i)).outstanding then
    s.setStatus registration .leaked
  else s.setStatus registration .freed

/-- `claim_if` with the registration's completion: usable buffers, or buffers dropped as if never
registered. -/
def claim (registration : ℕ) (completion : Completion) : State T X G :=
  s.setStatus registration (if completion.succeeded then .registered else .freed)

end State

/-- What happens next: a call on the ring or on its registrations, a turn of the call under way, or the
kernel answers an entry it has taken. -/
inductive Event (T X G : Type)
  | push (push : Push T X G) (built : Bool)
  | pushRaw (built : Bool)
  | registerBuffers (lens : List ℕ) (built : Bool)
  | submit (fails : Bool)
  | tryPop (fails : Bool)
  | popWithin
  | runDownWithin
  | intoOwned
  | dropRing
  | turn (turn : Turn)
  | claim (registration : ℕ) (completion : Completion)
  | dropPending (registration : ℕ)
  | dropBuffers (registration : ℕ)
  | complete (userData : ℕ) (succeeded : Bool)

namespace State

variable (s : State T X G)

def idle : Bool := s.kind.isSome && s.call.isNone

/-- A step. A push on a registered buffer borrows its `RegisteredBuffers`. -/
def step (usizeMax : ℕ) (s : State T X G) : Event T X G → Option (State T X G)
  | .push p built =>
    if s.idle && p.registered.all fun r => (s.registrations r.1).status = .registered then
      some (s.push usizeMax p built).2
    else none
  | .pushRaw built =>
    if s.idle && decide (s.kind = some .open_) then some (s.pushRaw usizeMax built) else none
  | .registerBuffers lens built =>
    if s.idle && decide (s.kind = some .open_) then some (s.registerBuffers usizeMax lens built)
    else none
  | .submit fails => if s.idle then some (s.submit fails) else none
  | .tryPop fails => if s.idle then some (s.tryPop fails) else none
  | .popWithin => if s.idle then some (s.at_ (.popWithin .pop)) else none
  | .runDownWithin => if s.idle then some (s.at_ (.runDown false .top)) else none
  | .intoOwned =>
    if s.idle && decide (s.kind = some .open_) then
      if s.inFlight.length ≠ s.inventory.size then some s else some { s with kind := some .owned }
    else none
  | .dropRing => if s.idle then some (s.at_ (.runDown true .top)) else none
  | .turn turn =>
    match s.call with
    | none => none
    | some (.popWithin pc) => some (s.actPop turn pc)
    | some (.runDown dropping pc) => some (s.actRunDown turn dropping pc)
  | .claim registration completion =>
    if (s.registrations registration).status = .pending ∧ completion ∈ s.popped ∧
        completion.userData = registration then some (s.claim registration completion)
    else none
  | .dropPending registration =>
    if (s.registrations registration).status = .pending then some (s.setStatus registration .leaked)
    else none
  | .dropBuffers registration =>
    if (s.registrations registration).status = .registered then some (s.dropBuffers registration)
    else none
  | .complete userData succeeded =>
    if userData ∈ s.submitted then
      some { s with
        submitted := s.submitted.erase userData
        completionQueue := s.completionQueue ++ [⟨userData, succeeded⟩] }
    else none

def unanswered : List ℕ :=
  s.submissionQueue ++ s.submitted ++ s.completionQueue.map Completion.userData

end State

abbrev Run (usizeMax : ℕ) : List (Taken (State T X G) (Event T X G)) → State T X G → Prop :=
  Execution (Allows (State.step usizeMax)) (· = .new)

end

end WindowsThreadpoolSys.IoRing
