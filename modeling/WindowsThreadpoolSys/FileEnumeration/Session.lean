import WindowsThreadpoolSys.Library.Execution
import WindowsThreadpoolSys.Library.TableCount

/-! Source: `windows-file-enumeration-sys`, `session.rs`, `admission.rs`, `registry.rs`,
`submission_ring.rs` and `completion_ring.rs`.

A session is used by many threads at once: callers that begin, cancel and receive, the servicer's
callback that drains the submission ring, and the engine's callbacks that run quanta. A call is
the list of the critical sections it has still to make, an `Action` each. A step makes the first
section of one call, and what that section decides is put before the rest of the call's list.

A slot claimed from a ring is a value that moves: it is with a handle, a queued begin, a registry
entry or the receiver, or else with the call under way whose next sections spend it or give it
back. -/
namespace WindowsThreadpoolSys.FileEnumeration
open Library

abbrev EnumerationId := ℕ

inductive TerminalOutcome where
  | completed | cancelled | failed
  deriving DecidableEq, Repr

inductive Completion where
  | entry (enumeration : EnumerationId)
  | terminal (enumeration : EnumerationId) (outcome : TerminalOutcome)
  deriving DecidableEq, Repr

inductive QuantumOutcome where
  | idle | yielded | parked
  | finished (outcome : TerminalOutcome)
  deriving DecidableEq, Repr

inductive BeginFailure where
  | submissionRingFull | completionRingFull | abandoned | tokenCapture | bufferAllocation
  deriving DecidableEq, Repr

structure EngineState where
  enumeration : EnumerationId
  deriving DecidableEq, Repr

structure TerminalSlot where
  enumeration : EnumerationId
  deriving DecidableEq, Repr

/-- A begin on its way to the servicer; its retire slot goes with it. -/
structure BeginMessage where
  enumeration : EnumerationId
  engine : EngineState
  terminal : TerminalSlot
  deriving DecidableEq, Repr

inductive ControlMessage where
  | begin (message : BeginMessage)
  | cancel (enumeration : EnumerationId)
  | retire (enumeration : EnumerationId)
  | abandon
  deriving DecidableEq, Repr

structure Config where
  submissionCapacity : ℕ
  completionCapacity : ℕ
  submission_min : 4 ≤ submissionCapacity
  completion_min : 2 ≤ completionCapacity

/-! ## The submission ring -/

inductive PushOutcome where
  | ringDoorbell | drainAlreadyScheduled
  deriving DecidableEq, Repr

inductive SubmitRejection where
  | full | abandoned
  deriving DecidableEq, Repr

structure SubmissionRing where
  queue : List ControlMessage
  reserved : ℕ
  draining : Bool
  abandoned : Bool
  deriving DecidableEq, Repr

namespace SubmissionRing

def new : SubmissionRing := ⟨[], 0, false, false⟩

variable (capacity : ℕ) (r : SubmissionRing)

def free : ℕ := capacity - r.queue.length - r.reserved

def reserve : Option SubmissionRing :=
  if r.free capacity = 0 then none else some { r with reserved := r.reserved + 1 }

def reserveCancel : Option SubmissionRing := r.reserve capacity
def reserveRetire : Option SubmissionRing := r.reserve capacity
def reserveAbandon : Option SubmissionRing := r.reserve capacity

/-- Whoever queues into a ring nobody drains is to ring the servicer. -/
def claimDrain : PushOutcome := if r.draining then .drainAlreadyScheduled else .ringDoorbell

def enqueue (message : ControlMessage) : SubmissionRing :=
  { r with queue := r.queue ++ [message], draining := true }

def tryPush (message : ControlMessage) : Except SubmitRejection SubmissionRing :=
  if r.abandoned then .error .abandoned
  else if r.free capacity = 0 then .error .full
  else .ok (r.enqueue message)

def releaseReservation : SubmissionRing := { r with reserved := r.reserved - 1 }

def pushCancel (enumeration : EnumerationId) : SubmissionRing :=
  r.releaseReservation.enqueue (.cancel enumeration)

def pushRetire (enumeration : EnumerationId) : SubmissionRing :=
  r.releaseReservation.enqueue (.retire enumeration)

def pushAbandon : SubmissionRing :=
  { r.releaseReservation with abandoned := true }.enqueue .abandon

def takeForService : SubmissionRing × Option ControlMessage :=
  match r.queue with
  | message :: rest => ({ r with queue := rest }, some message)
  | [] => ({ r with draining := false }, none)

end SubmissionRing

/-! ## The completion ring -/

structure CompletionRing where
  queue : List Completion
  reserved : ℕ
  sessions : ℕ
  active : ℕ
  deriving DecidableEq, Repr

namespace CompletionRing

def new : CompletionRing := ⟨[], 0, 1, 0⟩

variable (capacity : ℕ) (r : CompletionRing)

def dataRoom : ℕ := capacity - r.queue.length - r.reserved

def canReserve : Bool := decide (0 < r.dataRoom capacity) && decide (r.reserved + 1 < capacity)

def hasDataRoom : Bool := decide (0 < r.dataRoom capacity)

def addSession : CompletionRing := { r with sessions := r.sessions + 1 }

def removeSession : CompletionRing := { r with sessions := r.sessions - 1 }

def reserveTerminal : Option CompletionRing :=
  if r.canReserve capacity then
    some { r with reserved := r.reserved + 1, active := r.active + 1 }
  else none

def enqueue (record : Completion) : CompletionRing :=
  { r with queue := r.queue ++ [record] }

def trySendEntry (record : Completion) : Option CompletionRing :=
  if r.dataRoom capacity = 0 then none else some (r.enqueue record)

/-- Take a record; a blocking receive that is still waiting has not made this section yet. -/
def tryTake : CompletionRing × Option Completion :=
  match r.queue with
  | record :: rest => ({ r with queue := rest }, some record)
  | [] => (r, none)

def releaseReservation : CompletionRing :=
  { r with reserved := r.reserved - 1, active := r.active - 1 }

def fillReservation (record : Completion) : CompletionRing := r.releaseReservation.enqueue record

end CompletionRing

/-! ## The registry -/

structure EnumerationState where
  engine : Option EngineState
  terminal : Option TerminalSlot
  retire : Bool
  cancelled : Bool
  running : Bool
  parked : Bool
  queued : Bool
  deriving DecidableEq, Repr

namespace EnumerationState

def new (message : BeginMessage) : EnumerationState :=
  ⟨some message.engine, some message.terminal, true, false, false, false, false⟩

def isQuiescent (state : EnumerationState) : Bool := !state.running

end EnumerationState

structure Registry where
  entries : Table EnumerationId EnumerationState
  ready : List EnumerationId
  accepting : Bool

namespace Registry

def new : Registry := ⟨.empty, [], true⟩

variable (r : Registry)

def get (enumeration : EnumerationId) : Option EnumerationState := r.entries.get enumeration

def insert (enumeration : EnumerationId) (state : EnumerationState) : Registry :=
  { r with entries := r.entries.insert enumeration state }

def remove (enumeration : EnumerationId) : Registry :=
  { r with entries := r.entries.erase enumeration }

/-- `stop_accepting` and `drain_all`, made under one lock. -/
def drainAll : Registry := ⟨.empty, [], false⟩

def markReady (enumeration : EnumerationId) : Registry :=
  match r.get enumeration with
  | none => r
  | some state =>
    if state.queued || state.running then r.insert enumeration { state with parked := false }
    else
      { r.insert enumeration { state with parked := false, queued := true } with
        ready := r.ready ++ [enumeration] }

def claimFrom (entries : Table EnumerationId EnumerationState) (accepting : Bool) :
    List EnumerationId → Registry × Option (EnumerationId × EngineState)
  | [] => (⟨entries, [], accepting⟩, none)
  | enumeration :: rest =>
    match entries.get enumeration with
    | none => claimFrom entries accepting rest
    | some state =>
      if state.running then
        claimFrom (entries.insert enumeration { state with queued := false }) accepting rest
      else
        match state.engine with
        | none =>
          claimFrom (entries.insert enumeration { state with queued := false }) accepting rest
        | some engine =>
          (⟨entries.insert enumeration
              { state with queued := false, engine := none, running := true, parked := false },
            rest, accepting⟩, some (enumeration, engine))

def claimNext : Registry × Option (EnumerationId × EngineState) :=
  claimFrom r.entries r.accepting r.ready

def parked : List EnumerationId :=
  (r.entries.filter fun _ state => state.parked).keys

end Registry

/-! ## Calls and their critical sections -/

/-- A critical section a call has still to make, with the slots and the engine it carries. -/
inductive Action where
  -- `try_begin`, one claim after another.
  | checkAbandoned
  | reserveCancel
  | reserveRetire
  | reserveTerminal
  | allocate (terminal : TerminalSlot)
  | tryPush (terminal : TerminalSlot)
  | refused (failure : BeginFailure)
  | returnHandle (enumeration : EnumerationId)
  -- Slots spent or given back.
  | releaseCancel
  | releaseRetire
  | dropTerminal (terminal : TerminalSlot)
  | sendTerminal (terminal : TerminalSlot) (outcome : TerminalOutcome)
  | pushCancel (enumeration : EnumerationId)
  | pushRetire (enumeration : EnumerationId)
  | pushAbandon
  -- The pool.
  | ringServicer
  | submitEngine
  -- The servicer.
  | takeForService
  | serviceBegin (message : BeginMessage)
  | serviceCancel (enumeration : EnumerationId)
  | serviceRetire (enumeration : EnumerationId)
  | serviceAbandon
  | markReady (enumeration : EnumerationId)
  -- A worker.
  | claimNext
  | quantum (enumeration : EnumerationId) (engine : EngineState)
  | reportQuantum (enumeration : EnumerationId) (engine : EngineState) (outcome : QuantumOutcome)
  | finishFromWorker (enumeration : EnumerationId) (outcome : TerminalOutcome)
  -- A receive.
  | tryTake
  | snapshotParked
  -- Clones and drops of the session and the receiver.
  | addSession
  | acquireHandle
  | removeSession
  | releaseHandle
  | takeWork
  deriving DecidableEq, Repr

/-- What the source leaves open at a section: whether an allocation succeeds, what a quantum does
next, and in which order a hash map is walked. -/
inductive Choice where
  | go
  | fail
  | send
  | outcome (outcome : QuantumOutcome)
  | order (enumerations : List EnumerationId)
  deriving DecidableEq, Repr

/-- The shared state, with the values callers hold and the callbacks submitted and not begun.
`registered`, the enumerations ever registered, stands beside it. -/
structure Session where
  completions : CompletionRing
  submissions : SubmissionRing
  registry : Registry
  nextId : EnumerationId
  work : Bool
  handles : ℕ
  servicerDue : ℕ
  engineDue : ℕ
  sessions : ℕ
  enumerations : List EnumerationId
  receiver : Bool
  registered : List EnumerationId

/-- `retire_state`: what is still to be done for a state taken out of the registry. -/
def retireState (state : EnumerationState) (outcome : Option TerminalOutcome) : List Action :=
  (if state.retire then [Action.releaseRetire] else []) ++
    match state.terminal, outcome with
    | some terminal, some outcome => [.sendTerminal terminal outcome]
    | some terminal, none => [.dropTerminal terminal]
    | none, _ => []

def retireAll (entries : Table EnumerationId EnumerationState) (order : List EnumerationId) :
    List Action :=
  order.flatMap fun enumeration =>
    match entries.get enumeration with
    | none => []
    | some state => retireState state none

/-- `schedule`: the enumeration is marked ready, and then a callback is submitted for it. -/
def schedule (enumeration : EnumerationId) : List Action := [.markReady enumeration]

def ringIf : PushOutcome → List Action
  | .ringDoorbell => [.ringServicer]
  | .drainAlreadyScheduled => []

namespace Session

def new (K : Config) : Session where
  completions := .new
  submissions := (SubmissionRing.new.reserveAbandon K.submissionCapacity).getD .new
  registry := .new
  nextId := 1
  work := true
  handles := 2
  servicerDue := 0
  engineDue := 0
  sessions := 1
  enumerations := []
  receiver := true
  registered := []

variable (K : Config) (s : Session)

def beginMessage (terminal : TerminalSlot) : BeginMessage :=
  ⟨terminal.enumeration, ⟨terminal.enumeration⟩, terminal⟩

def checkAbandoned : Session × List Action :=
  (s, if s.submissions.abandoned then [.refused .abandoned] else [.reserveCancel])

def reserveCancel : Session × List Action :=
  match s.submissions.reserveCancel K.submissionCapacity with
  | none => (s, [.refused .submissionRingFull])
  | some ring => ({ s with submissions := ring }, [.reserveRetire])

def reserveRetire : Session × List Action :=
  match s.submissions.reserveRetire K.submissionCapacity with
  | none => (s, [.releaseCancel, .refused .submissionRingFull])
  | some ring => ({ s with submissions := ring }, [.reserveTerminal])

/-- The id is taken whether or not the ring has a slot for its terminal. -/
def reserveTerminal : Session × List Action :=
  match s.completions.reserveTerminal K.completionCapacity with
  | none =>
    ({ s with nextId := s.nextId + 1 },
      [.releaseCancel, .releaseRetire, .refused .completionRingFull])
  | some ring =>
    ({ s with nextId := s.nextId + 1, completions := ring }, [.allocate ⟨s.nextId⟩])

def tryPush (terminal : TerminalSlot) : Session × List Action :=
  match s.submissions.tryPush K.submissionCapacity (.begin (beginMessage terminal)) with
  | .error rejection =>
    (s, [.releaseCancel, .releaseRetire, .dropTerminal terminal,
      .refused (match rejection with
        | .full => .submissionRingFull
        | .abandoned => .abandoned)])
  | .ok ring =>
    ({ s with submissions := ring },
      ringIf s.submissions.claimDrain ++ [.returnHandle terminal.enumeration])

def service : Option ControlMessage → List Action
  | none => []
  | some (.begin message) => [.serviceBegin message, .takeForService]
  | some (.cancel enumeration) => [.serviceCancel enumeration, .takeForService]
  | some (.retire enumeration) => [.serviceRetire enumeration, .takeForService]
  | some .abandon => [.serviceAbandon, .takeForService]

def serviceBegin (message : BeginMessage) : Session × List Action :=
  if s.registry.accepting then
    ({ s with
        registry := s.registry.insert message.enumeration (.new message)
        registered := message.enumeration :: s.registered },
      schedule message.enumeration)
  else (s, retireState (.new message) none)

def serviceCancel (enumeration : EnumerationId) : Session × List Action :=
  match s.registry.get enumeration with
  | none => (s, [])
  | some state =>
    if state.isQuiescent then
      ({ s with registry := s.registry.remove enumeration }, retireState state (some .cancelled))
    else
      ({ s with registry :=
          s.registry.insert enumeration { state with cancelled := true, parked := false } }, [])

def serviceRetire (enumeration : EnumerationId) : Session × List Action :=
  match s.registry.get enumeration with
  | none => (s, [])
  | some state => ({ s with registry := s.registry.remove enumeration }, retireState state none)

/-- `order` is the order in which the drained hash map is walked. -/
def serviceAbandon (order : List EnumerationId) : Option (Session × List Action) :=
  if order.Perm s.registry.entries.keys then
    some ({ s with registry := .drainAll }, retireAll s.registry.entries order)
  else none

/-- What a worker's report makes of its outcome, and the entry it leaves. -/
def reportOutcome (enumeration : EnumerationId) (state : EnumerationState) (hasRoom : Bool) :
    QuantumOutcome → EnumerationState × List Action
  | .finished outcome => (state, [.finishFromWorker enumeration outcome])
  | .yielded =>
    if state.cancelled then (state, [.finishFromWorker enumeration .cancelled])
    else (state, schedule enumeration)
  | .parked =>
    if state.cancelled then (state, [.finishFromWorker enumeration .cancelled])
    else if hasRoom then (state, schedule enumeration)
    else ({ state with parked := true }, [])
  | .idle =>
    if state.cancelled then (state, [.finishFromWorker enumeration .cancelled]) else (state, [])

def reportQuantum (enumeration : EnumerationId) (engine : EngineState)
    (outcome : QuantumOutcome) : Session × List Action :=
  match s.registry.get enumeration with
  | none => (s, [])
  | some state =>
    let reported := reportOutcome enumeration { state with running := false, engine := some engine }
      (s.completions.hasDataRoom K.completionCapacity) outcome
    ({ s with registry := s.registry.insert enumeration reported.1 }, reported.2)

/-- The reserved slots of an enumeration a worker finished, used. -/
def closing (enumeration : EnumerationId) (state : EnumerationState) (outcome : TerminalOutcome) :
    List Action :=
  (match state.terminal with
    | some terminal => [.sendTerminal terminal outcome]
    | none => []) ++ if state.retire then [.pushRetire enumeration] else []

def finishFromWorker (enumeration : EnumerationId) (outcome : TerminalOutcome) :
    Session × List Action :=
  match s.registry.get enumeration with
  | none => (s, [])
  | some state =>
    ({ s with registry :=
        s.registry.insert enumeration { state with terminal := none, retire := false } },
      closing enumeration state outcome)

def quantum (enumeration : EnumerationId) (engine : EngineState) :
    Choice → Option (Session × List Action)
  | .send =>
    -- A refused entry is offered again, or the quantum ends; either is a choice of its own.
    some (match s.completions.trySendEntry K.completionCapacity (.entry enumeration) with
      | none => (s, [.quantum enumeration engine])
      | some ring => ({ s with completions := ring }, [.quantum enumeration engine]))
  | .outcome outcome => some (s, [.reportQuantum enumeration engine outcome])
  | _ => none

def snapshotParked (order : List EnumerationId) : Option (Session × List Action) :=
  if order.Perm s.registry.parked then some (s, order.flatMap schedule) else none

/-- The last handle's release takes the pool objects, outside the count's own step. -/
def releaseHandle : Session × List Action :=
  ({ s with handles := s.handles - 1 }, if s.handles = 1 then [.takeWork] else [])

/-- One critical section: the state it leaves and what it puts before the rest of its call. -/
def perform (choice : Choice) : Action → Option (Session × List Action)
  | .checkAbandoned => some s.checkAbandoned
  | .reserveCancel => some (s.reserveCancel K)
  | .reserveRetire => some (s.reserveRetire K)
  | .reserveTerminal => some (s.reserveTerminal K)
  | .allocate terminal =>
    match choice with
    | .go => some (s, [.tryPush terminal])
    | .fail => some (s, [.releaseCancel, .releaseRetire, .dropTerminal terminal,
        .refused .bufferAllocation])
    | _ => none
  | .tryPush terminal => some (s.tryPush K terminal)
  | .refused _ => some (s, [])
  | .returnHandle enumeration =>
    some ({ s with enumerations := enumeration :: s.enumerations }, [])
  | .releaseCancel => some ({ s with submissions := s.submissions.releaseReservation }, [])
  | .releaseRetire => some ({ s with submissions := s.submissions.releaseReservation }, [])
  | .dropTerminal _ => some ({ s with completions := s.completions.releaseReservation }, [])
  | .sendTerminal terminal outcome =>
    some ({ s with completions :=
      s.completions.fillReservation (.terminal terminal.enumeration outcome) }, [])
  | .pushCancel enumeration =>
    some ({ s with submissions := s.submissions.pushCancel enumeration },
      ringIf s.submissions.claimDrain)
  | .pushRetire enumeration =>
    some ({ s with submissions := s.submissions.pushRetire enumeration },
      ringIf s.submissions.claimDrain)
  | .pushAbandon =>
    some ({ s with submissions := s.submissions.pushAbandon }, ringIf s.submissions.claimDrain)
  | .ringServicer =>
    some (if s.work then { s with servicerDue := s.servicerDue + 1 } else s, [])
  | .submitEngine => some (if s.work then { s with engineDue := s.engineDue + 1 } else s, [])
  | .takeForService =>
    some ({ s with submissions := s.submissions.takeForService.1 },
      service s.submissions.takeForService.2)
  | .serviceBegin message => some (s.serviceBegin message)
  | .serviceCancel enumeration => some (s.serviceCancel enumeration)
  | .serviceRetire enumeration => some (s.serviceRetire enumeration)
  | .serviceAbandon =>
    match choice with
    | .order order => s.serviceAbandon order
    | _ => none
  | .markReady enumeration =>
    some ({ s with registry := s.registry.markReady enumeration }, [.submitEngine])
  | .claimNext =>
    some ({ s with registry := s.registry.claimNext.1 },
      match s.registry.claimNext.2 with
      | some (enumeration, engine) => [.quantum enumeration engine]
      | none => [])
  | .quantum enumeration engine => s.quantum K enumeration engine choice
  | .reportQuantum enumeration engine outcome => some (s.reportQuantum K enumeration engine outcome)
  | .finishFromWorker enumeration outcome => some (s.finishFromWorker enumeration outcome)
  | .tryTake =>
    some ({ s with completions := s.completions.tryTake.1 },
      if s.completions.tryTake.2.isSome then [.snapshotParked] else [])
  | .snapshotParked =>
    match choice with
    | .order order => s.snapshotParked order
    | _ => none
  | .addSession => some ({ s with completions := s.completions.addSession }, [])
  | .acquireHandle => some ({ s with handles := s.handles + 1, sessions := s.sessions + 1 }, [])
  | .removeSession => some ({ s with completions := s.completions.removeSession }, [])
  | .releaseHandle => some s.releaseHandle
  | .takeWork => some ({ s with work := false }, [])

end Session

/-! ## Threads -/

inductive Call where
  | begin | handle | cloneSession | dropSession | servicer | engine | receive | dropReceiver
  deriving DecidableEq, Repr

structure Counts where
  messages : ℤ
  slots : ℤ
  records : ℤ
  terminals : ℤ
  active : ℤ
  deriving DecidableEq, Repr

def Session.counts (s : Session) : Counts :=
  ⟨s.submissions.queue.length, s.submissions.reserved, s.completions.queue.length,
    s.completions.reserved, s.completions.active⟩

/-- By how much a section has changed the counts, added to what the call had changed before. -/
def Counts.shift (ledger before after : Counts) : Counts :=
  ⟨ledger.messages + (after.messages - before.messages),
    ledger.slots + (after.slots - before.slots),
    ledger.records + (after.records - before.records),
    ledger.terminals + (after.terminals - before.terminals),
    ledger.active + (after.active - before.active)⟩

/-- A call under way. `ledger`, what its own sections have changed in the counts of the rings,
stands beside it. -/
structure Task where
  call : Call
  todo : List Action
  ledger : Counts := ⟨0, 0, 0, 0, 0⟩
  deriving DecidableEq, Repr

structure System where
  session : Session
  tasks : List Task

inductive Event where
  | begin (captured : Bool)
  | cloneSession
  | dropSession
  | cancel (enumeration : EnumerationId)
  | detach (enumeration : EnumerationId)
  | receive
  | dropReceiver
  | runServicer
  | runEngine
  | act (task : Task) (choice : Choice)
  deriving DecidableEq, Repr

namespace System

variable (K : Config) (s : System)

def new : System := ⟨.new K, []⟩

def enter (session : Session) (call : Call) (todo : List Action) : System :=
  ⟨session, { call := call, todo := todo } :: s.tasks⟩

def borrowed : Bool :=
  s.tasks.any fun t => decide (t.call = .begin) || decide (t.call = .cloneSession)

def receiving : Bool := s.tasks.any fun t => decide (t.call = .receive)

def act (task : Task) (choice : Choice) : Option System :=
  if task ∈ s.tasks then
    match task.todo with
    | [] => none
    | action :: rest =>
      (s.session.perform K choice action).map fun r =>
        ⟨r.1, if r.2 ++ rest = [] then s.tasks.erase task
          else ⟨task.call, r.2 ++ rest, task.ledger.shift s.session.counts r.1.counts⟩ ::
            s.tasks.erase task⟩
  else none

def step : Event → Option System
  | .begin captured =>
    if 0 < s.session.sessions then
      some (s.enter s.session .begin [if captured then .checkAbandoned else .refused .tokenCapture])
    else none
  | .cloneSession =>
    if 0 < s.session.sessions then
      some (s.enter s.session .cloneSession [.addSession, .acquireHandle])
    else none
  | .dropSession =>
    if 1 < s.session.sessions ∨ s.session.sessions = 1 ∧ s.borrowed = false then
      some (s.enter { s.session with sessions := s.session.sessions - 1 } .dropSession
        [.removeSession, .releaseHandle])
    else none
  -- `cancel` and the drop of a handle are the same call.
  | .cancel enumeration =>
    if enumeration ∈ s.session.enumerations then
      some (s.enter { s.session with enumerations := s.session.enumerations.erase enumeration }
        .handle [.pushCancel enumeration])
    else none
  | .detach enumeration =>
    if enumeration ∈ s.session.enumerations then
      some (s.enter { s.session with enumerations := s.session.enumerations.erase enumeration }
        .handle [.releaseCancel])
    else none
  | .receive => if s.session.receiver then some (s.enter s.session .receive [.tryTake]) else none
  | .dropReceiver =>
    if s.session.receiver && !s.receiving then
      some (s.enter { s.session with receiver := false } .dropReceiver
        [.pushAbandon, .releaseHandle])
    else none
  | .runServicer =>
    if 0 < s.session.servicerDue then
      some (s.enter { s.session with servicerDue := s.session.servicerDue - 1 } .servicer
        [.takeForService])
    else none
  | .runEngine =>
    if 0 < s.session.engineDue then
      some (s.enter { s.session with engineDue := s.session.engineDue - 1 } .engine [.claimNext])
    else none
  | .act task choice => s.act K task choice

end System

abbrev Tick := Taken System Event

abbrev Run (K : Config) : List Tick → System → Prop := Execution (Allows (System.step K)) (· = .new K)

/-- A move of a script: a call is entered, or the call at a position makes its next section. -/
inductive Move where
  | enter (event : Event)
  | next (position : ℕ) (choice : Choice)

def System.event (s : System) : Move → Option Event
  | .enter event => some event
  | .next position choice => s.tasks[position]?.map fun task => .act task choice

/-- The next of a script's moves. A call that has just moved is at position 0. -/
abbrev System.read (K : Config) : System → Move → Option (Event × System) :=
  named (System.step K) System.event

end WindowsThreadpoolSys.FileEnumeration
