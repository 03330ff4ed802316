import WindowsThreadpoolSys.FileWatcher.Resume

/-! The watcher of one directory, its subscriptions' routes and the queues they end in, as threads move it:
completion and activation callbacks, the resume work, the retry timer, and the monitor's calls. A step is
what one thread does under one lock. A thread between two of its locks is a `Task`; the thread that
holds the gate's lock while it arms, and the one that holds the reopen lock, are states of their own.

* The kernel's and the client's choices come in with the event. Which reads are outstanding is left
  out: a callback may run at any time.
* What the watcher sends on its routes' queues is a call like any other of the queue, made at any time.
* `Endpoint.detailed` records what the source cannot read back: the subtree flag of the first read
  armed on the handle, which fixes the handle's reach. -/
namespace WindowsThreadpoolSys.FileWatcher
open Library Option

abbrev SessionId := ℕ

inductive ArmGate where
  | opened | backpressured | reopening | faulted | volumeChangePending | tornDown
  deriving DecidableEq, Repr

inductive RouteScope where
  | directory (subtree : Bool)
  | file
  deriving DecidableEq, Repr

def RouteScope.needsKernelSubtree : RouteScope → Bool
  | .directory subtree => subtree
  | .file => false

inductive RetryMode where
  | defaults | interactive
  deriving DecidableEq, Repr

inductive VolumeChangePolicy where
  | continue_ | confirm
  deriving DecidableEq, Repr

inductive VolumeChangeDecision where
  | continue_ | stop
  deriving DecidableEq, Repr

/-- A subscription. Its sink is the queue of a session. -/
structure Route where
  watch : WatchId
  scope : RouteScope
  sink : SessionId
  retry : RetryMode
  onVolumeChange : VolumeChangePolicy
  faultSlot : Option SlotId
  deriving DecidableEq, Repr

inductive FaultOperation where
  | open_ | arm
  deriving DecidableEq, Repr

def FaultOperation.defaultDelay : FaultOperation → ℕ
  | .open_ => 500
  | .arm => 500

def retryFloor : ℕ := 50

def clamp (delay : ℕ) : ℕ := max delay retryFloor

structure FaultState where
  operation : FaultOperation
  awaiting : List WatchId
  earliest : ℕ
  deriving DecidableEq, Repr

/-- A volume change asked about. The handle it waits with is a fresh one. -/
structure VolumeChangeState where
  awaiting : List WatchId
  decisions : List (WatchId × VolumeChangeDecision)
  deriving DecidableEq, Repr

inductive Endpoint where
  /-- `none` until a read has been armed on the handle. -/
  | detailed (firstRead : Option Bool)
  | coarse (subtree : Bool)
  deriving DecidableEq, Repr

/-- Whether the handle reaches the subtree, once that is fixed. -/
def Endpoint.reach : Endpoint → Option Bool
  | .detailed firstRead => firstRead
  | .coarse subtree => some subtree

/-- Who arms: on a failure a callback enters the fault loop, an install goes on by its own. -/
inductive ArmCaller where
  | callback | install
  deriving DecidableEq, Repr

inductive ArmPhase where
  /-- About to look whether any route has room. -/
  | look (again : Bool)
  /-- Looking, with the routes locked: the routes still to look at. -/
  | looking (again : Bool) (todo : List WatchId)
  | submit
  deriving DecidableEq, Repr

structure Arming where
  caller : ArmCaller
  phase : ArmPhase
  deriving DecidableEq, Repr

inductive ArmResult where
  | ok | unsupported | failed
  deriving DecidableEq, Repr

inductive InstallCaller where
  | start | addRoute | reopen
  deriving DecidableEq, Repr

inductive InstallPhase where
  | teardown
  | establishDetailed
  | armDetailed
  /-- Tearing down a detailed endpoint that is not supported. -/
  | downgrade
  | openCoarse
  | establishCoarse (subtree : Bool)
  | armCoarse
  deriving DecidableEq, Repr

structure Installing where
  caller : InstallCaller
  phase : InstallPhase
  deriving DecidableEq, Repr

/-- What a thread between two locks does next. -/
inductive Task where
  | arm
  | enterFault (operation : FaultOperation)
  | askFault (operation : FaultOperation)
  | schedule (delay : ℕ)
  | reopen
  | resolveFaultSuccess
  | recordStop
  | resolveVolumeChange
  | register (sink : SessionId) (widen : Bool)
  | widen
  | install (caller : InstallCaller)
  | leaveFault (watch : WatchId)
  | leaveVolumeChange (watch : WatchId)
  | stopTeardown
  deriving DecidableEq, Repr

structure Watcher (P : Type) where
  gate : ArmGate
  endpoint : Option Endpoint
  routes : Table WatchId Route
  fault : Option FaultState
  volumeChange : Option VolumeChangeState
  stopped : Bool
  forceCoarse : Bool
  /-- The delay the retry timer is set for. -/
  timer : Option ℕ
  sessions : Table SessionId (Channel P)
  /-- Prods of this watcher that a queue returned and that are not made yet. -/
  prods : ℕ
  /-- Resume work submitted and not run yet. -/
  resumes : ℕ
  /-- The arm that holds the gate's lock. -/
  arming : Option Arming
  /-- The install that holds the reopen lock. -/
  installing : Option Installing
  tasks : List Task

variable {P : Type}

def watcherId : ProducerId := 0

inductive Completion where
  | aborted | failed | done
  deriving DecidableEq, Repr

inductive Reopened where
  | opened (otherVolume : Bool)
  | retryable
  | permanent
  deriving DecidableEq, Repr

inductive Event (P : Type) where
  | session (id : SessionId) (bound : ℕ)
  | call (id : SessionId) (call : Call P) (dead : List ProducerId)
  | prod
  | completion (outcome : Completion)
  | activation (reset : Bool)
  | arm
  | resumeArm
  | look (order : List WatchId)
  | lookAt
  | submit (outcome : ArmResult)
  | enterFault (operation : FaultOperation)
  | askFault (operation : FaultOperation)
  | schedule (delay : ℕ)
  | answer (watch : WatchId) (delay : Option ℕ)
  | timer
  | reopen (found : Reopened)
  | resolveFaultSuccess
  | recordStop
  | answerVolumeChange (watch : WatchId) (decision : VolumeChangeDecision)
  | resolveVolumeChange
  | addRoute (route : Route)
  | register (sink : SessionId) (widen : Bool)
  | widen
  | removeRoute (watch : WatchId)
  | leaveFault (watch : WatchId)
  | leaveVolumeChange (watch : WatchId)
  | takeRoutes
  | install (caller : InstallCaller)
  | teardown
  | establishDetailed (ok : Bool)
  | armAfterInstall
  | openCoarse
  | establishCoarse (ok : Bool)
  | stop
  | stopTeardown

instance System.decidableOwns (s : System P) : (call : Call P) → Decidable (s.Owns call)
  | .reservationSend _ => inferInstanceAs (Decidable (0 < s.reservations))
  | .reservationDrop => inferInstanceAs (Decidable (0 < s.reservations))
  | .reserveStanding slot =>
    decidable_of_iff ((s.state.standing.get slot).isNone = true) Option.isNone_iff_eq_none
  | .standingSend slot _ | .standingDrop slot =>
    decidable_of_iff ((s.state.standing.get slot).any (·.slotAlive) = true)
      (by simp [System.Owns, Option.any_eq_true])
  | .dropSender => inferInstanceAs (Decidable (0 < s.state.senders))
  | .send _ | .reserve | .cloneSender | .take => inferInstanceAs (Decidable True)

namespace Watcher

variable (w : Watcher P)

/-! ## What is read -/

def anyRecursive : Bool := w.routes.vals.any fun r => r.scope.needsKernelSubtree

def hasRoom (sink : SessionId) : Bool :=
  match w.sessions.get sink with
  | none => false
  | some c => c.system.state.hasRoom

def routeHasRoom (watch : WatchId) : Bool :=
  match w.routes.get watch with
  | none => false
  | some r => w.hasRoom r.sink

def routesFree : Bool :=
  match w.arming with
  | some ⟨_, .looking _ _⟩ => false
  | _ => true

def interactiveRoutes : List WatchId :=
  (w.routes.vals.filter fun r => decide (r.retry = .interactive) && r.faultSlot.isSome).map (·.watch)

def confirmRoutes : List WatchId :=
  (w.routes.vals.filter fun r =>
    decide (r.onVolumeChange = .confirm) && r.faultSlot.isSome).map (·.watch)

/-! ## Threads -/

def spawn (t : Task) : Watcher P := { w with tasks := t :: w.tasks }

def done (t : Task) : Watcher P := { w with tasks := w.tasks.erase t }

/-! ## Installing -/

/-- A start that failed: the watcher is dropped, and its route goes back to the caller. A callback of a
watcher that is gone does nothing. -/
def abandon : Watcher P :=
  { w with gate := .tornDown, endpoint := none, routes := .empty, arming := none }

def finishInstall (caller : InstallCaller) (ok : Bool) : Watcher P :=
  let w := { w with installing := none }
  match caller, ok with
  | .start, true => w
  | .start, false => w.abandon
  | .addRoute, true => w
  | .addRoute, false => w.spawn (.enterFault .arm)
  | .reopen, true => w.spawn .resolveFaultSuccess
  | .reopen, false => w.spawn (.enterFault .arm)

def install (caller : InstallCaller) : Watcher P :=
  if w.gate = .tornDown then w.finishInstall caller true
  else { w with gate := .reopening, installing := some ⟨caller, .teardown⟩ }

def teardown : Option (Watcher P) :=
  match w.installing with
  | some ⟨caller, .teardown⟩ =>
    some { w with
      endpoint := none
      installing := some ⟨caller, if w.forceCoarse then .openCoarse else .establishDetailed⟩ }
  | some ⟨caller, .downgrade⟩ =>
    some { w with endpoint := none, installing := some ⟨caller, .openCoarse⟩ }
  | _ => none

def establishDetailed (ok : Bool) : Option (Watcher P) :=
  match w.installing with
  | some ⟨caller, .establishDetailed⟩ =>
    some (if ok then
      { w with endpoint := some (.detailed none), installing := some ⟨caller, .armDetailed⟩ }
    else w.finishInstall caller false)
  | _ => none

/-- `establish_coarse`: the reach of the handle is read off the routes and fixed by its open. -/
def openCoarse : Option (Watcher P) :=
  match w.installing with
  | some ⟨caller, .openCoarse⟩ =>
    some { w with installing := some ⟨caller, .establishCoarse w.anyRecursive⟩ }
  | _ => none

def establishCoarse (ok : Bool) : Option (Watcher P) :=
  match w.installing with
  | some ⟨caller, .establishCoarse subtree⟩ =>
    some (if ok then
      { w with endpoint := some (.coarse subtree), installing := some ⟨caller, .armCoarse⟩ }
    else w.finishInstall caller false)
  | _ => none

def armAfterInstall : Option (Watcher P) :=
  match w.installing with
  | some ⟨caller, .armDetailed⟩ | some ⟨caller, .armCoarse⟩ =>
    some (if w.gate = .tornDown then w.finishInstall caller true
      else { w with arming := some ⟨.install, .look false⟩ })
  | _ => none

def installArmed (result : ArmResult) : Watcher P :=
  match w.installing with
  | some ⟨caller, .armDetailed⟩ =>
    match result with
    | .ok => w.finishInstall caller true
    | .unsupported => { w with installing := some ⟨caller, .downgrade⟩ }
    | .failed => w.finishInstall caller false
  | some ⟨caller, .armCoarse⟩ => w.finishInstall caller (decide (result = .ok))
  | _ => w

/-! ## Arming -/

def finishArm (caller : ArmCaller) (result : ArmResult) : Watcher P :=
  let w := { w with arming := none }
  match caller with
  | .callback => if result = .ok then w else w.spawn (.enterFault .arm)
  | .install => w.installArmed result

def arm : Watcher P :=
  if w.gate = .tornDown ∨ w.gate = .reopening then w
  else { w with arming := some ⟨.callback, .look false⟩ }

def resumeArm : Watcher P :=
  if w.gate = .backpressured then { w with arming := some ⟨.callback, .look false⟩ } else w

/-- `any_route_has_room` takes the routes' lock; the order is the hash map's. -/
def look (order : List WatchId) : Option (Watcher P) :=
  match w.arming with
  | some ⟨caller, .look again⟩ =>
    if order.isPerm w.routes.keys then
      some { w with arming := some ⟨caller, .looking again order⟩ }
    else none
  | _ => none

/-- One route's sink is asked for room. When none has any the gate is closed, and it is looked again
before the pause is left in place. -/
def lookAt : Option (Watcher P) :=
  match w.arming with
  | some ⟨caller, .looking again (watch :: rest)⟩ =>
    some (if w.routeHasRoom watch then
      { w with gate := .opened, arming := some ⟨caller, .submit⟩ }
    else { w with arming := some ⟨caller, .looking again rest⟩ })
  | some ⟨caller, .looking false []⟩ =>
    some { w with gate := .backpressured, arming := some ⟨caller, .look true⟩ }
  | some ⟨caller, .looking true []⟩ => some (w.finishArm caller .ok)
  | _ => none

/-- The rest of `arm_locked`: the read is submitted, with the reach the routes ask for now. -/
def submit (outcome : ArmResult) : Option (Watcher P) :=
  match w.arming with
  | some ⟨caller, .submit⟩ =>
    match w.endpoint with
    | none => some (w.finishArm caller .failed)
    | some (.coarse _) => some (w.finishArm caller .ok)
    | some (.detailed firstRead) =>
      match outcome with
      | .ok =>
        some (finishArm
          { w with endpoint := some (.detailed (some (firstRead.getD w.anyRecursive))) } caller .ok)
      | .unsupported => some (w.finishArm caller .unsupported)
      | .failed => some (w.finishArm caller .failed)
  | _ => none

/-! ## Callbacks -/

def onCompletion : Completion → Watcher P
  | .aborted => w
  | .failed => w.spawn (.enterFault .arm)
  | .done => w.spawn .arm

def onActivation (reset : Bool) : Watcher P :=
  if reset then w.spawn .arm else w.spawn (.enterFault .arm)

/-! ## The fault loop -/

def enterFault (operation : FaultOperation) : Watcher P :=
  if w.gate = .tornDown then w
  else { w with gate := .faulted, tasks := .askFault operation :: w.tasks }

def askFault (operation : FaultOperation) : Watcher P :=
  let awaiting := w.interactiveRoutes
  let w := { w with fault := some ⟨operation, awaiting, operation.defaultDelay⟩ }
  if awaiting = [] then w.spawn (.schedule operation.defaultDelay) else w

def schedule (delay : ℕ) : Watcher P := { w with timer := some (clamp delay) }

/-- A watch awaited no longer, with the delay it asked for. -/
def settleFault (watch : WatchId) (candidate : FaultState → ℕ) : Watcher P :=
  match w.fault with
  | none => w
  | some f =>
    if watch ∈ f.awaiting then
      let f := { f with awaiting := f.awaiting.erase watch, earliest := min (candidate f) f.earliest }
      let w := { w with fault := some f }
      if f.awaiting = [] then w.spawn (.schedule f.earliest) else w
    else w

def answer (watch : WatchId) (delay : Option ℕ) : Watcher P :=
  w.settleFault watch fun f => delay.getD f.operation.defaultDelay

def retryReestablish : Watcher P :=
  if w.gate = .tornDown then w else w.spawn .reopen

/-- `on_path_based_reopen`, or the failure to open the path. -/
def reopen : Reopened → Watcher P
  | .retryable => w.spawn (.enterFault .open_)
  | .permanent => w.spawn .recordStop
  | .opened false => w.spawn (.install .reopen)
  | .opened true =>
    if w.confirmRoutes = [] then w.spawn (.install .reopen)
    else if w.gate = .tornDown then w
    else
      { w with
        gate := .volumeChangePending
        volumeChange := some { awaiting := w.confirmRoutes, decisions := [] } }

def resolveFaultSuccess : Watcher P := { w with fault := none }

def recordStop : Watcher P :=
  if w.stopped then w else { w with stopped := true, fault := none }

/-! ## Volume changes -/

def settleVolumeChange (watch : WatchId) (decisions : List (WatchId × VolumeChangeDecision)) :
    Watcher P :=
  match w.volumeChange with
  | none => w
  | some v =>
    if watch ∈ v.awaiting then
      let v := { v with awaiting := v.awaiting.erase watch, decisions := decisions ++ v.decisions }
      let w := { w with volumeChange := some v }
      if v.awaiting = [] then w.spawn .resolveVolumeChange else w
    else w

def answerVolumeChange (watch : WatchId) (decision : VolumeChangeDecision) : Watcher P :=
  w.settleVolumeChange watch [(watch, decision)]

/-- Routes that decided to stop leave. With a route left the candidate handle is installed. -/
def resolveVolumeChange : Option (Watcher P) :=
  match w.volumeChange with
  | none => none
  | some v =>
    let routes := w.routes.filter fun watch _ => decide ((watch, VolumeChangeDecision.stop) ∉ v.decisions)
    let w := { w with volumeChange := none, routes := routes }
    some (if routes.size = 0 then w else w.spawn (.install .reopen))

/-! ## Routes -/

/-- `add_route` up to the insertion. -/
def addRoute (route : Route) : Watcher P :=
  { w with
    routes := w.routes.insert route.watch route
    tasks := .register route.sink (route.scope.needsKernelSubtree && !w.anyRecursive) :: w.tasks }

def register (sink : SessionId) (widen : Bool) : Watcher P :=
  let w := { w with sessions := w.sessions.modify sink (·.registerResume watcherId) }
  if widen then w.spawn .widen else w

/-- A first recursive route reopens the directory, if it finds the gate open. -/
def widen : Watcher P :=
  if w.gate = .opened then w.spawn (.install .addRoute) else w

def removeRoute (watch : WatchId) : Watcher P :=
  { w with routes := w.routes.erase watch, tasks := .leaveFault watch :: w.tasks }

/-- A route that leaves mid-fault is one that names no delay of its own. -/
def leaveFault (watch : WatchId) : Watcher P :=
  (w.settleFault watch (·.earliest)).spawn (.leaveVolumeChange watch)

def leaveVolumeChange (watch : WatchId) : Watcher P := w.settleVolumeChange watch []

def stop : Watcher P :=
  { w with gate := .tornDown, tasks := .stopTeardown :: w.tasks }

def stopTeardown : Watcher P := { w with endpoint := none, timer := none }

/-! ## Steps -/

def callQueue (id : SessionId) (call : Call P) (dead : List ProducerId) : Option (Watcher P) :=
  match w.sessions.get id with
  | none => none
  | some c =>
    if watcherId ∉ dead ∧ c.system.Owns call then
      match c.step dead call with
      | .error _ => none
      | .ok (awake, c') =>
        some { w with
          sessions := w.sessions.insert id c'
          prods := w.prods + awake.count watcherId }
    else none

def next (t : Task) (free : Bool) (go : Watcher P → Option (Watcher P)) : Option (Watcher P) :=
  if t ∈ w.tasks ∧ free = true then go (w.done t) else none

def gateFree : Bool := w.arming.isNone

def step : Event P → Option (Watcher P)
  | .session id bound =>
    if (w.sessions.get id).isNone ∧ 0 < bound then
      some { w with sessions := w.sessions.insert id (.new bound) }
    else none
  | .call id call dead => w.callQueue id call dead
  | .prod =>
    if 0 < w.prods then some { w with prods := w.prods - 1, resumes := w.resumes + 1 } else none
  | .completion outcome => some (w.onCompletion outcome)
  | .activation reset => some (w.onActivation reset)
  | .arm => w.next .arm w.gateFree fun w => some w.arm
  | .resumeArm =>
    if 0 < w.resumes ∧ w.gateFree then some (resumeArm { w with resumes := w.resumes - 1 }) else none
  | .look order => w.look order
  | .lookAt => w.lookAt
  | .submit outcome => w.submit outcome
  | .enterFault operation =>
    w.next (.enterFault operation) w.gateFree fun w => some (w.enterFault operation)
  | .askFault operation =>
    w.next (.askFault operation) w.routesFree fun w => some (w.askFault operation)
  | .schedule delay => w.next (.schedule delay) true fun w => some (w.schedule delay)
  | .answer watch delay => some (w.answer watch delay)
  | .timer =>
    if w.timer.isSome ∧ w.gateFree then some (retryReestablish { w with timer := none }) else none
  | .reopen found =>
    w.next .reopen (w.gateFree || decide (found ≠ .opened true)) fun w => some (w.reopen found)
  | .resolveFaultSuccess => w.next .resolveFaultSuccess true fun w => some w.resolveFaultSuccess
  | .recordStop => w.next .recordStop true fun w => some w.recordStop
  | .answerVolumeChange watch decision => some (w.answerVolumeChange watch decision)
  | .resolveVolumeChange => w.next .resolveVolumeChange w.routesFree resolveVolumeChange
  | .addRoute route =>
    if w.routesFree ∧ (w.sessions.get route.sink).isSome then some (w.addRoute route) else none
  | .register sink widen =>
    -- The thread has the route's sender, so the session is there.
    w.next (.register sink widen) (w.sessions.get sink).isSome fun w => some (w.register sink widen)
  | .widen => w.next .widen w.gateFree fun w => some w.widen
  | .removeRoute watch => if w.routesFree then some (w.removeRoute watch) else none
  | .leaveFault watch => w.next (.leaveFault watch) true fun w => some (w.leaveFault watch)
  | .leaveVolumeChange watch =>
    w.next (.leaveVolumeChange watch) true fun w => some (w.leaveVolumeChange watch)
  | .takeRoutes => if w.routesFree then some { w with routes := .empty } else none
  | .install caller =>
    w.next (.install caller) (w.installing.isNone && w.gateFree) fun w => some (w.install caller)
  | .teardown => w.teardown
  | .establishDetailed ok => w.establishDetailed ok
  | .armAfterInstall => if w.gateFree then w.armAfterInstall else none
  | .openCoarse => if w.routesFree then w.openCoarse else none
  | .establishCoarse ok => w.establishCoarse ok
  | .stop => if w.gateFree then some w.stop else none
  | .stopTeardown => w.next .stopTeardown true fun w => some w.stopTeardown

theorem next_some {w w' : Watcher P} {t : Task} {free : Bool} {go : Watcher P → Watcher P}
    (h : w.next t free (fun w => some (go w))=some w') :
    t ∈ w.tasks ∧ free=true ∧ go (w.done t)=w' := by
  unfold next at h
  split_ifs at h with hnext
  exact ⟨hnext.1,hnext.2,Option.some.inj h⟩

def start (sessions : Table SessionId (Channel P)) (route : Route) (forceCoarse : Bool) : Watcher P :=
  { gate := .opened
    endpoint := none
    routes := Table.empty.insert route.watch route
    fault := none
    volumeChange := none
    stopped := false
    forceCoarse := forceCoarse
    timer := none
    sessions := sessions.modify route.sink (·.registerResume watcherId)
    prods := 0
    resumes := 0
    arming := none
    installing := none
    tasks := [.install .start] }

def Settled : Prop :=
  w.tasks = [] ∧ w.arming = none ∧ w.installing = none ∧ w.prods = 0

instance (w : Watcher P) : Decidable w.Settled :=
  inferInstanceAs (Decidable (w.tasks = [] ∧ w.arming = none ∧ w.installing = none ∧ w.prods = 0))

end Watcher

/-! ## Runs -/

abbrev WatcherTick (P : Type) := Taken (Watcher P) (Event P)

/-- A watcher is made for a first route, whose sink is a session there is. -/
def Watcher.Started (w : Watcher P) : Prop :=
  ∃ sessions route forceCoarse, (sessions.get route.sink).isSome ∧ w = .start sessions route forceCoarse

abbrev WatcherRun : List (WatcherTick P) → Watcher P → Prop := Execution (Allows Watcher.step) Watcher.Started

end WindowsThreadpoolSys.FileWatcher
