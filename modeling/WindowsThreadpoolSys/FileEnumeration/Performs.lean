import WindowsThreadpoolSys.FileEnumeration.Session

/-! What one critical section can do, said once: a constructor for each way a section goes, with the
session it leaves and the sections it puts before the rest of its call. Every invariant of a session
is read off these. -/
namespace WindowsThreadpoolSys.FileEnumeration
open Library List

namespace Action

def touchesRegistry : Action → Bool
  | .serviceBegin _ | .serviceCancel _ | .serviceRetire _ | .serviceAbandon | .markReady _
  | .claimNext | .reportQuantum _ _ _ | .finishFromWorker _ _ => true
  | _ => false

end Action

namespace Session

variable (K : Config) (s : Session) (choice : Choice)

inductive Performs : Action → Session → List Action → Prop where
  | abandoned : Performs .checkAbandoned s [.refused .abandoned]
  | accepting : Performs .checkAbandoned s [.reserveCancel]
  | noCancel : Performs .reserveCancel s [.refused .submissionRingFull]
  | reserveCancel (hfree : s.submissions.free K.submissionCapacity ≠ 0) : Performs .reserveCancel
      { s with submissions := { s.submissions with reserved := s.submissions.reserved + 1 } }
      [.reserveRetire]
  | noRetire : Performs .reserveRetire s [.releaseCancel, .refused .submissionRingFull]
  | reserveRetire (hfree : s.submissions.free K.submissionCapacity ≠ 0) : Performs .reserveRetire
      { s with submissions := { s.submissions with reserved := s.submissions.reserved + 1 } }
      [.reserveTerminal]
  | noTerminal : Performs .reserveTerminal { s with nextId := s.nextId + 1 }
      [.releaseCancel, .releaseRetire, .refused .completionRingFull]
  | reserveTerminal (hroom : s.completions.canReserve K.completionCapacity = true) :
      Performs .reserveTerminal { s with
        nextId := s.nextId + 1
        completions := { s.completions with
          reserved := s.completions.reserved + 1
          active := s.completions.active + 1 } } [.allocate ⟨s.nextId⟩]
  | allocated (terminal : TerminalSlot) : Performs (.allocate terminal) s [.tryPush terminal]
  | unallocated (terminal : TerminalSlot) : Performs (.allocate terminal) s
      [.releaseCancel, .releaseRetire, .dropTerminal terminal, .refused .bufferAllocation]
  | rejected (terminal : TerminalSlot) (failure : BeginFailure) : Performs (.tryPush terminal) s
      [.releaseCancel, .releaseRetire, .dropTerminal terminal, .refused failure]
  | pushed (terminal : TerminalSlot) (hfree : s.submissions.free K.submissionCapacity ≠ 0) :
      Performs (.tryPush terminal)
        { s with submissions := s.submissions.enqueue (.begin (beginMessage terminal)) }
        (ringIf s.submissions.claimDrain ++ [.returnHandle terminal.enumeration])
  | refused (failure : BeginFailure) : Performs (.refused failure) s []
  | returnHandle (enumeration : EnumerationId) : Performs (.returnHandle enumeration)
      { s with enumerations := enumeration :: s.enumerations } []
  | releaseCancel : Performs .releaseCancel
      { s with submissions := s.submissions.releaseReservation } []
  | releaseRetire : Performs .releaseRetire
      { s with submissions := s.submissions.releaseReservation } []
  | dropTerminal (terminal : TerminalSlot) : Performs (.dropTerminal terminal)
      { s with completions := s.completions.releaseReservation } []
  | sendTerminal (terminal : TerminalSlot) (outcome : TerminalOutcome) :
      Performs (.sendTerminal terminal outcome) { s with
        completions := s.completions.fillReservation (.terminal terminal.enumeration outcome) } []
  | pushCancel (enumeration : EnumerationId) : Performs (.pushCancel enumeration)
      { s with submissions := s.submissions.pushCancel enumeration }
      (ringIf s.submissions.claimDrain)
  | pushRetire (enumeration : EnumerationId) : Performs (.pushRetire enumeration)
      { s with submissions := s.submissions.pushRetire enumeration }
      (ringIf s.submissions.claimDrain)
  | pushAbandon : Performs .pushAbandon { s with submissions := s.submissions.pushAbandon }
      (ringIf s.submissions.claimDrain)
  | ringServicer (due : ℕ) : Performs .ringServicer { s with servicerDue := due } []
  | submitEngine : Performs .submitEngine
      { s with engineDue := if s.work then s.engineDue + 1 else s.engineDue } []
  | takeForService : Performs .takeForService
      { s with submissions := s.submissions.takeForService.1 }
      (service s.submissions.takeForService.2)
  | begun (message : BeginMessage) (haccepting : s.registry.accepting = true) :
      Performs (.serviceBegin message) { s with
        registry := s.registry.insert message.enumeration (.new message)
        registered := message.enumeration :: s.registered } (schedule message.enumeration)
  | turnedAway (message : BeginMessage) (hclosed : s.registry.accepting = false) :
      Performs (.serviceBegin message) s (retireState (.new message) none)
  | cancelMissing {enumeration : EnumerationId} (hget : s.registry.get enumeration = none) :
      Performs (.serviceCancel enumeration) s []
  | cancelled {enumeration : EnumerationId} {state : EnumerationState}
      (hget : s.registry.get enumeration = some state) : Performs (.serviceCancel enumeration)
        { s with registry := s.registry.remove enumeration } (retireState state (some .cancelled))
  | cancelling {enumeration : EnumerationId} {state : EnumerationState}
      (hget : s.registry.get enumeration = some state) (hrunning : state.running = true) :
      Performs (.serviceCancel enumeration)
        { s with registry :=
          s.registry.insert enumeration { state with cancelled := true, parked := false } } []
  | retireMissing {enumeration : EnumerationId} (hget : s.registry.get enumeration = none) :
      Performs (.serviceRetire enumeration) s []
  | retired {enumeration : EnumerationId} {state : EnumerationState}
      (hget : s.registry.get enumeration = some state) : Performs (.serviceRetire enumeration)
        { s with registry := s.registry.remove enumeration } (retireState state none)
  | drained {order : List EnumerationId} (horder : order.Perm s.registry.entries.keys) :
      Performs .serviceAbandon { s with registry := .drainAll }
        (retireAll s.registry.entries order)
  | markReady (enumeration : EnumerationId) : Performs (.markReady enumeration)
      { s with registry := s.registry.markReady enumeration } [.submitEngine]
  | claimed {enumeration : EnumerationId} {engine : EngineState}
      (hclaim : s.registry.claimNext.2 = some (enumeration, engine)) :
      Performs .claimNext { s with registry := s.registry.claimNext.1 }
        [.quantum enumeration engine]
  | unclaimed : Performs .claimNext { s with registry := s.registry.claimNext.1 } []
  | sent (enumeration : EnumerationId) (engine : EngineState)
      (hroom : s.completions.dataRoom K.completionCapacity ≠ 0) :
      Performs (.quantum enumeration engine)
        { s with completions := s.completions.enqueue (.entry enumeration) }
        [.quantum enumeration engine]
  | unsent (enumeration : EnumerationId) (engine : EngineState) :
      Performs (.quantum enumeration engine) s [.quantum enumeration engine]
  | ended (enumeration : EnumerationId) (engine : EngineState) {outcome : QuantumOutcome}
      (hchoice : choice = .outcome outcome) :
      Performs (.quantum enumeration engine) s [.reportQuantum enumeration engine outcome]
  | reportMissing {enumeration : EnumerationId} (engine : EngineState) (outcome : QuantumOutcome)
      (hget : s.registry.get enumeration = none) :
      Performs (.reportQuantum enumeration engine outcome) s []
  | reported {enumeration : EnumerationId} {state : EnumerationState} (engine : EngineState)
      (outcome : QuantumOutcome) (hget : s.registry.get enumeration = some state)
      {next : EnumerationState × List Action} (hnext : next =
        reportOutcome enumeration { state with running := false, engine := some engine }
          (s.completions.hasDataRoom K.completionCapacity) outcome) :
      Performs (.reportQuantum enumeration engine outcome)
        { s with registry := s.registry.insert enumeration next.1 } next.2
  | finishMissing {enumeration : EnumerationId} (outcome : TerminalOutcome)
      (hget : s.registry.get enumeration = none) :
      Performs (.finishFromWorker enumeration outcome) s []
  | finished {enumeration : EnumerationId} {state : EnumerationState} (outcome : TerminalOutcome)
      (hget : s.registry.get enumeration = some state) :
      Performs (.finishFromWorker enumeration outcome)
        { s with registry :=
          s.registry.insert enumeration { state with terminal := none, retire := false } }
        (closing enumeration state outcome)
  | tryTake : Performs .tryTake { s with completions := s.completions.tryTake.1 }
      (if s.completions.tryTake.2.isSome then [.snapshotParked] else [])
  | snapshotParked {order : List EnumerationId} (horder : order.Perm s.registry.parked) :
      Performs .snapshotParked s (order.flatMap schedule)
  | addSession : Performs .addSession { s with completions := s.completions.addSession } []
  | acquireHandle : Performs .acquireHandle
      { s with handles := s.handles + 1, sessions := s.sessions + 1 } []
  | removeSession : Performs .removeSession
      { s with completions := s.completions.removeSession } []
  | releaseHandle : Performs .releaseHandle { s with handles := s.handles - 1 }
      (if s.handles = 1 then [.takeWork] else [])
  | takeWork : Performs .takeWork { s with work := false } []

variable {K s choice}

theorem performs {s' : Session} {action : Action} {more : List Action}
    (hp : s.perform K choice action=some (s',more)) : Performs K s choice action s' more := by
  cases action with
  | checkAbandoned =>
    cases hp
    split
    · exact .abandoned
    · exact .accepting
  | reserveCancel | reserveRetire =>
    simp only [perform,reserveCancel,reserveRetire,SubmissionRing.reserveCancel,
      SubmissionRing.reserveRetire,SubmissionRing.reserve] at hp
    split at hp
    · cases hp
      constructor
    · next hring =>
      split at hring
      · cases hring
      · next hfree =>
        cases hring
        cases hp
        constructor
        exact hfree
  | reserveTerminal =>
    simp only [perform,reserveTerminal,CompletionRing.reserveTerminal] at hp
    split at hp
    · cases hp
      exact .noTerminal
    · next hring =>
      split at hring
      · next hroom =>
        cases hring
        cases hp
        exact .reserveTerminal hroom
      · cases hring
  | allocate terminal =>
    cases choice with
    | go=>cases hp; exact .allocated terminal
    | fail=>cases hp; exact .unallocated terminal
    | _=>cases hp
  | tryPush terminal =>
    simp only [perform,tryPush,SubmissionRing.tryPush] at hp
    split at hp
    · cases hp
      exact .rejected terminal _
    · next hring =>
      split at hring
      · cases hring
      · split at hring
        · cases hring
        · next hfree =>
          cases hring
          cases hp
          exact .pushed terminal hfree
  | ringServicer =>
    cases hp
    split
    · exact .ringServicer _
    · exact .ringServicer s.servicerDue
  | submitEngine =>
    have hdue : Performs K s choice .submitEngine _ _:=.submitEngine
    cases hp
    split at hdue
    · next hwork=>rwa [if_pos hwork]
    · next hwork=>rwa [if_neg hwork]
  | serviceBegin message =>
    simp only [perform,serviceBegin] at hp
    split at hp
    · next haccepting =>
      cases hp
      exact .begun message haccepting
    · next hclosed =>
      cases hp
      exact .turnedAway message (Bool.eq_false_iff.mpr hclosed)
  | serviceCancel enumeration =>
    simp only [perform,serviceCancel] at hp
    split at hp
    · next hget =>
      cases hp
      exact .cancelMissing hget
    · next state hget =>
      split at hp
      · cases hp
        exact .cancelled hget
      · next hquiescent =>
        cases hp
        refine .cancelling hget ?_
        simpa [EnumerationState.isQuiescent] using hquiescent
  | serviceRetire enumeration =>
    simp only [perform,serviceRetire] at hp
    split at hp
    · next hget =>
      cases hp
      exact .retireMissing hget
    · next state hget =>
      cases hp
      exact .retired hget
  | serviceAbandon =>
    cases choice with
    | order order =>
      simp only [perform,serviceAbandon] at hp
      split at hp
      · next horder =>
        cases hp
        exact .drained horder
      · cases hp
    | _=>cases hp
  | claimNext =>
    cases hp
    split
    · next hclaim=>exact .claimed hclaim
    · exact .unclaimed
  | quantum enumeration engine =>
    cases choice with
    | send =>
      simp only [perform,quantum,CompletionRing.trySendEntry] at hp
      split at hp
      · cases hp
        exact .unsent enumeration engine
      · next hring =>
        split at hring
        · cases hring
        · next hroom =>
          cases hring
          cases hp
          exact .sent enumeration engine hroom
    | outcome outcome=>cases hp; exact .ended enumeration engine rfl
    | _=>cases hp
  | reportQuantum enumeration engine outcome =>
    simp only [perform,reportQuantum] at hp
    split at hp
    · next hget =>
      cases hp
      exact .reportMissing engine outcome hget
    · next state hget =>
      cases hp
      exact .reported engine outcome hget rfl
  | finishFromWorker enumeration outcome =>
    simp only [perform,finishFromWorker] at hp
    split at hp
    · next hget =>
      cases hp
      exact .finishMissing outcome hget
    · next state hget =>
      cases hp
      exact .finished outcome hget
  | snapshotParked =>
    cases choice with
    | order order =>
      simp only [perform,snapshotParked] at hp
      split at hp
      · next horder =>
        cases hp
        exact .snapshotParked horder
      · cases hp
    | _=>cases hp
  | _ =>
    cases hp
    constructor

end Session

end WindowsThreadpoolSys.FileEnumeration
