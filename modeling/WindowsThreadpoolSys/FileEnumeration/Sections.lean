import WindowsThreadpoolSys.FileEnumeration.Balance

/-! The parts of a section that several invariants use: which sections may follow which, what becomes
of one registry entry, and what the completion queue and the pool's bookkeeping look like after it. -/
namespace WindowsThreadpoolSys.FileEnumeration
open Library List Table Option

/-- A section that only opens a call, or follows one certain section. -/
def Action.opens : Action → Bool
  | .checkAbandoned | .pushCancel _ | .pushAbandon | .claimNext | .tryTake | .snapshotParked
  | .addSession | .acquireHandle | .removeSession | .releaseHandle | .takeWork | .quantum _ _
  | .reportQuantum _ _ _ => true
  | _ => false

/-! ## Lists of sections -/

theorem weigh_eq_zero {w : Action → ℕ} {todo : List Action} (h : ∀ a ∈ todo,w a=0) :
    weigh w todo=0 := by
  induction todo with
  | nil=>rfl
  | cons a rest ih=>rw [weigh_cons,h a mem_cons_self,ih fun b hb=>h b (mem_cons_of_mem _ hb)]

variable {state : EnumerationState}

theorem mem_retireState {a : Action} {outcome : Option TerminalOutcome}
    (h : a ∈ retireState state outcome) :
    a=.releaseRetire ∨ (∃ terminal outcome,a=.sendTerminal terminal outcome) ∨
      ∃ terminal,a=.dropTerminal terminal := by
  unfold retireState at h
  rw [mem_append] at h
  rcases h with h | h
  · split at h
    · exact .inl (mem_singleton.mp h)
    · cases h
  · split at h
    · next terminal outcome _=>exact .inr (.inl ⟨terminal,outcome,mem_singleton.mp h⟩)
    · next terminal _=>exact .inr (.inr ⟨terminal,mem_singleton.mp h⟩)
    · cases h

variable {entries : Table EnumerationId EnumerationState}

theorem mem_retireAll {a : Action} {order : List EnumerationId} (h : a ∈ retireAll entries order) :
    ∃ enumeration state,entries.get enumeration=some state ∧ a ∈ retireState state none := by
  obtain ⟨enumeration, -,ha⟩:=mem_flatMap.mp h
  cases hget : entries.get enumeration with
  | none =>
    rw [hget] at ha
    cases ha
  | some state =>
    rw [hget] at ha
    exact ⟨enumeration,state,hget,ha⟩

namespace Session

/-! ## Registered ids -/

variable {r : Registry} {k : EnumerationId}

theorem isSome_insert {v w : EnumerationState} (h : r.get k=some w) (enumeration : EnumerationId) :
    ((r.entries.insert k v).get enumeration).isSome=(r.entries.get enumeration).isSome := by
  rw [get_insert]
  by_cases hk : enumeration=k
  · subst hk
    have hget : r.entries.get enumeration=some w:=h
    rw [if_pos rfl,hget]
    rfl
  · rw [if_neg hk]

theorem markReady_isSome (r : Registry) (k enumeration : EnumerationId) :
    ((r.markReady k).entries.get enumeration).isSome=(r.entries.get enumeration).isSome := by
  unfold Registry.markReady
  cases hget : r.get k with
  | none=>rfl
  | some state =>
    by_cases hbusy : state.queued || state.running
    · simp only [hbusy,if_true]
      exact isSome_insert hget enumeration
    · simp only [hbusy]
      exact isSome_insert hget enumeration

theorem claimFrom_isSome (ready : List EnumerationId) (accepting : Bool)
    (entries : Table EnumerationId EnumerationState) (enumeration : EnumerationId) :
    ((Registry.claimFrom entries accepting ready).1.entries.get enumeration).isSome =
      (entries.get enumeration).isSome := by
  induction ready generalizing entries with
  | nil=>rfl
  | cons k rest ih =>
    rw [Registry.claimFrom]
    cases hget : entries.get k with
    | none=>exact ih entries
    | some state =>
      have hentry : (Registry.mk entries [] accepting).get k=some state:=hget
      by_cases hrunning : state.running
      · simp only [if_pos hrunning]
        exact (ih _).trans (isSome_insert hentry enumeration)
      · simp only [if_neg hrunning]
        cases state.engine with
        | none=>exact (ih _).trans (isSome_insert hentry enumeration)
        | some engine=>exact isSome_insert hentry enumeration

theorem markReady_ready {enumeration : EnumerationId} (h : enumeration ∈ (r.markReady k).ready) :
    enumeration ∈ r.ready ∨ (r.entries.get enumeration).isSome := by
  unfold Registry.markReady at h
  cases hget : r.get k with
  | none =>
    rw [hget] at h
    exact .inl h
  | some state =>
    simp only [hget] at h
    split at h
    · exact .inl h
    · rcases mem_append.mp h with hold | hnew
      · exact .inl hold
      · rw [mem_singleton.mp hnew]
        exact .inr (isSome_iff_exists.mpr ⟨state,hget⟩)

variable {enumeration : EnumerationId}

theorem claimFrom_ready {ready : List EnumerationId} {accepting : Bool}
    (h : enumeration ∈ (Registry.claimFrom entries accepting ready).1.ready) :
    enumeration ∈ ready := by
  induction ready generalizing entries with
  | nil=>cases h
  | cons k rest ih =>
    rw [Registry.claimFrom] at h
    split at h
    · exact mem_cons_of_mem _ (ih h)
    · split at h
      · exact mem_cons_of_mem _ (ih h)
      · split at h
        · exact mem_cons_of_mem _ (ih h)
        · exact mem_cons_of_mem _ h

theorem isSome_of_remove {enumeration : EnumerationId}
    (h : ((r.remove k).entries.get enumeration).isSome) : (r.entries.get enumeration).isSome := by
  obtain ⟨state,hstate⟩:=isSome_iff_exists.mp h
  exact isSome_iff_exists.mpr ⟨state,get_of_erase hstate⟩

variable {K : Config} {s s' : Session} {choice : Choice} {action : Action} {more : List Action}

/-! ## What follows a section -/

variable {a : Action}

theorem opens_retireState {outcome : Option TerminalOutcome} (h : a ∈ retireState state outcome) :
    a.opens=false := by
  rcases mem_retireState h with rfl | ⟨terminal,outcome,rfl⟩ | ⟨terminal,rfl⟩ <;> rfl

theorem opens_schedule (h : a ∈ schedule enumeration) : a.opens=false := by
  rw [mem_singleton.mp h]
  rfl

theorem opens_ringIf {outcome : PushOutcome} (h : a ∈ ringIf outcome) : a.opens=false := by
  cases outcome with
  | ringDoorbell =>
    rw [mem_singleton.mp h]
    rfl
  | drainAlreadyScheduled=>cases h

theorem mem_reportOutcome {hasRoom : Bool} {outcome : QuantumOutcome}
    (h : a ∈ (reportOutcome enumeration state hasRoom outcome).2) :
    (∃ outcome,a=.finishFromWorker enumeration outcome) ∨ a ∈ schedule enumeration := by
  cases outcome with
  | finished outcome=>exact .inl ⟨outcome,mem_singleton.mp h⟩
  | idle =>
    simp only [reportOutcome] at h
    split at h
    · exact .inl ⟨_,mem_singleton.mp h⟩
    · cases h
  | yielded =>
    simp only [reportOutcome] at h
    split at h
    · exact .inl ⟨_,mem_singleton.mp h⟩
    · exact .inr h
  | parked =>
    simp only [reportOutcome] at h
    split at h
    · exact .inl ⟨_,mem_singleton.mp h⟩
    · split at h
      · exact .inr h
      · cases h

inductive Follows (s : Session) (choice : Choice) : Action → Action → Prop where
  | other {action a : Action} (hopens : a.opens = false) : Follows s choice action a
  | taken : Follows s choice .tryTake .snapshotParked
  | released : Follows s choice .releaseHandle .takeWork
  | claimed {enumeration : EnumerationId} {engine : EngineState}
      (hclaim : s.registry.claimNext.2 = some (enumeration, engine)) :
      Follows s choice .claimNext (.quantum enumeration engine)
  | running {enumeration : EnumerationId} {engine : EngineState} :
      Follows s choice (.quantum enumeration engine) (.quantum enumeration engine)
  | reporting {enumeration : EnumerationId} {engine : EngineState} {outcome : QuantumOutcome}
      (hchoice : choice = .outcome outcome) :
      Follows s choice (.quantum enumeration engine) (.reportQuantum enumeration engine outcome)

theorem perform_more (hp : Performs K s choice action s' more) (ha : a ∈ more) :
    Follows s choice action a := by
  cases hp with
  | tryTake =>
    split at ha
    · rw [mem_singleton.mp ha]
      exact .taken
    · cases ha
  | releaseHandle =>
    split at ha
    · rw [mem_singleton.mp ha]
      exact .released
    · cases ha
  | claimed hclaim =>
    rw [mem_singleton.mp ha]
    exact .claimed hclaim
  | sent | unsent =>
    rw [mem_singleton.mp ha]
    exact .running
  | ended _ _ hchoice =>
    rw [mem_singleton.mp ha]
    exact .reporting hchoice
  | abandoned | accepting | noCancel | reserveCancel | noRetire | reserveRetire | noTerminal
  | reserveTerminal | allocated | unallocated | rejected | markReady =>
    simp only [mem_cons,not_mem_nil,or_false] at ha
    rcases ha with rfl | rfl | rfl | rfl <;> exact .other rfl
  | pushed =>
    rcases mem_append.mp ha with ha | ha
    · exact .other (opens_ringIf ha)
    · rw [mem_singleton.mp ha]
      exact .other rfl
  | pushCancel | pushRetire | pushAbandon=>exact .other (opens_ringIf ha)
  | takeForService =>
    cases hmessage : s.submissions.takeForService.2 with
    | none =>
      rw [hmessage] at ha
      cases ha
    | some message =>
      rw [hmessage] at ha
      cases message <;> rcases mem_pair.mp ha with rfl | rfl <;> exact .other rfl
  | begun=>exact .other (opens_schedule ha)
  | turnedAway | cancelled | retired=>exact .other (opens_retireState ha)
  | drained =>
    obtain ⟨k,state, -,ha⟩:=mem_retireAll ha
    exact .other (opens_retireState ha)
  | reported _ _ _ hnext =>
    subst hnext
    rcases mem_reportOutcome ha with ⟨outcome,rfl⟩ | ha
    · exact .other rfl
    · exact .other (opens_schedule ha)
  | finished =>
    rcases mem_append.mp ha with ha | ha <;> split at ha
    · rw [mem_singleton.mp ha]
      exact .other rfl
    · cases ha
    · rw [mem_singleton.mp ha]
      exact .other rfl
    · cases ha
  | snapshotParked =>
    obtain ⟨enumeration, -,ha⟩:=mem_flatMap.mp ha
    exact .other (opens_schedule ha)
  | _=>cases ha

/-! ## What a section leaves alone -/

structure Frame (s s' : Session) (action : Action) : Prop where
  receiver : s'.receiver = s.receiver
  holders : action ≠ .acquireHandle ∧ action ≠ .releaseHandle ∧ action ≠ .takeWork →
    s'.handles = s.handles ∧ s'.sessions = s.sessions ∧ s'.work = s.work
  engineDue : action ≠ .submitEngine → s'.engineDue = s.engineDue
  registry : action.touchesRegistry = false →
    s'.registered = s.registered ∧ s'.registry = s.registry
  records : action ≠ .tryTake → s.completions.queue ≠ [] → s'.completions.queue ≠ []

theorem Frame.of_rings (hsame : (s'.receiver,s'.handles,s'.sessions,s'.work,s'.engineDue,s'.registered,
    s'.registry,s'.completions.queue)=(s.receiver,s.handles,s.sessions,s.work,s.engineDue,
      s.registered,s.registry,s.completions.queue)) : Frame s s' action := by
  simp only [Prod.mk.injEq] at hsame
  obtain ⟨hreceiver,hhandles,hsessions,hwork,hdue,hregistered,hregistry,hrecords⟩:=hsame
  refine ⟨hreceiver,fun _=>⟨hhandles,hsessions,hwork⟩,fun _=>hdue,
    fun _=>⟨hregistered,hregistry⟩,fun _ hqueue=>?_⟩
  rw [hrecords]
  exact hqueue

theorem Frame.of_record {ring : CompletionRing} {record : Completion}
    (hqueue : ring.queue=s.completions.queue++[record]) :
    Frame s { s with completions := ring } action := by
  refine ⟨rfl,fun _=>⟨rfl,rfl,rfl⟩,fun _=>rfl,fun _=>⟨rfl,rfl⟩,fun _ _=>?_⟩
  show ring.queue≠[]
  rw [hqueue]
  exact append_ne_nil_of_right_ne_nil _ (cons_ne_nil _ _)

theorem perform_frame (hp : Performs K s choice action s' more) : Frame s s' action := by
  by_cases htouches : action.touchesRegistry=true
  · rw [perform_registry htouches hp]
    refine ⟨rfl,fun _=>⟨rfl,rfl,rfl⟩,fun _=>rfl,fun h=>?_,fun _ h=>h⟩
    rw [htouches] at h
    cases h
  cases hp with
  | acquireHandle=>exact ⟨rfl,fun h=>absurd rfl h.1,fun _=>rfl,fun _=>⟨rfl,rfl⟩,fun _ h=>h⟩
  | releaseHandle=>exact ⟨rfl,fun h=>absurd rfl h.2.1,fun _=>rfl,fun _=>⟨rfl,rfl⟩,fun _ h=>h⟩
  | takeWork=>exact ⟨rfl,fun h=>absurd rfl h.2.2,fun _=>rfl,fun _=>⟨rfl,rfl⟩,fun _ h=>h⟩
  | submitEngine=>exact ⟨rfl,fun _=>⟨rfl,rfl,rfl⟩,fun h=>absurd rfl h,fun _=>⟨rfl,rfl⟩,fun _ h=>h⟩
  | tryTake=>exact ⟨rfl,fun _=>⟨rfl,rfl,rfl⟩,fun _=>rfl,fun _=>⟨rfl,rfl⟩,fun h=>absurd rfl h⟩
  | sendTerminal | sent=>exact .of_record rfl
  | begun | cancelled | cancelling | retired | drained | markReady | claimed | unclaimed | reported
  | finished=>exact absurd rfl htouches
  | _=>exact .of_rings rfl

/-! ## One entry -/

inductive EntryStep (K : Config) (s : Session) (enumeration : EnumerationId) :
    Action → EnumerationState → Prop where
  | kept {action : Action} {state : EnumerationState}
      (hget : s.registry.get enumeration = some state)
      (hmark : action ≠ .markReady enumeration)
      (hreport : ∀ engine outcome, action ≠ .reportQuantum enumeration engine outcome)
      (hfinish : ∀ outcome, action ≠ .finishFromWorker enumeration outcome) :
      EntryStep K s enumeration action state
  | begun (message : BeginMessage) (hid : message.enumeration = enumeration)
      (haccepting : s.registry.accepting = true) :
      EntryStep K s enumeration (.serviceBegin message) (.new message)
  | cancelled {state : EnumerationState} (hget : s.registry.get enumeration = some state)
      (hrunning : state.running = true) :
      EntryStep K s enumeration (.serviceCancel enumeration)
        { state with cancelled := true, parked := false }
  | marked {state : EnumerationState} (hget : s.registry.get enumeration = some state) :
      EntryStep K s enumeration (.markReady enumeration)
        { state with parked := false, queued := state.queued || !state.running }
  | claimed {state : EnumerationState} {engine : EngineState}
      (hget : s.registry.get enumeration = some state) (hrunning : state.running = false)
      (hengine : state.engine = some engine)
      (hclaim : s.registry.claimNext.2 = some (enumeration, engine)) :
      EntryStep K s enumeration .claimNext
        { state with queued := false, engine := none, running := true, parked := false }
  | skipped {state : EnumerationState} (hget : s.registry.get enumeration = some state)
      (hbusy : state.running = true ∨ state.engine = none) :
      EntryStep K s enumeration .claimNext { state with queued := false }
  | reported {state : EnumerationState} {engine : EngineState} {outcome : QuantumOutcome}
      (hget : s.registry.get enumeration = some state) :
      EntryStep K s enumeration (.reportQuantum enumeration engine outcome)
        (reportOutcome enumeration { state with running := false, engine := some engine }
          (s.completions.hasDataRoom K.completionCapacity) outcome).1
  | finished {state : EnumerationState} {outcome : TerminalOutcome}
      (hget : s.registry.get enumeration = some state) :
      EntryStep K s enumeration (.finishFromWorker enumeration outcome)
        { state with terminal := none, retire := false }

/-- What a claim with this result makes of one entry: nothing, or it is popped and passed over, or
it is the one claimed. -/
inductive ClaimStep (entries : Table EnumerationId EnumerationState)
    (result : Option (EnumerationId × EngineState)) (enumeration : EnumerationId) :
    EnumerationState → Prop where
  | kept {state : EnumerationState} (hget : entries.get enumeration = some state) :
      ClaimStep entries result enumeration state
  | skipped {state : EnumerationState} (hget : entries.get enumeration = some state)
      (hbusy : state.running = true ∨ state.engine = none) :
      ClaimStep entries result enumeration { state with queued := false }
  | claimed {state : EnumerationState} {engine : EngineState}
      (hget : entries.get enumeration = some state) (hrunning : state.running = false)
      (hengine : state.engine = some engine) (hclaim : result = some (enumeration, engine)) :
      ClaimStep entries result enumeration
        { state with queued := false, engine := none, running := true, parked := false }

variable {state' : EnumerationState}

theorem ClaimStep.of_skip {result : Option (EnumerationId × EngineState)}
    {enumeration : EnumerationId} (hk : entries.get k=some state)
    (hbusy : state.running=true ∨ state.engine=none)
    (h : ClaimStep (entries.insert k { state with queued := false }) result enumeration state') :
    ClaimStep entries result enumeration state' := by
  by_cases hid : enumeration=k
  · subst hid
    cases h with
    | kept hget =>
      rw [get_insert_self] at hget
      cases hget
      exact .skipped hk hbusy
    | skipped hget _ =>
      rw [get_insert_self] at hget
      cases hget
      exact (ClaimStep.skipped hk hbusy :
        ClaimStep entries result enumeration { state with queued:=false })
    | claimed hget hrunning hengine _ =>
      rw [get_insert_self] at hget
      cases hget
      rcases hbusy with hbusy | hbusy
      · rw [hbusy] at hrunning
        cases hrunning
      · rw [hbusy] at hengine
        cases hengine
  · cases h with
    | kept hget=>exact .kept (get_insert_of_ne _ _ hid ▸ hget)
    | skipped hget hbusy=>exact .skipped (get_insert_of_ne _ _ hid ▸ hget) hbusy
    | claimed hget hrunning hengine hclaim =>
      exact .claimed (get_insert_of_ne _ _ hid ▸ hget) hrunning hengine hclaim

theorem claimFrom_entry {ready : List EnumerationId} {accepting : Bool}
    (h : (Registry.claimFrom entries accepting ready).1.entries.get enumeration=some state') :
    ClaimStep entries (Registry.claimFrom entries accepting ready).2 enumeration state' := by
  induction ready generalizing entries with
  | nil=>exact .kept h
  | cons k rest ih =>
    generalize hresult : Registry.claimFrom entries accepting (k::rest)=result at h ⊢
    rw [Registry.claimFrom] at hresult
    split at hresult
    · subst hresult
      exact ih h
    · next state hget =>
      split at hresult
      · next hrunning =>
        subst hresult
        exact (ih h).of_skip hget (.inl hrunning)
      · next hrunning =>
        split at hresult
        · next hengine =>
          subst hresult
          exact (ih h).of_skip hget (.inr hengine)
        · next engine hengine =>
          subst hresult
          rcases insert_cases h with ⟨rfl,rfl⟩ | ⟨-,h⟩
          · exact .claimed hget (Bool.eq_false_iff.mpr hrunning) hengine rfl
          · exact .kept h

theorem perform_entry (hp : Performs K s choice action s' more)
    (h : s'.registry.get enumeration=some state') : EntryStep K s enumeration action state' := by
  cases hp with
  | begun message haccepting =>
    rcases insert_cases h with ⟨rfl,rfl⟩ | ⟨-,h⟩
    · exact .begun message rfl haccepting
    · exact .kept h (by simp) (by simp) (by simp)
  | reportMissing _ _ hget =>
    refine .kept h (by simp) (fun _ _ heq=>?_) (by simp)
    rw [(Action.reportQuantum.inj heq).1,h] at hget
    cases hget
  | finishMissing _ hget =>
    refine .kept h (by simp) (by simp) fun _ heq=>?_
    rw [(Action.finishFromWorker.inj heq).1,h] at hget
    cases hget
  | cancelled hget | retired hget=>exact .kept (get_of_erase h) (by simp) (by simp) (by simp)
  | @cancelling handle _ hget hrunning =>
    rcases insert_cases h with ⟨rfl,rfl⟩ | ⟨-,h⟩
    · exact .cancelled hget hrunning
    · exact .kept h (by simp) (by simp) (by simp)
  | drained=>cases h
  | markReady handle =>
    by_cases hid : enumeration=handle
    · subst hid
      unfold Registry.markReady at h
      cases hget : s.registry.get enumeration with
      | none =>
        simp only [hget] at h
        cases h
      | some state =>
        simp only [hget] at h
        have hmarked:=EntryStep.marked (K:=K) hget
        cases hqueued : state.queued <;> cases hrunning : state.running <;>
          simp only [hqueued,hrunning,Bool.or_false,Bool.or_true,Bool.not_true,Bool.not_false,
            if_true,Bool.false_eq_true,if_false,Registry.get,Registry.insert,
            get_insert_self,some.injEq] at h hmarked <;>
          exact h ▸ hmarked
    · refine .kept ?_ (fun heq=>hid (Action.markReady.inj heq).symm) (by simp) (by simp)
      unfold Registry.markReady at h
      cases hget : s.registry.get handle with
      | none =>
        simp only [hget] at h
        exact h
      | some state =>
        simp only [hget] at h
        split at h <;> exact (get_insert_of_ne _ _ hid).symm.trans h
  | claimed | unclaimed =>
    cases claimFrom_entry h with
    | kept hget=>exact .kept hget (by simp) (by simp) (by simp)
    | skipped hget hbusy=>exact .skipped hget hbusy
    | claimed hget hrunning hengine hclaim=>exact .claimed hget hrunning hengine hclaim
  | @reported handle state engine outcome hget _ hnext =>
    subst hnext
    rcases insert_cases h with ⟨rfl,rfl⟩ | ⟨hid,h⟩
    · exact .reported hget
    · exact .kept h (by simp) (fun _ _ heq=>hid (Action.reportQuantum.inj heq).1.symm) (by simp)
  | @finished handle state outcome hget =>
    rcases insert_cases h with ⟨rfl,rfl⟩ | ⟨hid,h⟩
    · exact .finished hget
    · exact .kept h (by simp) (by simp) fun _ heq=>hid (Action.finishFromWorker.inj heq).1.symm
  | _=>exact .kept h (by simp) (by simp) (by simp)

end Session

end WindowsThreadpoolSys.FileEnumeration
