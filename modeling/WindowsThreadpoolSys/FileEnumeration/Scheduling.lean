import WindowsThreadpoolSys.FileEnumeration.Slots

/-! A registered enumeration that owes its terminal is run, is queued to run, is parked, or is about to
be scheduled or finished by a call under way. Each ready id has a callback that will claim it. A
parked enumeration has a record in the completion ring that a receive will take, or a receive under
way that will resume it: it parked when the ring had no room, and terminals never claim the whole
ring, so what filled it was a record. -/
namespace WindowsThreadpoolSys.FileEnumeration
open Library List Table

namespace Action

def settles (enumeration : EnumerationId) : Action → ℕ
  | .markReady k => if k = enumeration then 1 else 0
  | .finishFromWorker k _ => if k = enumeration then 1 else 0
  | _ => 0

def idles : Action → ℕ
  | .reportQuantum _ _ .idle => 1
  | _ => 0

def callbacks : Action → ℕ
  | .submitEngine | .claimNext => 1
  | _ => 0

def releases : Action → ℕ
  | .releaseHandle => 1
  | _ => 0

def takesWork : Action → ℕ
  | .takeWork => 1
  | _ => 0

end Action

namespace Session

variable {K : Config} {s s' : Session} {choice : Choice} {action : Action} {more : List Action}
  {outcome : QuantumOutcome} {state : EnumerationState} {ticks : List Tick}

/-! ## Entries -/

/-- A queued entry is in the ready queue, and an entry that is not running has its engine. -/
structure EntriesOk (s : Session) : Prop where
  queued : ∀ enumeration state, s.registry.get enumeration = some state → state.queued = true →
    enumeration ∈ s.registry.ready
  engine : ∀ enumeration state, s.registry.get enumeration = some state →
    state.running = true ∨ state.engine.isSome = true

theorem reportOutcome_fields (enumeration : EnumerationId) (state : EnumerationState)
    (hasRoom : Bool) (outcome : QuantumOutcome) :
    (reportOutcome enumeration state hasRoom outcome).1.engine=state.engine ∧
      (reportOutcome enumeration state hasRoom outcome).1.queued=state.queued ∧
      (reportOutcome enumeration state hasRoom outcome).1.running=state.running := by
  cases outcome with
  | finished outcome=>exact ⟨rfl,rfl,rfl⟩
  | idle | yielded =>
    simp only [reportOutcome]
    split <;> exact ⟨rfl,rfl,rfl⟩
  | parked =>
    simp only [reportOutcome]
    split
    · exact ⟨rfl,rfl,rfl⟩
    · split <;> exact ⟨rfl,rfl,rfl⟩

theorem claimFrom_queued {ready : List EnumerationId} {accepting : Bool}
    {entries : Table EnumerationId EnumerationState}
    (h : ∀ enumeration state,entries.get enumeration=some state → state.queued=true →
      enumeration ∈ ready) (enumeration : EnumerationId) (state : EnumerationState)
    (hget : (Registry.claimFrom entries accepting ready).1.entries.get enumeration=some state)
    (hqueued : state.queued=true) :
    enumeration ∈ (Registry.claimFrom entries accepting ready).1.ready := by
  induction ready generalizing entries with
  | nil=>exact h enumeration state hget hqueued
  | cons k rest ih =>
    -- Once the popped entry has lost its mark, the marked ones are in the rest.
    have hrest (v : EnumerationState) (hv : v.queued=false) (e : EnumerationId)
        (st : EnumerationState) (he : (entries.insert k v).get e=some st)
        (hst : st.queued=true) : e ∈ rest:=by
      by_cases hid : e=k
      · subst hid
        rw [get_insert_self] at he
        cases he
        rw [hv] at hst
        cases hst
      · rw [get_insert_of_ne _ _ hid] at he
        exact (mem_cons.mp (h e st he hst)).resolve_left hid
    generalize hresult : Registry.claimFrom entries accepting (k::rest)=result at hget ⊢
    rw [Registry.claimFrom] at hresult
    split at hresult
    · next hnone =>
      subst hresult
      refine ih (fun e st he hst=>?_) hget
      refine (mem_cons.mp (h e st he hst)).resolve_left ?_
      rintro rfl
      rw [hnone] at he
      cases he
    · split at hresult
      · subst hresult
        exact ih (hrest _ rfl) hget
      · split at hresult
        · subst hresult
          exact ih (hrest _ rfl) hget
        · subst hresult
          exact hrest _ rfl enumeration state hget hqueued

variable {enumeration : EnumerationId}

theorem perform_ready (hp : Performs K s choice action s' more)
    (hclaim : action ≠ .claimNext) (habandon : action ≠ .serviceAbandon)
    (h : enumeration ∈ s.registry.ready) : enumeration ∈ s'.registry.ready := by
  cases hp with
  | claimed | unclaimed=>exact absurd rfl hclaim
  | drained=>exact absurd rfl habandon
  | markReady handle =>
    show enumeration ∈ (s.registry.markReady handle).ready
    unfold Registry.markReady
    split
    · exact h
    · split
      · exact h
      · exact mem_append_left _ h
  | _=>exact h

theorem perform_entriesOk (h : EntriesOk s) (hp : Performs K s choice action s' more) :
    EntriesOk s' := by
  refine ⟨fun enumeration state hget hqueued=>?_,fun enumeration state hget=>?_⟩
  · by_cases hclaim : action=.claimNext
    · subst hclaim
      cases hp <;> exact claimFrom_queued h.queued enumeration state hget hqueued
    · by_cases habandon : action=.serviceAbandon
      · subst habandon
        cases hp
        cases hget
      · cases perform_entry hp hget with
        | kept hold _ _ _ | cancelled hold _ | finished hold=>exact perform_ready hp hclaim habandon (h.queued _ _ hold hqueued)
        | begun message hid haccepting=>cases hqueued
        | marked hold =>
          cases hp
          show enumeration ∈ (s.registry.markReady enumeration).ready
          unfold Registry.markReady
          simp only [hold]
          split
          · next state hbusy =>
            refine h.queued _ _ hold ?_
            rcases Bool.or_eq_true_iff.mp hbusy with hbusy | hbusy
            · exact hbusy
            · simpa [hbusy] using hqueued
          · exact mem_append_right _ (mem_singleton_self _)
        | claimed _ _ _ _ | skipped _ _=>exact absurd rfl hclaim
        | reported hold =>
          rw [(reportOutcome_fields _ _ _ _).2.1] at hqueued
          exact perform_ready hp hclaim habandon (h.queued _ _ hold hqueued)
  · cases perform_entry hp hget with
    | kept hold _ _ _=>exact h.engine _ _ hold
    | begun message hid haccepting=>exact .inr rfl
    | cancelled hold hrunning=>exact .inl hrunning
    | marked hold | skipped hold _ | finished hold =>
      have hengine:=h.engine _ _ hold
      exact hengine
    | claimed _ _ _ _=>exact .inl rfl
    | reported hold =>
      right
      rw [(reportOutcome_fields _ _ _ _).1]
      rfl

/-! ## Who sees to an enumeration -/

/-- An entry that owes its terminal is running, queued or parked, or calls carry its next step. -/
def Accounted (enumeration : EnumerationId) (s : Session) (carried : ℕ) : Prop :=
  ∀ state, s.registry.get enumeration = some state → state.terminal.isSome = true →
    state.running = true ∨ state.queued = true ∨ state.parked = true ∨ 0 < carried

theorem reportOutcome_settles (enumeration : EnumerationId) (state : EnumerationState)
    (hasRoom : Bool) (hidle : outcome ≠ .idle) :
    (reportOutcome enumeration state hasRoom outcome).1.parked=true ∨
      0 < weigh (Action.settles enumeration)
        (reportOutcome enumeration state hasRoom outcome).2 := by
  cases outcome with
  | idle=>exact absurd rfl hidle
  | finished outcome=>exact .inr (by simp [reportOutcome,Action.settles])
  | yielded =>
    right
    by_cases hcancelled : state.cancelled <;>
      simp [reportOutcome,hcancelled,schedule,Action.settles]
  | parked =>
    by_cases hcancelled : state.cancelled
    · exact .inr (by simp [reportOutcome,hcancelled,Action.settles])
    · cases hasRoom with
      | true=>exact .inr (by simp [reportOutcome,hcancelled,schedule,Action.settles])
      | false=>exact .inl (by simp [reportOutcome,hcancelled])

theorem Performs.reports {engine : EngineState}
    (hp : Performs K s choice (.reportQuantum enumeration engine outcome) s' more)
    (hget : s.registry.get enumeration=some state) : s'.completions=s.completions ∧ more =
      (reportOutcome enumeration { state with running := false,engine := some engine }
        (s.completions.hasDataRoom K.completionCapacity) outcome).2 := by
  cases hp with
  | reportMissing _ _ hnone =>
    rw [hnone] at hget
    cases hget
  | reported _ _ hget' hnext =>
    rw [hget] at hget'
    cases hget'
    exact ⟨rfl,congrArg Prod.snd hnext⟩

theorem settles_eq_zero (hmark : action ≠ .markReady enumeration)
    (hfinish : ∀ outcome,action ≠ .finishFromWorker enumeration outcome) :
    action.settles enumeration=0 := by
  cases action with
  | markReady k=>exact if_neg fun hk=>hmark (by rw [hk])
  | finishFromWorker k outcome=>exact if_neg fun hk=>hfinish outcome (by rw [hk])
  | _=>rfl

variable {m : ℕ}

theorem perform_accounted (hok : EntriesOk s)
    (h : Accounted enumeration s (action.settles enumeration+m)) (hidle : action.idles=0)
    (hp : Performs K s choice action s' more) :
    Accounted enumeration s' (weigh (Action.settles enumeration) more+m) := by
  intro state hget hterminal
  cases perform_entry hp hget with
  | kept hold hmark _ hfinish =>
    have hlight:=settles_eq_zero hmark hfinish
    rcases h state hold hterminal with hrunning | hqueued | hparked | hcarried
    · exact .inl hrunning
    · exact .inr (.inl hqueued)
    · exact .inr (.inr (.inl hparked))
    · refine .inr (.inr (.inr ?_))
      omega
  | begun message hid haccepting =>
    refine .inr (.inr (.inr ?_))
    cases hp with
    | begun =>
      simp only [schedule,weigh_cons,weigh_nil,Action.settles,if_pos hid]
      omega
    | turnedAway _ hclosed =>
      rw [haccepting] at hclosed
      cases hclosed
  | cancelled hold hrunning=>exact .inl hrunning
  | marked hold =>
    rename_i state
    by_cases hrunning : state.running=true
    · exact .inl hrunning
    · exact .inr (.inl (by simp [hrunning]))
  | claimed _ _ _ _=>exact .inl rfl
  | skipped hold hbusy =>
    rcases hbusy with hrunning | hnone
    · exact .inl hrunning
    · have hengine:=hok.engine _ _ hold
      rw [hnone] at hengine
      exact .inl (hengine.resolve_right (by simp))
  | reported hold =>
    rename_i state engine outcome
    have houtcome : outcome≠.idle:=by
      rintro rfl
      cases hidle
    obtain ⟨-,rfl⟩:=hp.reports hold
    rcases reportOutcome_settles enumeration { state with running:=false,engine:=some engine }
      (s.completions.hasDataRoom K.completionCapacity) houtcome with hparked | hcarried
    · exact .inr (.inr (.inl hparked))
    · exact .inr (.inr (.inr (by omega)))
  | finished hold=>cases hterminal

/-! ## Callbacks for the ready -/

def live (s : Session) : ℕ :=
  s.registry.ready.countP fun enumeration => (s.registry.entries.get enumeration).isSome

theorem claimFrom_live (ready : List EnumerationId) (accepting : Bool)
    (entries : Table EnumerationId EnumerationState) :
    ((Registry.claimFrom entries accepting ready).1.ready.countP fun enumeration =>
        ((Registry.claimFrom entries accepting ready).1.entries.get enumeration).isSome) ≤
      (ready.countP fun enumeration => (entries.get enumeration).isSome)-1 := by
  simp only [claimFrom_isSome]
  induction ready generalizing entries with
  | nil=>exact Nat.zero_le _
  | cons k rest ih =>
    rw [Registry.claimFrom,countP_cons]
    cases hget : entries.get k with
    | none =>
      simp only
      have hrest:=ih entries
      simpa using hrest
    | some state =>
      have hentry : (Registry.mk entries [] accepting).get k=some state:=hget
      have hsame (v : EnumerationState) (e : EnumerationId) :
          ((entries.insert k v).get e).isSome=(entries.get e).isSome :=
        isSome_insert hentry e
      simp only [Option.isSome_some,if_true,Nat.add_sub_cancel]
      split
      · have hrest:=ih (entries.insert k { state with queued:=false })
        simp only [hsame] at hrest
        exact hrest.trans (Nat.sub_le _ _)
      · split
        · have hrest:=ih (entries.insert k { state with queued:=false })
          simp only [hsame] at hrest
          exact hrest.trans (Nat.sub_le _ _)
        · exact le_rfl

theorem markReady_live (r : Registry) (k : EnumerationId) :
    ((r.markReady k).ready.countP fun enumeration =>
        ((r.markReady k).entries.get enumeration).isSome) ≤
      (r.ready.countP fun enumeration => (r.entries.get enumeration).isSome)+1 := by
  simp only [markReady_isSome]
  unfold Registry.markReady
  split
  · exact Nat.le_succ _
  · split
    · exact Nat.le_succ _
    · rw [countP_append]
      exact Nat.add_le_add_left countP_le_length _

theorem perform_idles (hchoice : choice ≠ .outcome .idle)
    (hp : Performs K s choice action s' more) : weigh Action.idles more=0 := by
  refine weigh_eq_zero fun a ha=>?_
  cases perform_more hp ha with
  | other hopens=>cases a <;> first | rfl | cases hopens
  | reporting houtcome =>
    rename_i outcome
    cases outcome with
    | idle=>exact absurd houtcome hchoice
    | _=>rfl
  | _=>rfl

theorem perform_live {n : ℕ} (hknown : Known s)
    (hnew : ∀ message,action=.serviceBegin message → message.enumeration ∉ s.registered)
    (hwork : s.work=true) (h : s.live ≤ s.engineDue+(action.callbacks+n))
    (hp : Performs K s choice action s' more) :
    s'.live ≤ s'.engineDue+(weigh Action.callbacks more+n) := by
  -- Removing or rewriting entries only loses live ids.
  have hlost (hready : s'.registry.ready=s.registry.ready)
      (hentries : ∀ enumeration ∈ s.registry.ready,
        (s'.registry.entries.get enumeration).isSome=true →
          (s.registry.entries.get enumeration).isSome=true)
      (hdue : s'.engineDue=s.engineDue) (hnone : action.callbacks=0) :
      s'.live ≤ s'.engineDue+(weigh Action.callbacks more+n):=by
    have hle : s'.live ≤ s.live:=by
      unfold live
      rw [hready]
      exact countP_mono_left hentries
    omega
  cases hp with
  | submitEngine =>
    simp only [if_pos hwork]
    show s.live ≤ s.engineDue+1+(0+n)
    simp only [Action.callbacks] at h
    omega
  | claimed | unclaimed =>
    have hclaim:=claimFrom_live s.registry.ready s.registry.accepting s.registry.entries
    have hle : live { s with registry:=s.registry.claimNext.1 } ≤ s.live-1:=hclaim
    simp only [Action.callbacks] at h
    show _ ≤ s.engineDue+_
    omega
  | markReady handle =>
    have hmark:=markReady_live s.registry handle
    have hle : live { s with registry:=s.registry.markReady handle } ≤ s.live+1:=hmark
    simp only [Action.callbacks,weigh_cons,weigh_nil] at h ⊢
    show _ ≤ s.engineDue+_
    omega
  | begun message =>
    refine hlost rfl (fun enumeration hready hentry=>?_) rfl rfl
    have hid : enumeration≠message.enumeration:=fun hid =>
      hnew message rfl (hid ▸ hknown.ready enumeration hready)
    simpa only [Registry.insert,get_insert_of_ne _ _ hid] using hentry
  | cancelled | retired=>exact hlost rfl (fun _ _=>isSome_of_remove) rfl rfl
  | cancelling hget | reported _ _ hget | finished _ hget =>
    exact hlost rfl (fun enumeration _ hentry=>isSome_insert hget enumeration ▸ hentry) rfl rfl
  | drained=>exact Nat.zero_le _
  | _=>exact hlost rfl (fun _ _ hentry=>hentry) rfl rfl

/-! ## Who holds the session -/

/-- The handle count is the session values, the receiver, and the releases under way; while the
receiver is held the pool objects are there. -/
structure HoldersOk (s : Session) (releases takes : ℕ) : Prop where
  handles : s.handles = s.sessions + s.receiver.toNat + releases
  work : s.receiver = true → s.work = true ∧ takes = 0

theorem perform_holdersOk {n : ℕ} (h : HoldersOk s (action.releases+m) (action.takesWork+n))
    (hp : Performs K s choice action s' more) :
    HoldersOk s' (weigh Action.releases more+m) (weigh Action.takesWork more+n) := by
  have hreleases : weigh Action.releases more=0:=by
    refine weigh_eq_zero fun a ha=>?_
    cases perform_more hp ha with
    | other hopens=>cases a <;> first | rfl | cases hopens
    | _=>rfl
  have htakes (hrelease : action≠.releaseHandle) : weigh Action.takesWork more=0:=by
    refine weigh_eq_zero fun a ha=>?_
    cases perform_more hp ha with
    | other hopens=>cases a <;> first | rfl | cases hopens
    | released=>exact absurd rfl hrelease
    | _=>rfl
  have hhandles:=h.handles
  rw [hreleases]
  cases hp with
  | acquireHandle =>
    simp only [Action.releases] at hhandles
    refine ⟨?_,h.work⟩
    simp only
    omega
  | releaseHandle =>
    simp only [Action.releases] at hhandles
    refine ⟨?_,fun hreceiver=>?_⟩
    · simp only
      omega
    · -- The receiver's own handle is counted beside this one.
      have hreceiver' : s.receiver=true:=hreceiver
      rw [hreceiver',Bool.toNat_true] at hhandles
      rw [if_neg (by omega)]
      exact h.work hreceiver
  | takeWork =>
    refine ⟨hhandles,fun hreceiver=>?_⟩
    have htaken:=(h.work hreceiver).2
    simp only [Action.takesWork] at htaken
    omega
  | _ =>
    rw [htakes (by simp)]
    exact ⟨hhandles,h.work⟩

/-! ## Parked entries -/

theorem reportOutcome_parked {hasRoom : Bool}
    (h : (reportOutcome enumeration state hasRoom outcome).1.parked=true) :
    state.parked=true ∨ hasRoom=false := by
  cases outcome with
  | finished outcome=>exact .inl h
  | idle | yielded =>
    simp only [reportOutcome] at h
    split at h <;> exact .inl h
  | parked =>
    simp only [reportOutcome] at h
    split at h
    · exact .inl h
    · split at h
      · exact .inl h
      · next hroom=>exact .inr (Bool.eq_false_iff.mpr hroom)

theorem perform_parked (hp : Performs K s choice action s' more)
    (hget : s'.registry.get enumeration=some state) (hparked : state.parked=true) :
    (∃ state,s.registry.get enumeration=some state ∧ state.parked=true ∧
      action ≠ .markReady enumeration) ∨ s'.completions=s.completions ∧
        s.completions.hasDataRoom K.completionCapacity=false := by
  cases perform_entry hp hget with
  | kept hold hmark _ _=>exact .inl ⟨_,hold,hparked,hmark⟩
  | begun message hid haccepting | cancelled hold hrunning | marked hold | claimed _ _ _ _=>cases hparked
  | skipped hold _ | finished hold=>exact .inl ⟨_,hold,hparked,(by simp)⟩
  | reported hold =>
    rcases reportOutcome_parked hparked with hbefore | hroom
    · exact .inl ⟨_,hold,hbefore,(by simp)⟩
    · right
      exact ⟨(hp.reports hold).1,hroom⟩

theorem tryTake_opens (hp : Performs K s choice action s' more) : .tryTake ∉ more := by
  intro hmem
  cases perform_more hp hmem with
  | other hopens=>cases hopens

theorem snapshotParked_follows (hp : Performs K s choice action s' more)
    (hmem : .snapshotParked ∈ more) : action=.tryTake := by
  cases perform_more hp hmem with
  | other hopens=>cases hopens
  | taken=>rfl

theorem tryTake_more (hrecord : s.completions.queue ≠ [])
    (hp : Performs K s choice .tryTake s' more) : more=[.snapshotParked] := by
  obtain ⟨record,rest,hqueue⟩:=exists_cons_of_ne_nil hrecord
  cases hp
  simp only [CompletionRing.tryTake,hqueue,Option.isSome_some,if_true]

/-- The snapshot names every parked enumeration, in whatever order. -/
theorem snapshotParked_marks (hget : s.registry.get enumeration=some state)
    (hparked : state.parked=true) (hp : Performs K s choice .snapshotParked s' more) :
    .markReady enumeration ∈ more := by
  cases hp with
  | snapshotParked horder =>
    refine mem_flatMap.mpr ⟨enumeration,horder.mem_iff.mpr ?_,mem_singleton_self _⟩
    refine Table.mem_keys.mpr ⟨state,?_⟩
    rw [get_filter]
    have hentry : s.registry.entries.get enumeration=some state:=hget
    rw [hentry]
    simp [hparked]

theorem CompletionsBalance.holds_record (h : CompletionsBalance K s m)
    (hroom : s.completions.hasDataRoom K.completionCapacity=false) : s.completions.queue ≠ [] := by
  intro hempty
  have hentry:=h.entryRoom
  simp only [CompletionRing.hasDataRoom,CompletionRing.dataRoom,hempty,length_nil,
    decide_eq_false_iff_not] at hroom
  omega

end Session

namespace System

variable {K : Config} {s s' : System}

def Resuming (enumeration : EnumerationId) (s : System) : Prop :=
  ∃ t ∈ s.tasks, t.call = .receive ∧ (.snapshotParked ∈ t.todo ∨ .markReady enumeration ∈ t.todo)

structure Scheduled (s : System) : Prop where
  entries : s.session.EntriesOk
  holders : s.session.HoldersOk (s.pending Action.releases) (s.pending Action.takesWork)
  live : s.session.receiver = true →
    s.session.live ≤ s.session.engineDue + s.pending Action.callbacks
  receives : ∀ t ∈ s.tasks, (.tryTake ∈ t.todo ∨ .snapshotParked ∈ t.todo) → t.call = .receive
  parked : ∀ enumeration state, s.session.registry.get enumeration = some state →
    state.parked = true → s.session.completions.queue ≠ [] ∨ s.Resuming enumeration

theorem new_scheduled : (new K).Scheduled := by
  refine ⟨⟨?_,?_⟩,⟨rfl,fun _=>⟨rfl,rfl⟩⟩,fun _=>Nat.zero_le _,?_,?_⟩
  · exact fun _ _ hget=>by cases hget
  · exact fun _ _ hget=>by cases hget
  · exact fun _ ht=>by cases ht
  · exact fun _ _ hget=>by cases hget

theorem Scheduled.enter (h : s.Scheduled) {session : Session} {call : Call} {todo : List Action}
    (hregistry : session.registry=s.session.registry)
    (hcompletions : session.completions=s.session.completions)
    (hholders : session.HoldersOk (weigh Action.releases todo+s.pending Action.releases)
      (weigh Action.takesWork todo+s.pending Action.takesWork))
    (hlive : session.receiver=true → s.session.receiver=true ∧
      s.session.engineDue ≤ session.engineDue+weigh Action.callbacks todo)
    (hreceives : (.tryTake ∈ todo ∨ .snapshotParked ∈ todo) → call=.receive) :
    (s.enter session call todo).Scheduled := by
  have hentries : session.EntriesOk:=by
    have hold:=h.entries
    refine ⟨?_,?_⟩ <;> rw [hregistry]
    · exact hold.queued
    · exact hold.engine
  refine ⟨hentries,?_,fun hreceiver=>?_,fun t ht=>?_,fun enumeration state hget hparked=>?_⟩
  · rw [pending_enter,pending_enter]
    exact hholders
  · obtain ⟨hreceiver,hdue⟩:=hlive hreceiver
    have hold:=h.live hreceiver
    rw [pending_enter]
    have hsame : session.live=s.session.live:=by
      unfold Session.live
      rw [hregistry]
    show session.live ≤ session.engineDue+_
    omega
  · rcases mem_cons.mp ht with rfl | ht
    · exact hreceives
    · exact h.receives t ht
  · have hget' : s.session.registry.get enumeration=some state:=hregistry ▸ hget
    rcases h.parked enumeration state hget' hparked with hrecord | ⟨t,ht,hcall,htodo⟩
    · exact .inl (show session.completions.queue≠[] by rwa [hcompletions])
    · exact .inr ⟨t,mem_cons_of_mem _ ht,hcall,htodo⟩

variable {choice : Choice} {task : Task}

theorem Acted.mem_after (acted : Acted K s task choice s') {a : Action}
    (ha : a ∈ acted.more++acted.rest) :
    ∃ t ∈ s'.tasks,t.call=task.call ∧ t.todo=acted.more++acted.rest := by
  have hne : acted.more++acted.rest≠[]:=ne_nil_of_mem ha
  have htasks:=acted.tasks
  rw [if_neg hne] at htasks
  refine ⟨⟨task.call,acted.more++acted.rest,
    task.ledger.shift s.session.counts s'.session.counts⟩,?_,rfl,rfl⟩
  rw [htasks]
  exact mem_cons_self

theorem Acted.mem_other {t : Task} (acted : Acted K s task choice s') (ht : t ∈ s.tasks)
    (hne : t ≠ task) : t ∈ s'.tasks := by
  have hmem:=(mem_erase_of_ne hne).mpr ht
  have htasks:=acted.tasks
  split at htasks
  · exact htasks ▸ hmem
  · exact htasks ▸ mem_cons_of_mem _ hmem

theorem Acted.of_mem {t : Task} (acted : Acted K s task choice s') (ht : t ∈ s'.tasks) :
    t ∈ s.tasks ∨ t.call=task.call ∧ t.todo=acted.more++acted.rest := by
  have htasks:=acted.tasks
  split at htasks
  · exact .inl (mem_of_mem_erase (htasks ▸ ht))
  · rcases mem_cons.mp (htasks ▸ ht) with rfl | ht
    · exact .inr ⟨rfl,rfl⟩
    · exact .inl (mem_of_mem_erase ht)

theorem Resuming.acted {enumeration : EnumerationId} (h : s.Resuming enumeration)
    (acted : Acted K s task choice s') (hget : s.session.registry.get enumeration=some state)
    (hparked : state.parked=true) (hmark : acted.action ≠ .markReady enumeration) :
    s'.Resuming enumeration := by
  obtain ⟨t,ht,hcall,htodo⟩:=h
  by_cases htask : t=task
  · subst htask
    rw [acted.todo] at htodo
    have hlater : (.snapshotParked ∈ acted.more++acted.rest ∨
        .markReady enumeration ∈ acted.more++acted.rest):=by
      rcases htodo with hsnapshot | hmarks
      · rcases mem_cons.mp hsnapshot with hhead | hrest
        · exact .inr (mem_append_left _
            (Session.snapshotParked_marks hget hparked (hhead ▸ acted.performed)))
        · exact .inl (mem_append_right _ hrest)
      · rcases mem_cons.mp hmarks with hhead | hrest
        · exact absurd hhead.symm hmark
        · exact .inr (mem_append_right _ hrest)
    rcases hlater with hlater | hlater
    · obtain ⟨t',ht',hcall',htodo'⟩:=acted.mem_after hlater
      exact ⟨t',ht',hcall'.trans hcall,.inl (htodo' ▸ hlater)⟩
    · obtain ⟨t',ht',hcall',htodo'⟩:=acted.mem_after hlater
      exact ⟨t',ht',hcall'.trans hcall,.inr (htodo' ▸ hlater)⟩
  · exact ⟨t,acted.mem_other ht htask,hcall,htodo⟩

theorem Scheduled.acted (h : s.Scheduled) (hbalanced : s.Balanced K)
    (acted : Acted K s task choice s') : s'.Scheduled := by
  have hframe:=Session.perform_frame acted.performed
  refine ⟨Session.perform_entriesOk h.entries acted.performed,?_,fun hreceiver=>?_,
    fun t ht hreceives=>?_,fun enumeration state hget hparked=>?_⟩
  · have hholders:=h.holders
    rw [acted.before,acted.before] at hholders
    rw [acted.after,acted.after]
    exact Session.perform_holdersOk hholders acted.performed
  · rw [hframe.receiver] at hreceiver
    have hlive:=h.live hreceiver
    rw [acted.before] at hlive
    rw [acted.after]
    refine Session.perform_live hbalanced.known (fun message hmessage=>?_)
      (h.holders.work hreceiver).1 hlive acted.performed
    have honce:=hbalanced.once message.enumeration
    rw [acted.before,hmessage] at honce
    exact Session.unregistered honce
  · rcases acted.of_mem ht with hold | ⟨hcall,htodo⟩
    · exact h.receives t hold hreceives
    · rw [hcall]
      refine h.receives task acted.mem ?_
      rw [acted.todo]
      rw [htodo] at hreceives
      rcases hreceives with hmem | hmem
      · rcases mem_append.mp hmem with hmem | hmem
        · exact absurd hmem (Session.tryTake_opens acted.performed)
        · exact .inl (mem_cons_of_mem _ hmem)
      · rcases mem_append.mp hmem with hmem | hmem
        · rw [Session.snapshotParked_follows acted.performed hmem]
          exact .inl mem_cons_self
        · exact .inr (mem_cons_of_mem _ hmem)
  · rcases Session.perform_parked acted.performed hget hparked with
      ⟨old,hold,hwas,hmark⟩ | ⟨hcompletions,hroom⟩
    · rcases h.parked enumeration old hold hwas with hrecord | hresuming
      · by_cases htake : acted.action=.tryTake
        · -- The receive that takes a record looks at the parked next.
          right
          have hperformed:=acted.performed
          rw [htake] at hperformed
          have hmore:=Session.tryTake_more hrecord hperformed
          have hmem : Action.snapshotParked ∈ acted.more++acted.rest:=by
            rw [hmore]
            exact mem_cons_self
          obtain ⟨t,ht,hcall,htodo⟩:=acted.mem_after hmem
          refine ⟨t,ht,hcall.trans (h.receives task acted.mem ?_),.inl (htodo ▸ hmem)⟩
          rw [acted.todo,htake]
          exact .inl mem_cons_self
        · exact .inl (hframe.records htake hrecord)
      · exact .inr (hresuming.acted acted hold hwas hmark)
    · left
      rw [hcompletions]
      exact hbalanced.completions.holds_record hroom

theorem Scheduled.step (h : s.Scheduled) (hbalanced : s.Balanced K) {event : Event}
    (hstep : s.step K event=some s') : s'.Scheduled := by
  have hhandles:=h.holders.handles
  have hwork:=h.holders.work
  cases event with
  | act task choice =>
    obtain ⟨acted⟩:=act_acted hstep
    exact h.acted hbalanced acted
  | begin captured =>
    simp only [System.step] at hstep
    split at hstep <;> cases hstep
    cases captured <;>
      exact h.enter rfl rfl ⟨by simpa [Action.releases] using hhandles,by
        simpa [Action.takesWork] using hwork⟩ (fun hreceiver=>⟨hreceiver,Nat.le_add_right _ _⟩)
        (by simp)
  | cloneSession | cancel enumeration | detach enumeration | runServicer | receive =>
    simp only [System.step] at hstep
    split at hstep <;> cases hstep
    exact h.enter rfl rfl ⟨by simpa [Action.releases] using hhandles,by
      simpa [Action.takesWork] using hwork⟩ (fun hreceiver=>⟨hreceiver,Nat.le_add_right _ _⟩)
      (by simp)
  | dropSession =>
    simp only [System.step] at hstep
    split at hstep <;> cases hstep
    next hheld =>
    refine h.enter rfl rfl ⟨?_,by simpa [Action.takesWork] using hwork⟩
      (fun hreceiver=>⟨hreceiver,Nat.le_add_right _ _⟩) (by simp)
    simp only [weigh_cons,weigh_nil,Action.releases]
    omega
  | dropReceiver =>
    simp only [System.step] at hstep
    split at hstep <;> cases hstep
    next hheld =>
    rw [Bool.and_eq_true] at hheld
    refine h.enter rfl rfl ⟨?_,(by simp)⟩ (by simp) (by simp)
    rw [hheld.1] at hhandles
    simp only [weigh_cons,weigh_nil,Action.releases,Bool.toNat_true,Bool.toNat_false] at hhandles ⊢
    omega
  | runEngine =>
    simp only [System.step] at hstep
    split at hstep <;> cases hstep
    refine h.enter rfl rfl ⟨by simpa [Action.releases] using hhandles,by
      simpa [Action.takesWork] using hwork⟩ (fun hreceiver=>⟨hreceiver,?_⟩) (by simp)
    simp only [weigh_cons,weigh_nil,Action.callbacks]
    omega

/-- Every entry is seen to, as long as no quantum has ended idle. -/
structure SeenTo (s : System) : Prop where
  idle : s.pending Action.idles = 0
  accounted : ∀ enumeration,
    s.session.Accounted enumeration (s.pending (Action.settles enumeration))

theorem SeenTo.enter (h : s.SeenTo) {session : Session} {call : Call} {todo : List Action}
    (hregistry : session.registry=s.session.registry) (hidle : weigh Action.idles todo=0) :
    (s.enter session call todo).SeenTo := by
  refine ⟨?_,fun enumeration state hget hterminal=>?_⟩
  · rw [pending_enter,hidle,Nat.zero_add]
    exact h.idle
  · have hget' : s.session.registry.get enumeration=some state:=hregistry ▸ hget
    rw [pending_enter]
    rcases h.accounted enumeration state hget' hterminal with hrunning | hqueued | hparked | hcarried
    · exact .inl hrunning
    · exact .inr (.inl hqueued)
    · exact .inr (.inr (.inl hparked))
    · exact .inr (.inr (.inr (Nat.add_pos_right _ hcarried)))

end System

/-- No quantum ends idle in this tick, as none of the engine's does outside its tests. -/
def Tick.notIdle (t : Tick) : Bool :=
  match t.event with
  | .act _ (.outcome .idle) => false
  | _ => true

theorem System.SeenTo.acted {K : Config} {s s' : System} {task : Task} {choice : Choice}
    (h : s.SeenTo) (hentries : s.session.EntriesOk) (acted : System.Acted K s task choice s')
    (hchoice : choice ≠ .outcome .idle) : s'.SeenTo := by
  have hidle:=h.idle
  rw [acted.before,Nat.add_eq_zero_iff] at hidle
  refine ⟨?_,fun enumeration=>?_⟩
  · rw [acted.after,hidle.2,Nat.add_zero]
    exact Session.perform_idles hchoice acted.performed
  · have haccounted:=h.accounted enumeration
    rw [acted.before] at haccounted
    rw [acted.after]
    exact Session.perform_accounted hentries haccounted hidle.1 acted.performed

theorem Run.scheduled {K : Config} {s : System} (run : Run K ticks s) : s.Scheduled := by
  induction run with
  | start hinit=>exact hinit ▸ System.new_scheduled
  | next run event hstep ih=>exact ih.step (Run.balanced run) hstep

theorem Run.seenTo {K : Config} {s : System} (run : Run K ticks s)
    (hbusy : ∀ t ∈ ticks,t.notIdle=true) : s.SeenTo := by
  induction run with
  | start hinit =>
    subst hinit
    exact ⟨rfl,fun _ _ hget=>by cases hget⟩
  | @next _ s s' run event hstep ih =>
    replace hstep : s.step K event=some s':=hstep
    have hseen:=ih fun t ht=>hbusy t (mem_cons_of_mem _ ht)
    cases event with
    | act task choice =>
      obtain ⟨acted⟩:=System.act_acted hstep
      refine hseen.acted (Run.scheduled run).entries acted ?_
      rintro rfl
      have hhead:=hbusy _ mem_cons_self
      cases hhead
    | begin captured =>
      simp only [System.step] at hstep
      split at hstep <;> cases hstep
      cases captured <;> exact hseen.enter rfl rfl
    | _ =>
      simp only [System.step] at hstep
      split at hstep <;> cases hstep
      exact hseen.enter rfl rfl

/-- An enumeration that owes its terminal is running, ready or parked, or a call under way is about
to see to it; the ready ones have callbacks, and a parked one has a record to be received. -/
theorem no_enumeration_forgotten {K : Config} {s : System} (run : Run K ticks s)
    (hreceiver : s.session.receiver = true) (hbusy : ∀ t ∈ ticks, t.notIdle = true) :
    (∀ enumeration state, s.session.registry.get enumeration = some state →
      state.terminal.isSome = true → state.running = true ∨
        enumeration ∈ s.session.registry.ready ∨ state.parked = true ∨
        0 < s.pending (Action.settles enumeration)) ∧
    s.session.live ≤ s.session.engineDue + s.pending Action.callbacks ∧
    (∀ enumeration state, s.session.registry.get enumeration = some state →
      state.parked = true → s.session.completions.queue ≠ [] ∨ s.Resuming enumeration) ∧
    (s.receiving = false → ∀ enumeration state,
      s.session.registry.get enumeration = some state → state.parked = true →
      s.session.completions.queue ≠ []) := by
  have h:=run.scheduled
  refine ⟨fun enumeration state hget hterminal=>?_,h.live hreceiver,h.parked,
    fun hreceiving enumeration state hget hparked=>?_⟩
  · rcases (run.seenTo hbusy).accounted enumeration state hget hterminal with
      hrunning | hqueued | hparked | hcarried
    · exact .inl hrunning
    · exact .inr (.inl (h.entries.queued enumeration state hget hqueued))
    · exact .inr (.inr (.inl hparked))
    · exact .inr (.inr (.inr hcarried))
  · refine (h.parked enumeration state hget hparked).resolve_right ?_
    rintro ⟨t,ht,hcall, -⟩
    rw [System.receiving,any_eq_false] at hreceiving
    exact hreceiving t ht (decide_eq_true hcall)

def registering : List Move :=
  [.enter (.begin true)] ++ List.replicate 8 (.next 0 .go) ++
    [.enter .runServicer] ++ List.replicate 2 (.next 0 .go)

def parking : List Move :=
  registering ++ List.replicate 3 (.next 0 .go) ++
    [.enter .runEngine, .next 0 .go, .next 0 .send, .next 0 .send, .next 0 (.outcome .parked),
      .next 0 .go]

theorem no_enumeration_forgotten_parked : ∃ ticks s, Run oneTerminal ticks s ∧
    s.session.receiver = true ∧ (∀ t ∈ ticks, t.notIdle = true) ∧
    (∃ state, s.session.registry.get 1 = some state ∧ state.parked = true) ∧
    s.session.completions.queue ≠ [] := by
  obtain ⟨ticks,s,run,hcheck⟩:=oneTerminal_run.play (System.read _) named_allows parking
    (fun (ticks : List Tick) s=>decide (s.session.receiver=true ∧ (∀ t ∈ ticks,t.notIdle=true) ∧
      s.receiving=false ∧ (s.session.registry.get 1).any (·.parked)=true)) (by decide +kernel)
  obtain ⟨hreceiver,hbusy,hreceiving,hparked⟩:=of_decide_eq_true hcheck
  obtain ⟨state,hget,hparked⟩:=(Option.any_eq_true _ _).mp hparked
  obtain ⟨-, -, -,hrecord⟩:=no_enumeration_forgotten run hreceiver hbusy
  exact ⟨ticks,s,run,hreceiver,hbusy,⟨state,hget,hparked⟩,hrecord hreceiving 1 state hget hparked⟩

/-- Between its registration and its first marking an enumeration is not running, ready or
parked. -/
theorem registered_not_ready : ∃ ticks s, Run oneTerminal ticks s ∧
    s.session.receiver = true ∧ (∀ t ∈ ticks, t.notIdle = true) ∧ s.receiving = false ∧
    ∃ state, s.session.registry.get 1 = some state ∧ state.terminal.isSome = true ∧
      ¬(state.running = true ∨ 1 ∈ s.session.registry.ready ∨ state.parked = true) := by
  obtain ⟨ticks,s,run,hcheck⟩:=oneTerminal_run.play (System.read _) named_allows registering
    (fun (ticks : List Tick) s=>decide (s.session.receiver=true ∧ (∀ t ∈ ticks,t.notIdle=true) ∧
      s.receiving=false ∧ (s.session.registry.get 1).any (fun state=>decide
        (state.terminal.isSome=true ∧ ¬(state.running=true ∨
          1 ∈ s.session.registry.ready ∨ state.parked=true)))=true)) (by decide +kernel)
  obtain ⟨hreceiver,hbusy,hreceiving,hentry⟩:=of_decide_eq_true hcheck
  obtain ⟨state,hget,hstate⟩:=(Option.any_eq_true _ _).mp hentry
  exact ⟨ticks,s,run,hreceiver,hbusy,hreceiving,state,hget,of_decide_eq_true hstate⟩

/-- An enumeration is queued, carried by a call or registered, once; the handles are counted exactly; and
an entry at rest has its engine. -/
theorem registered_once {K : Config} {s : System} (run : Run K ticks s) :
    (∀ enumeration, s.session.RegisteredOnce enumeration (s.pending (Action.begins enumeration))) ∧
      s.session.Known ∧ s.session.EntriesOk ∧
      s.session.HoldersOk (s.pending Action.releases) (s.pending Action.takesWork) :=
  ⟨run.balanced.once, run.balanced.known, run.scheduled.entries, run.scheduled.holders⟩

theorem registered_once_parked : ∃ ticks s, Run oneTerminal ticks s ∧ s.session.registered = [1] ∧
    s.session.RegisteredOnce 1 (s.pending (Action.begins 1)) := by
  obtain ⟨ticks,s,run,hcheck⟩:=oneTerminal_run.play (System.read _) named_allows parking
    (fun _ s=>decide (s.session.registered=[1])) (by decide +kernel)
  exact ⟨ticks,s,run,of_decide_eq_true hcheck,(registered_once run).1 1⟩

end WindowsThreadpoolSys.FileEnumeration
