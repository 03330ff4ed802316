import WindowsThreadpoolSys.FileEnumeration.Sections

/-! The balance of each section is lifted to runs. An enumeration's id is registered at most once, so
that an insertion never replaces an entry and loses its slots. A begin keeps a ledger of what it
has changed in the rings: as long as it is not accepted it has changed them by the slots it still
carries, so a refused begin has changed nothing. -/
namespace WindowsThreadpoolSys.FileEnumeration
open Library List

/-! ## Ids are registered once -/

def Action.begins (enumeration : EnumerationId) : Action → ℕ
  | .allocate terminal | .tryPush terminal => if terminal.enumeration = enumeration then 1 else 0
  | .serviceBegin message => if message.enumeration = enumeration then 1 else 0
  | _ => 0

def ControlMessage.begins (enumeration : EnumerationId) : ControlMessage → Bool
  | .begin message => decide (message.enumeration = enumeration)
  | _ => false

namespace Session

def places (enumeration : EnumerationId) (s : Session) : ℕ :=
  s.submissions.queue.countP (ControlMessage.begins enumeration) +
    if enumeration ∈ s.registered then 1 else 0

/-- An enumeration is in one place at most, and in none before its id is given out. -/
def RegisteredOnce (enumeration : EnumerationId) (s : Session) (carried : ℕ) : Prop :=
  s.places enumeration + carried ≤ if enumeration < s.nextId then 1 else 0

namespace RegisteredOnce

variable {enumeration : EnumerationId} {s s' : Session} {m m' : ℕ}

theorem of_le (h : RegisteredOnce enumeration s m) (hnext : s.nextId ≤ s'.nextId)
    (hle : s'.places enumeration+m' ≤ s.places enumeration+m) :
    RegisteredOnce enumeration s' m' := by
  have hbound : (if enumeration < s.nextId then 1 else 0) ≤
      if enumeration < s'.nextId then 1 else 0:=by
    by_cases hgiven : enumeration < s.nextId
    · rw [if_pos hgiven,if_pos (lt_of_lt_of_le hgiven hnext)]
    · rw [if_neg hgiven]
      exact Nat.zero_le _
  exact (hle.trans h).trans hbound

theorem of_same (h : RegisteredOnce enumeration s m) (hnext : s'.nextId=s.nextId)
    (hqueue : s'.submissions.queue=s.submissions.queue)
    (hregistered : s'.registered=s.registered) (hm : m' ≤ m) :
    RegisteredOnce enumeration s' m' := by
  refine h.of_le hnext.ge ?_
  simp only [places,hqueue,hregistered]
  omega

theorem of_queued (h : RegisteredOnce enumeration s m) {message : ControlMessage}
    (hqueue : s'.submissions.queue=s.submissions.queue++[message])
    (hmessage : message.begins enumeration=false) (hnext : s'.nextId=s.nextId)
    (hregistered : s'.registered=s.registered) (hm : m' ≤ m) :
    RegisteredOnce enumeration s' m' := by
  refine h.of_le hnext.ge ?_
  simp only [places,hqueue,hregistered,countP_append,countP_singleton,hmessage]
  simp
  omega

end RegisteredOnce

theorem begins_retireState (enumeration : EnumerationId) (state : EnumerationState)
    (outcome : Option TerminalOutcome) :
    weigh (Action.begins enumeration) (retireState state outcome)=0 := by
  refine weigh_eq_zero fun a ha=>?_
  rcases mem_retireState ha with rfl | ⟨terminal,outcome,rfl⟩ | ⟨terminal,rfl⟩ <;> rfl

variable {K : Config} {s s' : Session} {choice : Choice} {action : Action} {more : List Action}

theorem perform_once {enumeration : EnumerationId} {m : ℕ}
    (h : RegisteredOnce enumeration s (action.begins enumeration+m))
    (hp : Performs K s choice action s' more) :
    RegisteredOnce enumeration s' (weigh (Action.begins enumeration) more+m) := by
  cases hp with
  | abandoned | accepting | noCancel | noRetire | allocated | refused | unsent | ended=>exact h
  | unallocated | rejected=>exact h.of_le le_rfl (by simp [Action.begins])
  | noTerminal=>exact h.of_le (Nat.le_succ _) le_rfl
  | reserveTerminal =>
    -- The id given out was in no place before.
    unfold RegisteredOnce at h ⊢
    simp only [places,Action.begins,weigh_cons,weigh_nil] at h ⊢
    rcases lt_trichotomy enumeration s.nextId with hold | rfl | hunborn
    · rw [if_pos hold] at h
      rw [if_pos (Nat.lt_succ_of_lt hold),if_neg hold.ne']
      omega
    · rw [if_neg (lt_irrefl _)] at h
      rw [if_pos (Nat.lt_succ_self _),if_pos rfl]
      omega
    · rw [if_neg hunborn.not_gt] at h
      rw [if_neg hunborn.ne]
      exact (le_of_eq (by omega)).trans (h.trans (Nat.zero_le _))
  | pushed =>
    refine h.of_le le_rfl ?_
    simp only [places,SubmissionRing.enqueue,countP_append,countP_singleton,
      ControlMessage.begins,beginMessage,weigh_append,weigh_ringIf (w:=Action.begins _) rfl,
      weigh_cons,weigh_nil,Action.begins,decide_eq_true_eq]
    omega
  | pushCancel | pushRetire | pushAbandon =>
    rw [weigh_ringIf rfl]
    exact h.of_queued rfl rfl rfl rfl le_rfl
  | takeForService =>
    refine h.of_le le_rfl ?_
    unfold SubmissionRing.takeForService places
    cases hqueue : s.submissions.queue with
    | nil=>simp [service,Action.begins]
    | cons message rest =>
      rw [countP_cons]
      cases message <;> simp [service,Action.begins,ControlMessage.begins]
      omega
  | begun message =>
    refine h.of_le le_rfl ?_
    simp only [places,mem_cons,schedule,weigh_cons,weigh_nil,Action.begins]
    by_cases hid : enumeration=message.enumeration
    · simp [hid]
      omega
    · simp [hid,Ne.symm hid]
  | turnedAway =>
    rw [begins_retireState]
    exact h.of_le le_rfl (by omega)
  | cancelled | retired =>
    rw [begins_retireState]
    exact h.of_same rfl rfl rfl le_rfl
  | drained =>
    rw [weigh_eq_zero fun a ha=>?_]
    · exact h.of_same rfl rfl rfl le_rfl
    · obtain ⟨k,state, -,ha⟩:=mem_retireAll ha
      rcases mem_retireState ha with rfl | ⟨terminal,outcome,rfl⟩ | ⟨terminal,rfl⟩ <;> rfl
  | tryTake | releaseHandle =>
    refine h.of_same rfl rfl rfl ?_
    split <;> exact le_rfl
  | @reported handle state engine outcome _ _ hnext =>
    subst hnext
    rw [(reportOutcome_slots handle { state with running:=false,engine:=some engine }
      (s.completions.hasDataRoom K.completionCapacity) outcome).2 (Action.begins enumeration)
        (fun _=>rfl) rfl]
    exact h.of_same rfl rfl rfl le_rfl
  | @finished _ state =>
    refine h.of_same rfl rfl rfl ?_
    unfold closing
    cases state.terminal <;> cases state.retire <;> exact le_rfl
  | snapshotParked =>
    rw [weigh_schedules fun _=>rfl]
    exact h
  | _=>exact h.of_same rfl rfl rfl le_rfl

structure Known (s : Session) : Prop where
  entries : ∀ enumeration, (s.registry.entries.get enumeration).isSome →
    enumeration ∈ s.registered
  ready : ∀ enumeration ∈ s.registry.ready, enumeration ∈ s.registered

theorem unregistered {message : BeginMessage} {m : ℕ}
    (h : RegisteredOnce message.enumeration s
      ((Action.serviceBegin message).begins message.enumeration+m)) :
    message.enumeration ∉ s.registered := by
  have hle : s.places message.enumeration+(1+m)≤1:=by
    refine le_trans ?_ (h.trans (by split_ifs <;> decide))
    simp only [Action.begins,if_true]
    exact le_rfl
  intro hmem
  simp only [places,if_pos hmem] at hle
  omega

namespace Known

theorem of_sub (h : Known s) (hregistered : s'.registered=s.registered)
    (hentries : ∀ enumeration,(s'.registry.entries.get enumeration).isSome →
      (s.registry.entries.get enumeration).isSome)
    (hready : ∀ enumeration ∈ s'.registry.ready,enumeration ∈ s.registry.ready ∨
      (s.registry.entries.get enumeration).isSome) : Known s' := by
  refine ⟨fun enumeration hentry=>?_,fun enumeration hmem=>?_⟩
  · rw [hregistered]
    exact h.entries enumeration (hentries enumeration hentry)
  · rw [hregistered]
    rcases hready enumeration hmem with hold | hentry
    · exact h.ready enumeration hold
    · exact h.entries enumeration hentry

theorem of_registry (h : Known s) (hregistered : s'.registered=s.registered)
    (hregistry : s'.registry=s.registry) : Known s' := by
  refine h.of_sub hregistered ?_ ?_ <;> rw [hregistry]
  · exact fun _ hentry=>hentry
  · exact fun _ hmem=>.inl hmem

end Known

theorem perform_known (h : Known s) (hp : Performs K s choice action s' more) : Known s' := by
  cases hp with
  | begun message =>
    refine ⟨fun enumeration hentry=>?_,fun enumeration hmem=>?_⟩
    · by_cases hid : enumeration=message.enumeration
      · rw [hid]
        exact mem_cons_self
      · simp only [Registry.insert,Table.get_insert_of_ne _ _ hid] at hentry
        exact mem_cons_of_mem _ (h.entries enumeration hentry)
    · exact mem_cons_of_mem _ (h.ready enumeration hmem)
  | cancelled | retired=>exact h.of_sub rfl (fun _=>isSome_of_remove) fun _ hmem=>.inl hmem
  | cancelling hget | reported _ _ hget | finished _ hget =>
    exact h.of_sub rfl (fun enumeration hentry=>isSome_insert hget enumeration ▸ hentry)
      fun _ hmem=>.inl hmem
  | drained =>
    refine h.of_sub rfl (fun _ hentry=>?_) fun _ hmem=>?_
    · cases hentry
    · cases hmem
  | markReady handle =>
    exact h.of_sub rfl (fun enumeration hentry=>markReady_isSome _ _ enumeration ▸ hentry)
      fun _=>markReady_ready
  | claimed | unclaimed =>
    exact h.of_sub rfl (fun enumeration hentry=>claimFrom_isSome _ _ _ enumeration ▸ hentry)
      fun _ hmem=>.inl (claimFrom_ready hmem)
  | _=>exact h.of_registry rfl rfl

end Session

namespace System

structure Balanced (K : Config) (s : System) : Prop where
  submissions : s.session.SubmissionsBalance K (s.pending Action.slots)
  completions : s.session.CompletionsBalance K (s.pending Action.terminals)
  once : ∀ enumeration, s.session.RegisteredOnce enumeration (s.pending (Action.begins enumeration))
  known : s.session.Known

variable {K : Config} {s s' : System}

theorem new_balanced : (new K).Balanced K := by
  have hsubmission:=K.submission_min
  have hcompletion:=K.completion_min
  have hring : (Session.new K).submissions={ SubmissionRing.new with reserved:=1 }:=by
    have hfree : SubmissionRing.new.free K.submissionCapacity≠0:=by
      simp only [SubmissionRing.free,SubmissionRing.new,length_nil]
      omega
    simp only [Session.new,SubmissionRing.reserveAbandon,SubmissionRing.reserve,if_neg hfree]
    rfl
  refine ⟨⟨?_,?_⟩,⟨?_,rfl,?_,?_⟩,fun enumeration=>?_,⟨?_,?_⟩⟩
  · show (Session.new K).submissions.reserved=_
    simp only [Session.submissionSlots,new,hring]
    rfl
  · show (Session.new K).submissions.queue.length+(Session.new K).submissions.reserved≤_
    rw [hring]
    exact (by decide : 0+1≤4).trans hsubmission
  · simp only [Session.terminalSlots,new,hring]
    rfl
  · exact Nat.zero_le _
  · exact lt_of_lt_of_le Nat.zero_lt_two hcompletion
  · show (Session.new K).places enumeration+0≤_
    simp only [Session.places,hring]
    exact Nat.zero_le _
  · exact fun _ hentry=>by cases hentry
  · exact fun _ hmem=>by cases hmem

theorem Balanced.enter (h : s.Balanced K) {session : Session} {call : Call} {todo : List Action}
    (hring : session.submissions=s.session.submissions)
    (hcompletions : session.completions=s.session.completions)
    (hregistry : session.registry=s.session.registry) (hnext : session.nextId=s.session.nextId)
    (hregistered : session.registered=s.session.registered)
    (hslots : session.submissionSlots+weigh Action.slots todo=s.session.submissionSlots)
    (hterminals : weigh Action.terminals todo=0)
    (hbegins : ∀ enumeration,weigh (Action.begins enumeration) todo=0) :
    (s.enter session call todo).Balanced K := by
  refine ⟨?_,?_,fun enumeration=>?_,h.known.of_registry hregistered hregistry⟩
  · rw [pending_enter]
    refine h.submissions.of_moved hring ?_
    show session.submissionSlots+_=_
    omega
  · rw [pending_enter,hterminals,Nat.zero_add]
    refine h.completions.of_moved hcompletions ?_
    show session.terminalSlots+_=_
    simp only [Session.terminalSlots,hring,hregistry]
  · rw [pending_enter,hbegins,Nat.zero_add]
    exact (h.once enumeration).of_same hnext (congrArg SubmissionRing.queue hring) hregistered le_rfl

theorem Balanced.step (h : s.Balanced K) {event : Event} (hstep : s.step K event=some s') :
    s'.Balanced K := by
  cases event with
  | begin captured =>
    simp only [System.step] at hstep
    split at hstep <;> cases hstep
    cases captured <;> exact h.enter rfl rfl rfl rfl rfl rfl rfl fun _=>rfl
  | cloneSession | dropSession | receive | runServicer | runEngine =>
    simp only [System.step] at hstep
    split at hstep <;> cases hstep
    exact h.enter rfl rfl rfl rfl rfl rfl rfl fun _=>rfl
  | cancel enumeration | detach enumeration =>
    simp only [System.step] at hstep
    split at hstep <;> cases hstep
    next hmem =>
    refine h.enter rfl rfl rfl rfl rfl ?_ rfl fun _=>rfl
    have hlength:=length_erase_add_one hmem
    simp only [Session.submissionSlots,weigh_cons,weigh_nil,Action.slots]
    omega
  | dropReceiver =>
    simp only [System.step] at hstep
    split at hstep <;> cases hstep
    next hreceiver =>
    refine h.enter rfl rfl rfl rfl rfl ?_ rfl fun _=>rfl
    rw [Bool.and_eq_true] at hreceiver
    simp only [Session.submissionSlots,weigh_cons,weigh_nil,Action.slots,hreceiver.1]
    rfl
  | act task choice =>
    obtain ⟨acted⟩:=act_acted hstep
    have hsubmissions:=h.submissions
    have hcompletions:=h.completions
    rw [acted.before] at hsubmissions hcompletions
    have honce (enumeration : EnumerationId):=h.once enumeration
    simp only [acted.before] at honce
    have hnew (message : BeginMessage) (hmessage : acted.action=.serviceBegin message) :
        s.session.registry.get message.enumeration=none:=by
      have hunregistered:=Session.unregistered (hmessage ▸ honce message.enumeration)
      by_contra hsome
      exact hunregistered (h.known.entries _ (Option.isSome_iff_ne_none.mpr hsome))
    refine ⟨?_,?_,fun enumeration=>?_,Session.perform_known h.known acted.performed⟩
    · rw [acted.after]
      exact Session.perform_submissions hsubmissions hnew acted.performed
    · rw [acted.after]
      exact Session.perform_completions hcompletions hnew acted.performed
    · rw [acted.after]
      exact Session.perform_once (honce enumeration) acted.performed

end System

variable {K : Config}

theorem Run.balanced {ticks : List Tick} {s : System} (run : Run K ticks s) : s.Balanced K := by
  induction run with
  | start hinit=>exact hinit ▸ System.new_balanced
  | next run event hstep ih=>exact ih.step hstep

/-! ## What a begin has changed -/

namespace Action

def decides : Action → Bool
  | .checkAbandoned | .reserveCancel | .reserveRetire | .reserveTerminal | .allocate _
  | .tryPush _ => true
  | _ => false

def givesBack : Action → Bool
  | .releaseCancel | .releaseRetire | .dropTerminal _ | .refused _ => true
  | _ => false

def accepts : Action → Bool
  | .ringServicer | .returnHandle _ => true
  | _ => false

end Action

/-- A section that changes the rings' counts by the slots its call gains or gives up. -/
structure Session.Claims (s s' : Session) (action : Action) (more : List Action) : Prop where
  messages : s'.submissions.queue = s.submissions.queue
  slots : s'.submissions.reserved + action.slots = s.submissions.reserved + weigh Action.slots more
  records : s'.completions.queue = s.completions.queue
  terminals : s'.completions.reserved + action.terminals =
    s.completions.reserved + weigh Action.terminals more
  active : s'.completions.active + action.terminals =
    s.completions.active + weigh Action.terminals more

variable {action : Action} {s s' : Session} {more : List Action}

theorem Session.Claims.unchanged (hsubmissions : s'.submissions=s.submissions) (hcompletions : s'.completions=s.completions)
    (hslots : action.slots=weigh Action.slots more)
    (hterminals : action.terminals=weigh Action.terminals more) :
    Session.Claims s s' action more := by
  refine ⟨?_,?_,?_,?_,?_⟩ <;> simp only [hsubmissions,hcompletions,hslots,hterminals]

variable {choice : Choice}

theorem Session.perform_decides (hdecides : action.decides=true)
    (hp : Performs K s choice action s' more) :
    (∀ a ∈ more,a.accepts=true) ∨ Session.Claims s s' action more ∧
      ((∃ next,more=[next] ∧ next.decides=true) ∨ ∀ a ∈ more,a.givesBack=true) := by
  cases hp with
  | abandoned | noCancel | noRetire | noTerminal | unallocated | rejected =>
    exact .inr ⟨.unchanged rfl rfl rfl rfl,.inr (by simp [Action.givesBack])⟩
  | accepting | allocated=>exact .inr ⟨.unchanged rfl rfl rfl rfl,.inl ⟨_,rfl,rfl⟩⟩
  | reserveCancel | reserveRetire | reserveTerminal =>
    exact .inr ⟨⟨rfl,rfl,rfl,rfl,rfl⟩,.inl ⟨_,rfl,rfl⟩⟩
  | pushed =>
    left
    cases s.submissions.claimDrain <;> simp [ringIf,Action.accepts]
  | _=>cases hdecides

theorem Session.perform_givesBack {m n : ℕ} (hback : action.givesBack=true)
    (hsubmissions : s.SubmissionsBalance K (action.slots+m))
    (hcompletions : s.CompletionsBalance K (action.terminals+n))
    (hp : Performs K s choice action s' more) : more=[] ∧ Session.Claims s s' action more := by
  have hslots:=hsubmissions.slots
  have hterminals:=hcompletions.slots
  have hactive:=hcompletions.active
  cases hp with
  | refused=>exact ⟨rfl,.unchanged rfl rfl rfl rfl⟩
  | releaseCancel | releaseRetire =>
    simp only [Action.slots] at hslots
    refine ⟨rfl,rfl,?_,rfl,rfl,rfl⟩
    simp only [SubmissionRing.releaseReservation,Action.slots,weigh_nil]
    omega
  | dropTerminal =>
    simp only [Action.terminals] at hterminals
    refine ⟨rfl,rfl,rfl,rfl,?_,?_⟩ <;>
      simp only [CompletionRing.releaseReservation,Action.terminals,weigh_nil] <;> omega
  | _=>cases hback

theorem Session.perform_accepts (haccepts : action.accepts=true)
    (hp : Performs K s choice action s' more) : more=[] := by
  cases hp with
  | ringServicer | returnHandle=>rfl
  | _=>cases haccepts

/-- A begin that may still be refused has changed the counts by what it carries. -/
structure Task.Unaccepted (t : Task) : Prop where
  shape : (∃ a, t.todo = [a] ∧ a.decides = true) ∨ ∀ a ∈ t.todo, a.givesBack = true
  ledger : t.ledger = ⟨0, weigh Action.slots t.todo, 0, weigh Action.terminals t.todo,
    weigh Action.terminals t.todo⟩

def Task.BeginOk (t : Task) : Prop :=
  t.call = .begin → t.Unaccepted ∨ ∀ a ∈ t.todo, a.accepts = true

theorem Session.Claims.ledger {more rest : List Action} (h : Session.Claims s s' action more) :
    Counts.shift ⟨0,weigh Action.slots (action::rest),0,weigh Action.terminals (action::rest),
      weigh Action.terminals (action::rest)⟩ s.counts s'.counts =
    ⟨0,weigh Action.slots (more++rest),0,weigh Action.terminals (more++rest),
      weigh Action.terminals (more++rest)⟩ := by
  have hslots:=h.slots
  have hterminals:=h.terminals
  have hactive:=h.active
  simp only [Counts.shift,counts,h.messages,h.records,weigh_cons,weigh_append,Counts.mk.injEq]
  refine ⟨?_,?_,?_,?_,?_⟩ <;> omega

namespace System

variable {K : Config} {s s' : System}

theorem beginOk_acted {task : Task} (hbalanced : s.Balanced K) (h : task.BeginOk)
    (acted : Acted K s task choice s') : Task.BeginOk ⟨task.call,acted.more++acted.rest,
      task.ledger.shift s.session.counts s'.session.counts⟩ := by
  intro hcall
  rcases h hcall with hunaccepted | haccepted
  · have hledger:=hunaccepted.ledger
    have hshape:=hunaccepted.shape
    rw [acted.todo] at hledger hshape
    rcases hshape with ⟨a,ha,hdecides⟩ | hback
    · -- A deciding section is the last of its list.
      obtain ⟨rfl,hrest⟩:=List.cons.inj ha
      rcases Session.perform_decides hdecides acted.performed with haccepts | ⟨hclaims,hnext⟩
      · right
        rw [hrest,append_nil]
        exact haccepts
      · left
        refine ⟨?_,?_⟩
        · rw [hrest,append_nil]
          exact hnext
        · rw [hledger]
          exact hclaims.ledger
    · left
      have hsubmissions:=hbalanced.submissions
      have hcompletions:=hbalanced.completions
      rw [acted.before] at hsubmissions hcompletions
      obtain ⟨hmore,hclaims⟩:=Session.perform_givesBack (hback _ mem_cons_self)
        hsubmissions hcompletions acted.performed
      refine ⟨.inr fun a ha=>?_,?_⟩
      · rw [hmore,nil_append] at ha
        exact hback a (mem_cons_of_mem _ ha)
      · rw [hledger]
        exact hclaims.ledger
  · right
    rw [acted.todo] at haccepted
    have hmore:=Session.perform_accepts (haccepted _ mem_cons_self) acted.performed
    intro a ha
    rw [hmore,nil_append] at ha
    exact haccepted a (mem_cons_of_mem _ ha)

theorem beginOk_step (hbalanced : s.Balanced K) (h : ∀ t ∈ s.tasks,t.BeginOk) {event : Event}
    (hstep : s.step K event=some s') : ∀ t ∈ s'.tasks,t.BeginOk := by
  cases event with
  | act task choice =>
    obtain ⟨acted⟩:=act_acted hstep
    intro t ht
    have htasks:=acted.tasks
    split at htasks
    · rw [htasks] at ht
      exact h t (mem_of_mem_erase ht)
    · rw [htasks] at ht
      rcases mem_cons.mp ht with rfl | ht
      · exact beginOk_acted hbalanced (h task acted.mem) acted
      · exact h t (mem_of_mem_erase ht)
  | begin captured =>
    simp only [step] at hstep
    split at hstep <;> cases hstep
    intro t ht
    rcases mem_cons.mp ht with rfl | ht
    · intro _
      left
      cases captured with
      | true=>exact ⟨.inl ⟨_,rfl,rfl⟩,rfl⟩
      | false=>exact ⟨.inr (by simp [Action.givesBack]),rfl⟩
    · exact h t ht
  | _ =>
    simp only [step] at hstep
    split at hstep <;> cases hstep
    intro t ht
    rcases mem_cons.mp ht with rfl | ht
    · intro hcall
      cases hcall
    · exact h t ht

end System

theorem Run.beginOk {ticks : List Tick} {s : System} (run : Run K ticks s) :
    ∀ t ∈ s.tasks,t.BeginOk := by
  induction run with
  | start hinit =>
    subst hinit
    intro t ht
    cases ht
  | next run event hstep ih=>exact System.beginOk_step (Run.balanced run) ih hstep

/-- The rings' counts are the slots held, by what is at rest and by the calls under way, and a
refused begin has left them as they were. -/
theorem reservations_balance {K : Config} {ticks : List Tick} {s : System} (run : Run K ticks s) :
    s.session.submissions.reserved = s.session.submissionSlots + s.pending Action.slots ∧
    s.session.completions.reserved = s.session.terminalSlots + s.pending Action.terminals ∧
    s.session.completions.active = s.session.completions.reserved ∧
    s.session.submissions.queue.length + s.session.submissions.reserved ≤ K.submissionCapacity ∧
    s.session.completions.queue.length + s.session.completions.reserved ≤ K.completionCapacity ∧
    s.session.completions.reserved < K.completionCapacity ∧
    (s.tasks = [] → s.session.submissions.reserved = s.session.submissionSlots) ∧
    ∀ t ∈ s.tasks, t.call = .begin → ∀ failure, t.todo = [.refused failure] →
      t.ledger = ⟨0, 0, 0, 0, 0⟩ := by
  have h:=run.balanced
  refine ⟨h.submissions.slots,h.completions.slots,h.completions.active,h.submissions.room,
    h.completions.room,h.completions.entryRoom,fun hidle=>?_,?_⟩
  · have hslots:=h.submissions.slots
    rwa [System.pending,hidle,map_nil,sum_nil,Nat.add_zero] at hslots
  · intro t ht hcall failure htodo
    rcases run.beginOk t ht hcall with hunaccepted | haccepted
    · rw [hunaccepted.ledger,htodo]
      rfl
    · have hrefused:=haccepted (.refused failure) (htodo ▸ mem_cons_self)
      cases hrefused

def oneTerminal : Config := ⟨8, 2, by decide, by decide⟩

theorem oneTerminal_run : Run oneTerminal [] (.new oneTerminal) := .start rfl

def secondBegin : List Move :=
  [.enter (.begin true)] ++ List.replicate 8 (.next 0 .go) ++
    [.enter (.begin true)] ++ List.replicate 6 (.next 0 .go)

theorem reservations_balance_refused : ∃ ticks s, Run oneTerminal ticks s ∧
    (∃ t ∈ s.tasks, t.call = .begin ∧ t.todo = [.refused .completionRingFull] ∧
      t.ledger = ⟨0, 0, 0, 0, 0⟩) ∧
    s.session.submissions.reserved = s.session.submissionSlots + s.pending Action.slots := by
  obtain ⟨ticks,s,run,hcheck⟩:=oneTerminal_run.play (System.read _) named_allows secondBegin
    (fun _ s=>decide (∃ t ∈ s.tasks,t.call=.begin ∧ t.todo=[.refused .completionRingFull]))
    (by decide +kernel)
  obtain ⟨t,ht,hcall,htodo⟩:=of_decide_eq_true hcheck
  obtain ⟨hslots, -, -, -, -, -, -,hrefused⟩:=reservations_balance run
  exact ⟨ticks,s,run,⟨t,ht,hcall,htodo,hrefused t ht hcall _ htodo⟩,hslots⟩

/-- A begin between its claims holds a slot that is with no handle, begin, entry or receiver. -/
theorem begin_holds_slot : ∃ ticks s, Run oneTerminal ticks s ∧
    s.session.submissions.reserved ≠ s.session.submissionSlots := by
  obtain ⟨ticks,s,run,hcheck⟩:=oneTerminal_run.play (System.read _) named_allows
    [.enter (.begin true),.next 0 .go,.next 0 .go]
    (fun _ s=>decide (s.session.submissions.reserved≠s.session.submissionSlots))
    (by decide +kernel)
  exact ⟨ticks,s,run,of_decide_eq_true hcheck⟩

end WindowsThreadpoolSys.FileEnumeration
