import WindowsThreadpoolSys.FileEnumeration.Performs

/-! Each slot a ring has given out is somewhere: with a handle, a queued begin, a registry entry, the
receiver, or a call under way. A section moves the slots its call carries, so the counts of the
rings stay equal to the slots held, over every run. -/
namespace WindowsThreadpoolSys.FileEnumeration
open Library List

/-! ## What calls carry -/

namespace Action

def slots : Action → ℕ
  | .reserveRetire | .returnHandle _ | .releaseCancel | .releaseRetire | .pushCancel _
  | .pushRetire _ | .pushAbandon | .serviceBegin _ => 1
  | .reserveTerminal | .allocate _ | .tryPush _ => 2
  | _ => 0

def terminals : Action → ℕ
  | .allocate _ | .tryPush _ | .dropTerminal _ | .sendTerminal _ _ | .serviceBegin _ => 1
  | _ => 0

end Action

def weigh (w : Action → ℕ) (todo : List Action) : ℕ := (todo.map w).sum

@[simp] theorem weigh_nil (w : Action → ℕ) : weigh w []=0 := rfl

@[simp] theorem weigh_cons (w : Action → ℕ) (a : Action) (todo : List Action) :
    weigh w (a::todo)=w a+weigh w todo := by
  simp only [weigh,map_cons,sum_cons]

@[simp] theorem weigh_append (w : Action → ℕ) (l r : List Action) :
    weigh w (l++r)=weigh w l+weigh w r := by
  simp only [weigh,map_append,sum_append]

theorem weigh_flatMap {α : Type} (w : Action → ℕ) (f : α → List Action) (l : List α) :
    weigh w (l.flatMap f)=(l.map fun x => weigh w (f x)).sum := by
  induction l with
  | nil=>rfl
  | cons x rest ih=>rw [flatMap_cons,weigh_append,ih,map_cons,sum_cons]

namespace System

def pending (w : Action → ℕ) (s : System) : ℕ := (s.tasks.map fun t => weigh w t.todo).sum

theorem pending_enter (w : Action → ℕ) (s : System) (session : Session) (call : Call)
    (todo : List Action) : (s.enter session call todo).pending w=weigh w todo+s.pending w := by
  simp only [pending,enter,map_cons,sum_cons]

/-- A step of a call: its first section is made, and the others keep what they carry. -/
structure Acted (K : Config) (s : System) (task : Task) (choice : Choice) (s' : System) where
  action : Action
  rest : List Action
  more : List Action
  others : (Action → ℕ) → ℕ
  mem : task ∈ s.tasks
  todo : task.todo = action :: rest
  performed : s.session.Performs K choice action s'.session more
  tasks : s'.tasks = if more ++ rest = [] then s.tasks.erase task
    else ⟨task.call, more ++ rest, task.ledger.shift s.session.counts s'.session.counts⟩ ::
      s.tasks.erase task
  before : ∀ w, s.pending w = w action + others w
  after : ∀ w, s'.pending w = weigh w more + others w

theorem act_acted {K : Config} {s s' : System} {task : Task} {choice : Choice}
    (h : s.act K task choice=some s') : Nonempty (Acted K s task choice s') := by
  unfold act at h
  split at h
  case isFalse=>cases h
  case isTrue hmem =>
    cases htodo : task.todo with
    | nil =>
      rw [htodo] at h
      cases h
    | cons action rest =>
      rw [htodo] at h
      obtain ⟨⟨session,more⟩,hperform,rfl⟩:=Option.map_eq_some_iff.mp h
      have hsum (w : Action → ℕ) : s.pending w =
          weigh w task.todo+((s.tasks.erase task).map fun t=>weigh w t.todo).sum :=
        (sum_map_erase (fun t : Task=>weigh w t.todo) hmem).symm
      refine ⟨⟨action,rest,more,
        fun w=>weigh w rest+((s.tasks.erase task).map fun t=>weigh w t.todo).sum,
        hmem,htodo,Session.performs hperform,rfl,fun w=>?_,fun w=>?_⟩⟩
      · rw [hsum,htodo,weigh_cons,Nat.add_assoc]
      · show (List.map _ _).sum=_
        by_cases hnil : more++rest=[]
        · obtain ⟨rfl,rfl⟩:=append_eq_nil_iff.mp hnil
          simp only [append_nil,if_true,weigh_nil,Nat.zero_add]
        · simp only [hnil,if_false,map_cons,sum_cons,weigh_append,Nat.add_assoc]

end System

/-! ## Where slots rest -/

def ControlMessage.isBegin : ControlMessage → Bool
  | .begin _ => true
  | _ => false

variable {ring : SubmissionRing}

namespace Session

/-- The submission slots with handles, queued begins, registry entries and the receiver. -/
def submissionSlots (s : Session) : ℕ :=
  s.enumerations.length + s.submissions.queue.countP ControlMessage.isBegin +
    s.registry.entries.count (fun _ state => state.retire) + s.receiver.toNat

def terminalSlots (s : Session) : ℕ :=
  s.submissions.queue.countP ControlMessage.isBegin +
    s.registry.entries.count (fun _ state => state.terminal.isSome)

structure SubmissionsBalance (K : Config) (s : Session) (carried : ℕ) : Prop where
  slots : s.submissions.reserved = s.submissionSlots + carried
  room : s.submissions.queue.length + s.submissions.reserved ≤ K.submissionCapacity

structure CompletionsBalance (K : Config) (s : Session) (carried : ℕ) : Prop where
  slots : s.completions.reserved = s.terminalSlots + carried
  active : s.completions.active = s.completions.reserved
  room : s.completions.queue.length + s.completions.reserved ≤ K.completionCapacity
  entryRoom : s.completions.reserved < K.completionCapacity

/-! ## The registry's part -/

theorem count_replace_same {t : Table EnumerationId EnumerationState} {k : EnumerationId}
    {v w : EnumerationState} (p : EnumerationState → Bool) (h : t.get k=some w)
    (hp : p v=p w) : (t.insert k v).count (fun _ state => p state) =
      t.count fun _ state => p state := by
  have hcount:=Table.count_replace v (fun _ state=>p state) h
  rw [hp] at hcount
  omega

variable {p : EnumerationState → Bool}

theorem markReady_count (r : Registry) (enumeration : EnumerationId)
    (hp : ∀ state parked queued,p { state with parked := parked,queued := queued }=p state) :
    (r.markReady enumeration).entries.count (fun _ state => p state) =
      r.entries.count fun _ state => p state := by
  unfold Registry.markReady
  cases hget : r.get enumeration with
  | none=>rfl
  | some state =>
    by_cases hbusy : state.queued || state.running
    · simp only [hbusy,if_true]
      exact count_replace_same p hget (hp state false state.queued)
    · simp only [hbusy]
      exact count_replace_same p hget (hp state false true)

theorem claimFrom_count (ready : List EnumerationId) (accepting : Bool)
    (entries : Table EnumerationId EnumerationState)
    (hp : ∀ state engine running parked queued,p { state with
      engine := engine,running := running,parked := parked,queued := queued }=p state) :
    (Registry.claimFrom entries accepting ready).1.entries.count (fun _ state => p state) =
      entries.count fun _ state => p state := by
  induction ready generalizing entries with
  | nil=>rfl
  | cons enumeration rest ih =>
    rw [Registry.claimFrom]
    cases hget : entries.get enumeration with
    | none=>exact ih entries
    | some state =>
      have hclear:=count_replace_same p hget
        (hp state state.engine state.running state.parked false)
      by_cases hrunning : state.running
      · simp only [if_pos hrunning]
        exact (ih _).trans hclear
      · simp only [if_neg hrunning]
        cases hengine : state.engine with
        | none =>
          rw [hengine] at hclear
          exact (ih _).trans hclear
        | some engine=>exact count_replace_same p hget (hp state none true false false)

theorem weigh_retireState (state : EnumerationState) (outcome : Option TerminalOutcome) :
    weigh Action.slots (retireState state outcome)=(if state.retire then 1 else 0) ∧
      weigh Action.terminals (retireState state outcome) =
        if state.terminal.isSome then 1 else 0 := by
  unfold retireState
  cases state.retire <;> cases state.terminal <;> cases outcome <;> exact ⟨rfl,rfl⟩

theorem weigh_drained {t : Table EnumerationId EnumerationState} {order : List EnumerationId}
    (w : Action → ℕ) (p : EnumerationState → Bool)
    (hw : ∀ state,weigh w (retireState state none)=if p state then 1 else 0)
    (horder : order.Perm t.keys) : weigh w (retireAll t order)=t.count fun _ state => p state := by
  rw [retireAll,weigh_flatMap,(horder.map _).sum_eq,Table.keys,map_map,Table.count]
  refine (congrArg List.sum (map_congr_left (g:=fun e=>if p e.2 then 1 else 0)
    fun e he=>?_)).trans ?_
  · rw [Function.comp_apply,Table.mem_entries.mp he]
    exact hw e.2
  · induction t.entries with
    | nil=>rfl
    | cons e rest ih=>rw [map_cons,sum_cons,countP_cons,ih,Nat.add_comm]

variable {w : Action → ℕ}

theorem weigh_ringIf (hw : w .ringServicer=0) (outcome : PushOutcome) :
    weigh w (ringIf outcome)=0 := by
  cases outcome with
  | ringDoorbell=>simp only [ringIf,weigh_cons,weigh_nil,hw]
  | drainAlreadyScheduled=>rfl

theorem weigh_schedules (hmark : ∀ enumeration,w (.markReady enumeration)=0)
    (order : List EnumerationId) : weigh w (order.flatMap schedule)=0 := by
  induction order with
  | nil=>rfl
  | cons enumeration rest ih =>
    rw [flatMap_cons,weigh_append,ih]
    simp only [schedule,weigh_cons,weigh_nil,hmark]

theorem reportOutcome_slots (enumeration : EnumerationId) (state : EnumerationState)
    (hasRoom : Bool) (outcome : QuantumOutcome) :
    ((reportOutcome enumeration state hasRoom outcome).1.retire=state.retire ∧
      (reportOutcome enumeration state hasRoom outcome).1.terminal=state.terminal) ∧
    ∀ w : Action → ℕ,(∀ outcome,w (.finishFromWorker enumeration outcome)=0) →
      w (.markReady enumeration)=0 →
      weigh w (reportOutcome enumeration state hasRoom outcome).2=0 := by
  cases outcome with
  | finished outcome=>exact ⟨⟨rfl,rfl⟩,fun w hfinish _=>by simp [reportOutcome,hfinish]⟩
  | idle =>
    unfold reportOutcome
    by_cases hcancelled : state.cancelled <;>
      exact ⟨by simp [hcancelled],fun w hfinish _=>by simp [hcancelled,hfinish]⟩
  | yielded =>
    unfold reportOutcome
    by_cases hcancelled : state.cancelled <;>
      exact ⟨by simp [hcancelled],fun w hfinish hmark=>by
        simp [hcancelled,hfinish,schedule,hmark]⟩
  | parked =>
    unfold reportOutcome
    by_cases hcancelled : state.cancelled <;> cases hasRoom <;>
      exact ⟨by simp [hcancelled],fun w hfinish hmark=>by
        simp [hcancelled,hfinish,schedule,hmark]⟩

/-- `w` weighs the slots that the registry entries `p` picks hold. -/
structure Weighs (w : Action → ℕ) (p : EnumerationState → Bool) : Prop where
  begun : ∀ message, w (.serviceBegin message) = 1 ∧ p (.new message) = true
  same : ∀ a b : EnumerationState, b.retire = a.retire → b.terminal = a.terminal → p b = p a
  retired : ∀ state outcome, weigh w (retireState state outcome) = if p state then 1 else 0
  finished : ∀ enumeration state outcome,
    (if p { state with terminal := none, retire := false } then 1 else 0) +
      weigh w (closing enumeration state outcome) = if p state then 1 else 0
  light : ∀ action : Action, action.touchesRegistry = true → (∀ message, action ≠ .serviceBegin message) →
    w action = 0
  lightNext : w .submitEngine = 0 ∧ ∀ enumeration engine, w (.quantum enumeration engine) = 0

theorem weighs_slots : Weighs Action.slots fun state => state.retire where
  begun _ := ⟨rfl,rfl⟩
  same _ _ hretire _:=hretire
  retired state outcome:=(weigh_retireState state outcome).1
  finished _ state _:=by unfold closing; cases state.retire <;> cases state.terminal <;> rfl
  light action htouches hbegin:=by
    cases action <;> first | rfl | exact absurd rfl (hbegin _) | cases htouches
  lightNext:=⟨rfl,fun _ _=>rfl⟩

theorem weighs_terminals : Weighs Action.terminals fun state => state.terminal.isSome where
  begun _ := ⟨rfl,rfl⟩
  same _ _ _ hterminal:=congrArg Option.isSome hterminal
  retired state outcome:=(weigh_retireState state outcome).2
  finished _ state _:=by unfold closing; cases state.retire <;> cases state.terminal <;> rfl
  light action htouches hbegin:=by
    cases action <;> first | rfl | exact absurd rfl (hbegin _) | cases htouches
  lightNext:=⟨rfl,fun _ _=>rfl⟩

variable {K : Config} {s s' : Session} {choice : Choice} {action : Action} {more : List Action}

theorem perform_registry (htouches : action.touchesRegistry=true)
    (hp : Performs K s choice action s' more) :
    s'={ s with registry := s'.registry,registered := s'.registered } := by
  cases hp with
  | begun | turnedAway | cancelMissing | cancelled | cancelling | retireMissing | retired | drained
  | markReady | claimed | unclaimed | reportMissing | reported | finishMissing | finished=>rfl
  | _=>cases htouches

theorem perform_entries (hw : Weighs w p) (htouches : action.touchesRegistry=true)
    (hnew : ∀ message,action=.serviceBegin message → s.registry.get message.enumeration=none)
    (hp : Performs K s choice action s' more) :
    s'.registry.entries.count (fun _ state => p state)+weigh w more =
      s.registry.entries.count (fun _ state => p state)+w action := by
  cases hp with
  | begun message _ =>
    have hcount:=Table.count_insert (t:=s.registry.entries) (.new message)
      (fun _ state=>p state) (hnew message rfl)
    simp only [Registry.insert,hcount,schedule,weigh_cons,weigh_nil,(hw.begun message).1,
      (hw.begun message).2,hw.light (.markReady message.enumeration) rfl nofun,if_true]
  | turnedAway message _=>rw [hw.retired,(hw.begun message).1,(hw.begun message).2,if_pos rfl]
  | cancelMissing | retireMissing | reportMissing | finishMissing =>
    rw [hw.light _ htouches nofun]
    rfl
  | cancelled hget | retired hget =>
    rw [hw.light _ htouches nofun]
    have hcount:=Table.count_erase (fun _ state=>p state) hget
    simp only [Registry.remove,hw.retired] at hcount ⊢
    omega
  | cancelling hget _ =>
    rw [hw.light _ htouches nofun]
    exact congrArg (·+0) (count_replace_same p hget (hw.same _ _ rfl rfl))
  | drained horder =>
    have hempty : (Table.empty : Table EnumerationId EnumerationState).count
        (fun _ state=>p state)=0:=rfl
    simp only [Registry.drainAll,weigh_drained w p (hw.retired · none) horder,hempty,
      hw.light _ htouches nofun]
    omega
  | markReady enumeration =>
    simp only [markReady_count s.registry enumeration fun _ _ _=>hw.same _ _ rfl rfl,weigh_cons,
      weigh_nil,hw.lightNext.1,hw.light _ htouches nofun]
  | claimed | unclaimed =>
    simp [Registry.claimNext,claimFrom_count s.registry.ready s.registry.accepting
      s.registry.entries fun _ _ _ _ _=>hw.same _ _ rfl rfl,hw.light _ htouches nofun,hw.lightNext.2]
  | @reported enumeration state engine outcome hget _ hnext =>
    subst hnext
    rw [hw.light _ htouches nofun]
    obtain ⟨hkept,hlight⟩:=reportOutcome_slots enumeration
      { state with running:=false,engine:=some engine }
      (s.completions.hasDataRoom K.completionCapacity) outcome
    rw [hlight w (fun _=>hw.light _ rfl nofun) (hw.light _ rfl nofun)]
    exact congrArg (·+0) (count_replace_same p hget (hw.same _ _ hkept.1 hkept.2))
  | @finished enumeration state outcome hget =>
    rw [hw.light _ htouches nofun]
    have hcount:=Table.count_replace { state with terminal:=none,retire:=false }
      (fun _ state=>p state) hget
    have hfinished:=hw.finished enumeration state outcome
    simp only [Registry.insert]
    omega
  | _=>cases htouches

/-! ## One section -/

namespace SubmissionsBalance

variable {K : Config} {s s' : Session} {m m' : ℕ}

theorem of_moved (h : SubmissionsBalance K s m) (hring : s'.submissions=s.submissions)
    (hslots : s'.submissionSlots+m'=s.submissionSlots+m) : SubmissionsBalance K s' m' := by
  refine ⟨?_,?_⟩
  · rw [hring,hslots]
    exact h.slots
  · rw [hring]
    exact h.room

theorem release (h : SubmissionsBalance K s (1+m)) :
    SubmissionsBalance K { s with submissions := s.submissions.releaseReservation } m := by
  have hslots:=h.slots
  have hroom:=h.room
  simp only [submissionSlots] at hslots
  refine ⟨?_,?_⟩ <;>
    simp only [submissionSlots,SubmissionRing.releaseReservation] <;> omega

theorem spend (h : SubmissionsBalance K s (1+m)) {message : ControlMessage}
    (hqueue : ring.queue=s.submissions.queue++[message]) (hmessage : message.isBegin=false)
    (hreserved : ring.reserved=s.submissions.reserved-1) :
    SubmissionsBalance K { s with submissions := ring } m := by
  have hslots:=h.slots
  have hroom:=h.room
  simp only [submissionSlots] at hslots
  refine ⟨?_,?_⟩
  · simp only [submissionSlots,hqueue,hreserved,countP_append,countP_singleton,hmessage]
    simp
    omega
  · simp only [hqueue,hreserved,length_append,length_singleton]
    omega

theorem reserve (h : SubmissionsBalance K s m)
    (hfree : s.submissions.free K.submissionCapacity ≠ 0) : SubmissionsBalance K { s with
      submissions := { s.submissions with reserved := s.submissions.reserved+1 } } (1+m) := by
  unfold SubmissionRing.free at hfree
  have hslots:=h.slots
  simp only [submissionSlots] at hslots
  refine ⟨?_,?_⟩ <;> simp only [submissionSlots] <;> omega

theorem queueBegin (h : SubmissionsBalance K s (1+m)) (message : BeginMessage)
    (hfree : s.submissions.free K.submissionCapacity ≠ 0) :
    SubmissionsBalance K { s with submissions := s.submissions.enqueue (.begin message) } m := by
  have hslots:=h.slots
  simp only [submissionSlots] at hslots
  unfold SubmissionRing.free at hfree
  refine ⟨?_,?_⟩
  · simp only [submissionSlots,SubmissionRing.enqueue,countP_append,countP_singleton,
      ControlMessage.isBegin,if_true]
    omega
  · simp only [SubmissionRing.enqueue,length_append,length_singleton]
    omega

theorem take (h : SubmissionsBalance K s m) :
    SubmissionsBalance K { s with submissions := s.submissions.takeForService.1 }
      (weigh Action.slots (service s.submissions.takeForService.2)+m) := by
  have hslots:=h.slots
  have hroom:=h.room
  unfold submissionSlots at hslots
  unfold SubmissionRing.takeForService
  cases hqueue : s.submissions.queue with
  | nil =>
    rw [hqueue] at hslots hroom
    refine ⟨?_,?_⟩
    · simpa [submissionSlots,service,hqueue] using hslots
    · simpa [hqueue] using hroom
  | cons message rest =>
    rw [hqueue] at hslots hroom
    rw [length_cons] at hroom
    refine ⟨?_,?_⟩
    · rw [countP_cons] at hslots
      cases message <;>
        simp [submissionSlots,service,Action.slots,ControlMessage.isBegin] at hslots ⊢ <;> omega
    · simp only
      omega

end SubmissionsBalance

theorem perform_submissions {m : ℕ} (h : SubmissionsBalance K s (action.slots+m))
    (hnew : ∀ message,action=.serviceBegin message → s.registry.get message.enumeration=none)
    (hp : Performs K s choice action s' more) :
    SubmissionsBalance K s' (weigh Action.slots more+m) := by
  have hbare (hslots : action.slots=0) : SubmissionsBalance K s m:=by
    rwa [hslots,Nat.zero_add] at h
  by_cases htouches : action.touchesRegistry=true
  · have hcount:=perform_entries weighs_slots htouches hnew hp
    rw [perform_registry htouches hp]
    refine h.of_moved rfl ?_
    simp only [submissionSlots]
    omega
  cases hp with
  | abandoned | accepting | noCancel | noRetire | allocated | unallocated | rejected | refused
  | unsent | ended=>simpa [Action.slots] using h
  | noTerminal | reserveTerminal | dropTerminal | sendTerminal | ringServicer | submitEngine | sent
  | addSession | acquireHandle | removeSession | takeWork=>exact h.of_moved rfl rfl
  | reserveCancel hfree=>simpa [Action.slots] using (hbare rfl).reserve hfree
  | reserveRetire hfree =>
    have h':=h.reserve hfree
    rw [← Nat.add_assoc] at h'
    simpa [Action.slots] using h'
  | pushed terminal hfree =>
    -- The retire slot goes with the message, the cancel slot is kept for the handle.
    have h' : SubmissionsBalance K s (1+(1+m)):=by
      rw [← Nat.add_assoc]
      exact h
    simpa [weigh_ringIf (w:=Action.slots) rfl,Action.slots] using h'.queueBegin _ hfree
  | returnHandle =>
    refine h.of_moved rfl ?_
    simp only [submissionSlots,length_cons,Action.slots,weigh_nil]
    omega
  | releaseCancel | releaseRetire=>simpa using h.release
  | pushCancel | pushRetire | pushAbandon =>
    rw [weigh_ringIf rfl,Nat.zero_add]
    exact h.spend rfl rfl rfl
  | takeForService=>exact (hbare rfl).take
  | tryTake | releaseHandle =>
    refine h.of_moved rfl ?_
    split <;> rfl
  | snapshotParked =>
    rw [weigh_schedules (fun _=>rfl),Nat.zero_add]
    exact hbare rfl
  | _=>exact absurd rfl htouches

namespace CompletionsBalance

variable {K : Config} {s s' : Session} {m m' : ℕ}

theorem of_moved (h : CompletionsBalance K s m) (hring : s'.completions=s.completions)
    (hslots : s'.terminalSlots+m'=s.terminalSlots+m) : CompletionsBalance K s' m' := by
  refine ⟨?_,?_,?_,?_⟩ <;> rw [hring]
  · rw [hslots]
    exact h.slots
  · exact h.active
  · exact h.room
  · exact h.entryRoom

theorem of_queue (h : CompletionsBalance K s m) (ring : CompletionRing)
    (hreserved : ring.reserved=s.completions.reserved) (hactive : ring.active=s.completions.active)
    (hroom : ring.queue.length+s.completions.reserved ≤ K.completionCapacity) :
    CompletionsBalance K { s with completions := ring } m := by
  refine ⟨?_,?_,?_,?_⟩ <;> simp only [hreserved,hactive]
  · exact h.slots
  · exact h.active
  · exact hroom
  · exact h.entryRoom

theorem spend (h : CompletionsBalance K s (1+m)) (ring : CompletionRing)
    (hreserved : ring.reserved=s.completions.reserved-1)
    (hactive : ring.active=s.completions.active-1)
    (hqueue : ring.queue.length ≤ s.completions.queue.length+1) :
    CompletionsBalance K { s with completions := ring } m := by
  have hslots:=h.slots
  have hsame:=h.active
  have hroom:=h.room
  simp only [terminalSlots] at hslots
  refine ⟨?_,?_,?_,?_⟩ <;> simp only [terminalSlots,hreserved,hactive] <;> omega

theorem reserve (h : CompletionsBalance K s m)
    (hroom : s.completions.canReserve K.completionCapacity=true) : CompletionsBalance K { s with
      completions := { s.completions with
        reserved := s.completions.reserved+1,active := s.completions.active+1 } } (1+m) := by
  unfold CompletionRing.canReserve CompletionRing.dataRoom at hroom
  rw [Bool.and_eq_true,decide_eq_true_eq,decide_eq_true_eq] at hroom
  have hslots:=h.slots
  have hsame:=h.active
  simp only [terminalSlots] at hslots
  refine ⟨?_,?_,?_,?_⟩ <;> simp only [terminalSlots] <;> omega

theorem queueBegin (h : CompletionsBalance K s (1+m)) (message : BeginMessage) :
    CompletionsBalance K { s with submissions := s.submissions.enqueue (.begin message) } m := by
  refine h.of_moved rfl ?_
  simp only [terminalSlots,SubmissionRing.enqueue,countP_append,countP_singleton,
    ControlMessage.isBegin,if_true]
  omega

theorem queueOther (h : CompletionsBalance K s m) {message : ControlMessage}
    (hqueue : ring.queue=s.submissions.queue++[message]) (hmessage : message.isBegin=false) :
    CompletionsBalance K { s with submissions := ring } m := by
  refine h.of_moved rfl ?_
  simp only [terminalSlots,hqueue,countP_append,countP_singleton,hmessage]
  simp

theorem take (h : CompletionsBalance K s m) :
    CompletionsBalance K { s with submissions := s.submissions.takeForService.1 }
      (weigh Action.terminals (service s.submissions.takeForService.2)+m) := by
  refine h.of_moved rfl ?_
  unfold SubmissionRing.takeForService terminalSlots
  cases hqueue : s.submissions.queue with
  | nil=>simp [service]
  | cons message rest =>
    rw [countP_cons]
    cases message with
    | begin message =>
      simp [service,Action.terminals,ControlMessage.isBegin]
      omega
    | _=>simp [service,Action.terminals,ControlMessage.isBegin]

theorem sendEntry (h : CompletionsBalance K s m) (record : Completion)
    (hroom : s.completions.dataRoom K.completionCapacity ≠ 0) :
    CompletionsBalance K { s with completions := s.completions.enqueue record } m := by
  unfold CompletionRing.dataRoom at hroom
  refine h.of_queue _ rfl rfl ?_
  simp only [CompletionRing.enqueue,length_append,length_singleton]
  omega

theorem takeRecord (h : CompletionsBalance K s m) :
    CompletionsBalance K { s with completions := s.completions.tryTake.1 } m := by
  have hroom:=h.room
  unfold CompletionRing.tryTake
  cases hqueue : s.completions.queue with
  | nil=>exact h
  | cons record rest =>
    rw [hqueue,length_cons] at hroom
    refine h.of_queue _ rfl rfl ?_
    simp only
    omega

end CompletionsBalance

theorem perform_completions {m : ℕ} (h : CompletionsBalance K s (action.terminals+m))
    (hnew : ∀ message,action=.serviceBegin message → s.registry.get message.enumeration=none)
    (hp : Performs K s choice action s' more) :
    CompletionsBalance K s' (weigh Action.terminals more+m) := by
  have hbare (hslots : action.terminals=0) : CompletionsBalance K s m:=by
    rwa [hslots,Nat.zero_add] at h
  by_cases htouches : action.touchesRegistry=true
  · have hcount:=perform_entries weighs_terminals htouches hnew hp
    rw [perform_registry htouches hp]
    refine h.of_moved rfl ?_
    simp only [terminalSlots]
    omega
  cases hp with
  | abandoned | accepting | noCancel | noRetire | allocated | unallocated | rejected | refused
  | unsent | ended=>exact h
  | reserveCancel | reserveRetire | noTerminal | returnHandle | releaseCancel | releaseRetire
  | ringServicer | submitEngine | acquireHandle | takeWork=>exact h.of_moved rfl rfl
  | reserveTerminal hroom=>exact ((hbare rfl).reserve hroom).of_moved rfl rfl
  | pushed terminal _ =>
    simpa [weigh_ringIf (w:=Action.terminals) rfl,Action.terminals] using h.queueBegin _
  | dropTerminal=>simpa using h.spend s.completions.releaseReservation rfl rfl (Nat.le_succ _)
  | sendTerminal =>
    simpa using h.spend (s.completions.fillReservation _) rfl rfl (length_append.trans_le le_rfl)
  | pushCancel | pushRetire | pushAbandon =>
    rw [weigh_ringIf rfl]
    exact h.queueOther rfl rfl
  | takeForService=>exact (hbare rfl).take
  | sent _ _ hroom=>simpa [Action.terminals] using (hbare rfl).sendEntry _ hroom
  | tryTake =>
    have hlight : weigh Action.terminals
        (if s.completions.tryTake.2.isSome then [.snapshotParked] else [])=0:=by
      split <;> rfl
    rw [hlight]
    simpa using (hbare rfl).takeRecord
  | snapshotParked =>
    rw [weigh_schedules (fun _=>rfl),Nat.zero_add]
    exact hbare rfl
  | addSession=>simpa using (hbare rfl).of_queue s.completions.addSession rfl rfl h.room
  | removeSession=>simpa using (hbare rfl).of_queue s.completions.removeSession rfl rfl h.room
  | releaseHandle =>
    refine h.of_moved rfl ?_
    split <;> rfl
  | _=>exact absurd rfl htouches

end Session

end WindowsThreadpoolSys.FileEnumeration
