import WindowsThreadpoolSys.FileWatcher.Losses

/-! A queue together with the producers that asked to be prodded when it has room again. The prod is on the
edge: a step that frees a slot returns every producer still alive exactly when it leaves room for one
best-effort notification. No step frees more than one slot, so the edge is never stepped over. -/
namespace WindowsThreadpoolSys.FileWatcher
open Library List State

abbrev ProducerId := ℕ

/-- A queue and its `resumers`. -/
structure Channel (P : Type) where
  system : System P
  resumers : List ProducerId

variable {P : Type}

/-- Whether the source looks for producers to prod after the call, and has taken something. -/
def Call.freed (s : State P) : Call P → Bool
  | .take => !(s.queue.isEmpty && s.latched.isEmpty)
  | .reservationDrop => true
  | .standingDrop slot =>
    match s.standing.get slot with
    | none => false
    | some st => !st.inFlight
  | _ => false

namespace Channel

def new (bound : ℕ) : Channel P := { system := .new bound, resumers := [] }

def room (c : Channel P) : ℕ := c.system.state.bestEffortRoom

def registerResume (c : Channel P) (who : ProducerId) : Channel P :=
  { c with resumers := c.resumers ++ [who] }

def freedResumers (c : Channel P) (dead : List ProducerId) (tookOne : Bool) :
    List ProducerId × Channel P :=
  if tookOne = false ∨ c.resumers = [] ∨ c.room ≠ 1 then ([], c)
  else
    let awake := c.resumers.filter fun who => decide (who ∉ dead)
    (awake, { c with resumers := awake })

def step (c : Channel P) (dead : List ProducerId) (call : Call P) :
    Except Panic (List ProducerId × Channel P) := do
  let system ← c.system.step call
  .ok (freedResumers { c with system := system } dead (call.freed c.system.state))

end Channel

/-! ## Room moves by at most one -/

theorem State.flushLatched_room (s : State P) : s.flushLatched.bestEffortRoom=s.bestEffortRoom := by
  have hfree:=State.flushLatched_free (s:=s)
  unfold bestEffortRoom
  rw [hfree,flushLatched_eq]
  simp only [length_drop]
  omega

theorem State.send_room (s : State P) (n : Notification P) :
    (s.send n).2.bestEffortRoom ≤ s.bestEffortRoom := by
  rw [← flushLatched_room s]
  unfold send
  simp only
  split_ifs with hfree
  · simp only [bestEffortRoom,free,length_append,length_singleton]
    omega
  · have hzero : s.flushLatched.free=0:=by omega
    unfold latch
    split_ifs
    · exact le_rfl
    · simp only [bestEffortRoom,free] at hzero ⊢
      omega

variable {s s' : State P}

theorem State.reserve_room (h : s.reserve=some s') : s'.bestEffortRoom ≤ s.bestEffortRoom := by
  unfold reserve at h
  split_ifs at h
  cases h
  simp only [bestEffortRoom,free]
  omega

theorem State.reserveStanding_room {slot : SlotId} (h : s.reserveStanding slot=some s') :
    s'.bestEffortRoom ≤ s.bestEffortRoom := by
  unfold reserveStanding at h
  split_ifs at h
  cases h
  simp only [bestEffortRoom,free]
  omega

theorem State.reservationSend_room (s : State P) (n : Notification P) :
    (s.reservationSend n).bestEffortRoom ≤ s.bestEffortRoom := by
  rw [← flushLatched_room s]
  simp only [reservationSend,bestEffortRoom,free,length_append,length_singleton]
  omega

theorem State.standingSend_room (s : State P) (slot : SlotId) (n : Notification P) :
    (s.standingSend slot n).bestEffortRoom ≤ s.bestEffortRoom := by
  unfold standingSend
  split
  · exact le_rfl
  · split_ifs
    · exact le_rfl
    · rename_i st _ _
      have hflush:=flushLatched_room
        { s with standing:=s.standing.insert slot { st with inFlight:=true,queued:=some n } }
      have hsame : bestEffortRoom
          { s with standing:=s.standing.insert slot { st with inFlight:=true,queued:=some n } } =
          s.bestEffortRoom:=rfl
      rw [← hsame,← hflush]
      simp only [bestEffortRoom,free,length_append,length_singleton]
      omega

theorem State.standingDrop_room (s : State P) (slot : SlotId) :
    (s.standingDrop slot).bestEffortRoom ≤
      s.bestEffortRoom+(Call.freed s (.standingDrop slot)).toNat := by
  unfold standingDrop
  cases hst : s.standing.get slot with
  | none=>exact Nat.le_add_right _ _
  | some st =>
    simp only
    split_ifs with hflight
    · exact Nat.le_add_right _ _
    · rw [Bool.not_eq_true] at hflight
      simp only [Call.freed,hst,hflight,Bool.not_false,Bool.toNat_true,bestEffortRoom,free]
      omega

theorem State.take_room {item : Option (Notification P)} (h : s.take=.ok (item,s')) :
    s'.bestEffortRoom ≤ s.bestEffortRoom+(Call.freed s .take).toNat := by
  unfold take at h
  cases hqueue : s.queue with
  | nil =>
    rw [hqueue] at h
    cases hlatched : s.latched with
    | nil =>
      simp only [hlatched,Except.ok.injEq,Prod.mk.injEq] at h
      rw [← h.2]
      exact Nat.le_add_right _ _
    | cons watch rest =>
      simp only [hlatched,Except.ok.injEq,Prod.mk.injEq] at h
      rw [← h.2]
      simp only [Call.freed,hqueue,hlatched,isEmpty_cons,Bool.and_false,Bool.not_false,
        Bool.toNat_true,bestEffortRoom,free,length_cons,length_nil]
      omega
  | cons e rest =>
    have hfreed : (Call.freed s .take).toNat=1:=by simp [Call.freed,hqueue]
    rw [hqueue] at h
    rw [hfreed]
    cases e with
    | plain n =>
      simp only [Except.ok.injEq,Prod.mk.injEq] at h
      rw [← h.2]
      simp only [bestEffortRoom,free,hqueue,length_cons]
      omega
    | standing slot =>
      simp only at h
      split at h
      · cases h
      · split at h
        · cases h
        · simp only [Except.ok.injEq,Prod.mk.injEq] at h
          rw [← h.2]
          simp only [bestEffortRoom,free,hqueue,length_cons]
          split_ifs <;> omega

theorem System.step_room {s s' : System P} {call : Call P} (h : s.step call=.ok s') :
    s'.state.bestEffortRoom ≤ s.state.bestEffortRoom+(call.freed s.state).toNat := by
  cases call with
  | send n =>
    cases h
    exact send_room s.state n
  | reserve =>
    simp only [step] at h
    split at h <;> cases h
    · exact le_rfl
    · exact reserve_room (by assumption)
  | reservationSend n =>
    cases h
    exact reservationSend_room s.state n
  | reservationDrop =>
    cases h
    simp only [Call.freed,State.reservationDrop,bestEffortRoom,free,Bool.toNat_true]
    omega
  | reserveStanding slot =>
    simp only [step] at h
    split at h <;> cases h
    · exact le_rfl
    · exact reserveStanding_room (by assumption)
  | standingSend slot n =>
    cases h
    exact standingSend_room s.state slot n
  | standingDrop slot =>
    cases h
    exact standingDrop_room s.state slot
  | cloneSender | dropSender =>
    cases h
    exact le_rfl
  | take =>
    simp only [step,bind_eq_ok] at h
    obtain ⟨taken,htake,h⟩:=h
    cases h
    exact take_room htake

/-! ## The edge -/

variable {c c' : Channel P} {dead awake : List ProducerId} {call : Call P}

theorem Channel.freedResumers_room (c : Channel P) (dead : List ProducerId) (tookOne : Bool) :
    (c.freedResumers dead tookOne).2.room=c.room := by
  unfold freedResumers
  split_ifs <;> rfl

theorem Channel.freedResumers_kept (c : Channel P) (dead : List ProducerId) (tookOne : Bool)
    {who : ProducerId} (hlive : who ∉ dead) (hwho : who ∈ c.resumers) :
    who ∈ (c.freedResumers dead tookOne).2.resumers := by
  unfold freedResumers
  split_ifs
  · exact hwho
  · exact mem_filter.mpr ⟨hwho,decide_eq_true hlive⟩

theorem Channel.step_ok (h : c.step dead call=.ok (awake,c')) :
    ∃ system,c.system.step call=.ok system ∧
      freedResumers { c with system := system } dead (call.freed c.system.state)=(awake,c') := by
  obtain ⟨system,hstep,h⟩:=bind_eq_ok.mp h
  exact ⟨system,hstep,Except.ok.inj h⟩

theorem Channel.step_resumers (h : c.step dead call=.ok (awake,c')) {who : ProducerId}
    (hlive : who ∉ dead) (hwho : who ∈ c.resumers) : who ∈ c'.resumers := by
  obtain ⟨system, -,hfreed⟩:=step_ok h
  have hkept:=freedResumers_kept { c with system:=system } dead
    (call.freed c.system.state) hlive hwho
  rw [hfreed] at hkept
  exact hkept

theorem Channel.step_edge (h : c.step dead call=.ok (awake,c')) (hfull : c.room=0)
    (hroom : 0 < c'.room) : c'.room=1 ∧ awake=c.resumers.filter fun who => decide (who ∉ dead) := by
  obtain ⟨system,hstep,hfreed⟩:=step_ok h
  have hsame:=freedResumers_room { c with system:=system } dead
    (call.freed c.system.state)
  rw [hfreed] at hsame
  simp only [room] at hsame hfull hroom ⊢
  have hmoves:=System.step_room hstep
  cases hcall : call.freed c.system.state with
  | false =>
    rw [hcall,Bool.toNat_false] at hmoves
    omega
  | true =>
    rw [hcall,Bool.toNat_true] at hmoves
    have hone : system.state.bestEffortRoom=1:=by omega
    refine ⟨by omega,?_⟩
    unfold freedResumers at hfreed
    rw [hcall] at hfreed
    by_cases hnil : c.resumers=[]
    · simp only [hnil,true_or,or_true,if_true,Prod.mk.injEq] at hfreed
      rw [← hfreed.1,hnil]
      rfl
    · simp only [hnil,room,hone,Bool.true_eq_false,ne_eq,not_true_eq_false,or_self,
        if_false,Prod.mk.injEq] at hfreed
      exact hfreed.1.symm

end WindowsThreadpoolSys.FileWatcher
