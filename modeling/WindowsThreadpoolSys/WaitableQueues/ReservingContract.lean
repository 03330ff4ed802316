import WindowsThreadpoolSys.WaitableQueues.ReservingRun

/-! A refused push read a word and later a head. The head only moves forward and the word was still current
when the push gave up, so there was no room when the word was read. With what every step keeps, this
gives the contract of the queue for every run. -/
namespace WindowsThreadpoolSys.WaitableQueues
open Library List Table

variable {T : Type} {R : Ring} {q q' : Queue T} {ticks : List (Tick T)}

def Pc.call : Pc T → Option (Push T)
  | .pushLoad call | .pushRoom call _ | .pushReread call _ | .pushRefused call | .pushLive call _
  | .pushClaim call _ => some call
  | _ => none

/-- The call the handle is in: a push or a send of an item, or a reserve. -/
def Pc.pending : Pc T → Option (Option T)
  | .pushLoad call | .pushRoom call _ | .pushReread call _ | .pushRefused call | .pushLive call _
  | .pushClaim call _ => some (some call.item)
  | .sendLive item | .sendLoad item | .sendClaim item _ | .publish _ _ item _ => some (some item)
  | .reserveLoad | .reserveRoom _ | .reserveReread _ | .reserveClaim _ | .reserveCount => some none
  | _ => none

def Event.begins : Event T → Option (HandleId × Option T)
  | .push i item | .send i item => some (i, some item)
  | .reserve i => some (i, none)
  | _ => none

/-- What such a call may return in the step from `q` to `q'`. -/
def Settles (q q' : Queue T) : Option T → Answer T → Prop
  | some x, .accepted p y => y = x ∧ q'.accepted = q.accepted ++ [(p, x)]
  | some x, .full y => y = x ∧ q.consumerLive = true
  | some x, .disconnected y => y = x ∧ q.consumerLive = false
  | none, .granted j => q.handles.get j = none ∧ q'.handles.get j = some .reservation
  | none, .refused => True
  | _, _ => False

def Queue.NoRoom (R : Ring) (q : Queue T) : Prop :=
  R.capacity ≤ R.layout.distance (R.layout.positionOf q.claim) q.head + R.layout.reservedOf q.claim

/-- Handle `i` had begun to push `x`, and there was no room at a later step that came before `t`. -/
def RoomRefused (R : Ring) (ticks : List (Tick T)) (t : Tick T) (i : HandleId) (x : T) : Prop :=
  ∃ t₀ ∈ ticks, ∃ t' ∈ ticks, t₀.event = .push i x ∧ t₀.before.time < t'.before.time ∧
    t'.before.time < t.before.time ∧ t'.before.NoRoom R

def PushOk (R : Ring) (ticks : List (Tick T)) (q : Queue T) : Pc T → Prop
  | .pushRoom call word => ∃ t ∈ ticks, call.start < t.before.time ∧ t.before.claim = word
  | .pushReread call word =>
    ∃ t ∈ ticks, call.start < t.before.time ∧ t.before.claim = word ∧
      (R.layout.positionOf word = q.claimed.length → t.before.NoRoom R)
  | .pushRefused call => ∃ t ∈ ticks, call.start < t.before.time ∧ t.before.NoRoom R
  | _ => True

structure FullOk (R : Ring) (ticks : List (Tick T)) (q : Queue T) : Prop where
  times : ∀ t ∈ ticks, t.before.time < q.time
  heads : ∀ t ∈ ticks, t.before.head ≤ q.head
  begun : ∀ i pc call, q.handles.get i = some pc → pc.call = some call →
    ∃ t ∈ ticks, t.event = .push i call.item ∧ t.before.time = call.start
  calls : ∀ i pc, q.handles.get i = some pc → PushOk R ticks q pc

/-! ## What a step does to the calls of push -/

def PushNext (R : Ring) (q : Queue T) (pc pc' : Pc T) : Prop :=
  pc'.call = pc.call ∧
    match pc' with
    | .pushRoom _ word => word = q.claim
    | .pushReread call word =>
      pc = .pushRoom call word ∧
        q.hasRoomBeyondReservations R (R.layout.positionOf word) (R.layout.reservedOf word) = false
    | .pushRefused call => pc = .pushReread call q.claim
    | _ => True

section Handles

variable {i j i' : HandleId} {weak : Bool} {pc pc' pc₁ : Pc T} {c : Option T} {a : Answer T}

/-- Handle `i`, at `pc` in a call of `c`, is still in it after the step, or the step has its answer. -/
def Goes (q q' : Queue T) (i : HandleId) (pc : Pc T) (c : Option T) : Prop :=
  (∃ pc', q'.handles.get i = some pc' ∧ pc'.pending = some c) ∨
    ∃ a, q'.answers = q.answers ++ [(i, a)] ∧ Settles q q' c a ∧
      ∀ x, a = .full x → ∃ call, pc = .pushRefused call ∧ call.item = x

structure Moved (R : Ring) (q : Queue T) (i : HandleId) (pc : Pc T) (q' : Queue T) : Prop where
  handles : ∀ {i' pc'}, q'.handles.get i' = some pc' →
    q.handles.get i' = some pc' ∨ pc'.call = none ∨ i' = i ∧ PushNext R q pc pc'
  other : ∀ {i' pc'}, i' ≠ i → q.handles.get i' = some pc' → q'.handles.get i' = some pc'
  goes : ∀ {c}, pc.pending = some c → Goes q q' i pc c

theorem quiet_insert {P : Prop} (hget : (q.handles.insert i pc₁).get i'=some pc')
    (hcall : pc₁.call=none) : q.handles.get i'=some pc' ∨ pc'.call=none ∨ P := by
  rcases of_insert hget with ⟨-,rfl⟩ | hget
  · exact .inr (.inl hcall)
  · exact .inl hget

theorem Moved.insert (hhandles : q'.handles=q.handles.insert i pc₁)
    (hnext : pc₁.call=none ∨ PushNext R q pc pc₁)
    (hgoes : ∀ {c},pc.pending=some c → pc₁.pending=some c ∨ Goes q q' i pc c) : Moved R q i pc q' where
  handles := fun hget=>by
    rw [hhandles] at hget
    rcases of_insert hget with ⟨hsame,rfl⟩ | hget
    · exact .inr (hnext.imp id fun h=>⟨hsame,h⟩)
    · exact .inl hget
  other:=fun hne hget=>by
    rw [hhandles]
    exact (get_insert_of_ne _ _ hne).trans hget
  goes:=fun hc=>(hgoes hc).elim (fun h=>.inl ⟨pc₁,by rw [hhandles]; exact get_insert_self ..,h⟩) id

theorem Moved.returned (hhandles : q'.handles=q.handles.insert i pc₁) (hcall : pc₁.call=none)
    (hc : pc.pending=some c) (hanswers : q'.answers=q.answers++[(i,a)]) (hsettles : Settles q q' c a)
    (hfull : ∀ x,a=.full x → ∃ call,pc=.pushRefused call ∧ call.item=x) : Moved R q i pc q' :=
  .insert hhandles (.inl hcall) fun hc'=>.inr (.inr ⟨a,hanswers,
    Option.some.inj (hc.symm.trans hc') ▸ hsettles,hfull⟩)

theorem stepHandle_moved (hget : q.handles.get i=some pc)
    (hstep : q.stepHandle R i j weak pc=some q') : Moved R q i pc q' := by
  cases pc with
  | producer | reservation=>cases hstep
  | pushLoad call =>
    cases hstep
    exact .insert rfl (.inr ⟨rfl,rfl⟩) .inl
  | pushRoom call word =>
    cases hstep
    split_ifs with hroom
    · exact .insert rfl (.inr ⟨rfl,trivial⟩) .inl
    · exact .insert rfl (.inr ⟨rfl,rfl,Bool.eq_false_iff.mpr hroom⟩) .inl
  | pushReread call word =>
    cases hstep
    split_ifs with hword
    · exact .insert rfl (.inr ⟨rfl,by rw [hword]⟩) .inl
    · exact .insert rfl (.inr ⟨rfl,rfl⟩) .inl
  | pushRefused call =>
    cases hstep
    split_ifs with hlive
    · exact .returned rfl rfl rfl rfl ⟨rfl,hlive⟩ fun x hfull=>⟨call,rfl,Answer.full.inj hfull⟩
    · exact .returned rfl rfl rfl rfl ⟨rfl,Bool.eq_false_iff.mpr hlive⟩ fun x hfull=>by cases hfull
  | pushLive call word =>
    cases hstep
    split_ifs with hlive
    · exact .insert rfl (.inr ⟨rfl,trivial⟩) .inl
    · exact .returned rfl rfl rfl rfl ⟨rfl,Bool.eq_false_iff.mpr hlive⟩ fun x hfull=>by cases hfull
  | pushClaim call word =>
    cases hstep
    split_ifs
    · exact .insert rfl (.inl rfl) .inl
    · exact .insert rfl (.inr ⟨rfl,rfl⟩) .inl
  | reserveRoom word | reserveReread word =>
    cases hstep
    split_ifs <;> first
      | exact .insert rfl (.inl rfl) .inl
      | exact .returned rfl rfl rfl rfl trivial fun x hfull=>by cases hfull
  | reserveClaim word | sendClaim item word | dropClaim word =>
    cases hstep
    split_ifs <;> exact .insert rfl (.inl rfl) .inl
  | reserveCount =>
    obtain ⟨hnew,⟨⟩⟩:=Option.ite_none_right_eq_some.mp hstep
    have hj:=Option.isNone_iff_eq_none.mp hnew
    refine ⟨fun hget'=>?_,fun hne hget'=>?_,fun hc=>.inr ⟨_,rfl,?_,fun x hfull=>by cases hfull⟩⟩
    · rcases quiet_insert (P:=False) (q:=q.set i .producer) hget' rfl with hold | hcall | hno
      · exact quiet_insert hold rfl
      · exact .inr (.inl hcall)
      · exact hno.elim
    · refine (get_insert_of_ne _ _ ?_).trans ((get_insert_of_ne _ _ hne).trans hget')
      rintro rfl
      exact absurd (hget'.symm.trans hj) (by simp)
    · cases hc
      exact ⟨hj,get_insert_self ..⟩
  | sendLive item =>
    cases hstep
    split_ifs with hlive
    · exact .insert rfl (.inl rfl) .inl
    · exact .returned rfl rfl rfl rfl ⟨rfl,Bool.eq_false_iff.mpr hlive⟩ fun x hfull=>by cases hfull
  | publish reserved position item phase =>
    cases phase with
    | wait =>
      cases hstep
      split_ifs
      · exact .insert rfl (.inl rfl) .inl
      · exact ⟨.inl,fun _=>id,fun hc=>.inl ⟨_,hget,hc⟩⟩
    | write =>
      cases hstep
      exact .insert rfl (.inl rfl) .inl
    | store =>
      cases hstep
      exact .returned rfl (by cases reserved <;> rfl) rfl rfl ⟨rfl,rfl⟩ fun x hfull=>by cases hfull
  | release =>
    cases hstep
    exact ⟨fun hget'=>.inl (get_of_erase hget'),
      fun hne hget'=>(get_erase ..).trans ((if_neg hne).trans hget'),fun hc=>by cases hc⟩
  | _ =>
    cases hstep
    exact .insert rfl (.inl rfl) .inl

theorem act_handles {event : Event T} (hstep : q.act R event=some q')
    (hget : q'.handles.get i'=some pc') : q.handles.get i'=some pc' ∨ pc'.call=none ∨
      (∃ item,event=.push i' item ∧ pc'=.pushLoad ⟨item,q.time⟩) ∨
      ∃ pc,q.handles.get i'=some pc ∧ PushNext R q pc pc' := by
  cases event with
  | push i item =>
    obtain ⟨-,⟨⟩⟩:=Option.ite_none_right_eq_some.mp hstep
    rw [Queue.set,get_insert] at hget
    split_ifs at hget with hsame
    · cases hget
      exact .inr (.inr (.inl ⟨item,by rw [hsame],rfl⟩))
    · exact .inl hget
  | handle i j weak =>
    obtain ⟨pc,hold,hstep⟩:=Queue.act_handle hstep
    rcases (stepHandle_moved hold hstep).handles hget with hsame | hcall | ⟨rfl,hnext⟩
    · exact .inl hsame
    · exact .inr (.inl hcall)
    · exact .inr (.inr (.inr ⟨pc,hold,hnext⟩))
  | consumer =>
    obtain ⟨pc, -,hstep⟩:=Queue.act_consumer hstep
    rw [(Queue.stepConsumer_frame hstep).2] at hget
    exact .inl hget
  | pop | dropConsumer =>
    simp only [Queue.act] at hstep
    split at hstep <;> cases hstep
    exact .inl hget
  | dispose =>
    obtain ⟨-,⟨⟩⟩:=Option.ite_none_right_eq_some.mp hstep
    exact .inl hget
  | _ =>
    obtain ⟨-,⟨⟩⟩:=Option.ite_none_right_eq_some.mp hstep
    exact quiet_insert hget rfl

/-! ## What the calls return -/

theorem act_begins {event : Event T} (hstep : q.act R event=some q')
    (hbegins : event.begins=some (i,c)) : ∃ pc,q'.handles.get i=some pc ∧ pc.pending=some c := by
  cases event with
  | push | send | reserve =>
    cases hbegins
    obtain ⟨-,⟨⟩⟩:=Option.ite_none_right_eq_some.mp hstep
    exact ⟨_,get_insert_self ..,rfl⟩
  | _=>cases hbegins

theorem act_settles {event : Event T} (hstep : q.act R event=some q')
    (hget : q.handles.get i=some pc) (hc : pc.pending=some c) : Goes q q' i pc c := by
  have hbegins : ∀ {i₁ : HandleId} {p : Pc T → Bool} (pc₁ : Pc T),p pc=false →
      (q.handles.get i₁).any p=true → (q.handles.insert i₁ pc₁).get i=some pc:=by
    intro i₁ p pc₁ hp hany
    refine (get_insert_of_ne _ _ ?_).trans hget
    rintro rfl
    rw [hget,Option.any_some,hp] at hany
    cases hany
  have hproducer : pc.isProducer=false:=by cases pc <;> first | rfl | cases hc
  have hreservation : pc.isReservation=false:=by cases pc <;> first | rfl | cases hc
  cases event with
  | handle i₁ j weak =>
    obtain ⟨pc₁,hget₁,hstep⟩:=Queue.act_handle hstep
    by_cases hsame : i=i₁
    · subst hsame
      cases hget.symm.trans hget₁
      exact (stepHandle_moved hget hstep).goes hc
    · exact .inl ⟨pc,(stepHandle_moved hget₁ hstep).other hsame hget,hc⟩
  | push i₁ | reserve i₁ | dropProducer i₁ =>
    obtain ⟨hany,⟨⟩⟩:=Option.ite_none_right_eq_some.mp hstep
    exact .inl ⟨pc,hbegins _ hproducer hany,hc⟩
  | send i₁ | dropReservation i₁ =>
    obtain ⟨hany,⟨⟩⟩:=Option.ite_none_right_eq_some.mp hstep
    exact .inl ⟨pc,hbegins _ hreservation hany,hc⟩
  | clone i₁ j =>
    obtain ⟨hany,⟨⟩⟩:=Option.ite_none_right_eq_some.mp hstep
    refine .inl ⟨pc,(get_insert_of_ne _ _ ?_).trans hget,hc⟩
    rintro rfl
    rw [hget] at hany
    cases hany.2
  | consumer =>
    obtain ⟨pc₁, -,hstep⟩:=Queue.act_consumer hstep
    exact .inl ⟨pc,by rw [(Queue.stepConsumer_frame hstep).2]; exact hget,hc⟩
  | pop | dropConsumer =>
    simp only [Queue.act] at hstep
    split at hstep <;> cases hstep
    exact .inl ⟨pc,hget,hc⟩
  | dispose =>
    obtain ⟨-,⟨⟩⟩:=Option.ite_none_right_eq_some.mp hstep
    exact .inl ⟨pc,hget,hc⟩

end Handles

theorem Queue.Ok.act_head (h : q.Ok R) (hn : q.claimed.length<2 ^ R.layout.positionBits)
    {event : Event T} (hstep : q.act R event=some q') : q.head ≤ q'.head := by
  cases event with
  | handle i j weak =>
    obtain ⟨pc, -,hstep⟩:=Queue.act_handle hstep
    exact (stepHandle_frame hstep).2.ge
  | consumer =>
    obtain ⟨pc,hpc,hstep⟩:=Queue.act_consumer hstep
    have hconsumer:=h.consumer
    rw [Queue.ConsumerOk,hpc] at hconsumer
    cases pc with
    | idle=>cases hstep
    | takeRead position =>
      simp only [Queue.stepConsumer] at hstep
      split at hstep <;> cases hstep
      exact le_rfl
    | takeStore position item =>
      cases hstep
      have hlt:=h.accepted_lt hconsumer.2.1
      show q.head ≤ R.layout.advance position
      rw [ClaimLayout.advance_eq (by omega),hconsumer.1]
      exact Nat.le_succ _
    | _ =>
      cases hstep
      exact le_rfl
  | pop | dropConsumer =>
    simp only [Queue.act] at hstep
    split at hstep <;> cases hstep
    exact le_rfl
  | _ =>
    obtain ⟨-,⟨⟩⟩:=Option.ite_none_right_eq_some.mp hstep
    exact le_rfl

theorem PushOk.of_call_none {pc : Pc T} (h : pc.call=none) : PushOk R ticks q pc := by
  cases pc with
  | pushRoom call word | pushReread call word | pushRefused call=>cases h
  | _=>trivial

theorem PushOk.mono {pc : Pc T} (h : PushOk R ticks q pc) (hpc : q.PcOk R pc) (tick : Tick T)
    (hgrows : q.claimed <+: q'.claimed) (hn : q.claimed.length<2 ^ R.layout.positionBits) :
    PushOk R (tick::ticks) q' pc := by
  cases pc with
  | pushRoom call word | pushRefused call =>
    obtain ⟨t,ht,hread⟩:=h
    exact ⟨t,mem_cons_of_mem _ ht,hread⟩
  | pushReread call word =>
    obtain ⟨t,ht,hstart,hword,hfull⟩:=h
    refine ⟨t,mem_cons_of_mem _ ht,hstart,hword,fun hend=>hfull ?_⟩
    have hle:=Queue.Seen.positionOf_le hpc hn
    have hlength:=hgrows.length_le
    omega
  | _=>trivial

theorem noRoom_of_check (hok : q.Ok R) (hn : q.claimed.length<2 ^ R.layout.positionBits) {t : Tick T}
    (hhead : t.before.head ≤ q.head)
    (hroom : q.hasRoomBeyondReservations R (R.layout.positionOf t.before.claim)
      (R.layout.reservedOf t.before.claim)=false)
    (hend : R.layout.positionOf t.before.claim=q.claimed.length) : t.before.NoRoom R := by
  have hnot:=of_decide_eq_false hroom
  have hle:=hok.head
  rw [hend,ClaimLayout.distance_eq hle hn] at hnot
  unfold Queue.NoRoom
  rw [hend,ClaimLayout.distance_eq (hhead.trans hle) hn]
  omega

theorem FullOk.step (h : FullOk R ticks q) (hok : q.Ok R)
    (hn : q.claimed.length<2 ^ R.layout.positionBits) {event : Event T}
    (hstep : q.step R event=some q') : FullOk R (⟨q,event,q'⟩::ticks) q' := by
  obtain ⟨q₁,hact,rfl⟩:=Queue.step_act hstep
  have hgrows:=Queue.act_claimed hact
  have hlength:=hgrows.length_le
  have hhead:=hok.act_head hn hact
  refine {
    times:=fun t ht=>?_
    heads:=fun t ht=>?_
    begun:=fun i pc' call hget hcall=>?_
    calls:=fun i pc' hget=>?_ }
  · rcases mem_cons.mp ht with rfl | hold
    · exact Nat.lt_succ_self _
    · exact (h.times t hold).trans (Nat.lt_succ_self _)
  · rcases mem_cons.mp ht with rfl | hold
    · exact hhead
    · exact (h.heads t hold).trans hhead
  · rcases act_handles hact hget with hold | hnone | ⟨item,rfl,rfl⟩ | ⟨pc,hold,hnext⟩
    · obtain ⟨t,ht,hbegun⟩:=h.begun i pc' call hold hcall
      exact ⟨t,mem_cons_of_mem _ ht,hbegun⟩
    · rw [hnone] at hcall
      cases hcall
    · cases hcall
      exact ⟨_,mem_cons_self,rfl,rfl⟩
    · obtain ⟨t,ht,hbegun⟩:=h.begun i pc call hold (hnext.1.symm.trans hcall)
      exact ⟨t,mem_cons_of_mem _ ht,hbegun⟩
  · rcases act_handles hact hget with hold | hnone | ⟨item,rfl,rfl⟩ | ⟨pc,hold,hcall,hnext⟩
    · exact (h.calls i pc' hold).mono (hok.handles i pc' hold) _ hgrows hn
    · exact PushOk.of_call_none hnone
    · trivial
    · have hstart : ∀ call,pc'.call=some call → call.start < q.time:=by
        intro call hpc'
        obtain ⟨t,ht, -,htime⟩:=h.begun i pc call hold (hcall.symm.trans hpc')
        exact htime ▸ h.times t ht
      have hcalls:=h.calls i pc hold
      have hseen:=hok.handles i pc hold
      cases pc' with
      | pushRoom call word=>exact ⟨_,mem_cons_self,hstart call rfl,hnext.symm⟩
      | pushReread call word =>
        obtain ⟨rfl,hroom⟩:=hnext
        obtain ⟨t,ht,htime,rfl⟩:=hcalls
        refine ⟨t,mem_cons_of_mem _ ht,htime,rfl,fun hend=>?_⟩
        have hle:=Queue.Seen.positionOf_le hseen hn
        have hend' : R.layout.positionOf t.before.claim=q₁.claimed.length:=hend
        exact noRoom_of_check hok hn (h.heads t ht) hroom (by omega)
      | pushRefused call =>
        obtain rfl:=hnext
        obtain ⟨t,ht,htime, -,hfull⟩:=hcalls
        exact ⟨t,mem_cons_of_mem _ ht,htime,hfull (hok.positionOf_claim hn)⟩
      | _=>trivial

theorem FullOk.start : FullOk R [] (Queue.new : Queue T) where
  times := fun t ht=>absurd ht not_mem_nil
  heads:=fun t ht=>absurd ht not_mem_nil
  begun:=fun i pc call hget hcall=>by
    rw [Queue.new_handle hget] at hcall
    cases hcall
  calls:=fun i pc hget=>by
    rw [Queue.new_handle hget]
    trivial

theorem Run.fullOk (run : Run R ticks q) (hn : q.claimed.length<2 ^ R.layout.positionBits) :
    FullOk R ticks q := by
  induction run with
  | start hinit=>exact hinit ▸ FullOk.start
  | next run event hstep ih =>
    obtain ⟨q₁,hact,rfl⟩:=Queue.step_act hstep
    have hlt:=(Queue.act_claimed hact).length_le.trans_lt hn
    exact (ih hlt).step (Run.ok run hlt) hlt hstep

theorem Run.returns (run : Run R ticks q) (hn : q.claimed.length<2 ^ R.layout.positionBits) {t : Tick T}
    (ht : t ∈ ticks) {i : HandleId} {pc : Pc T} {c : Option T} (hget : t.before.handles.get i=some pc)
    (hc : pc.pending=some c) : (∃ pc',t.after.handles.get i=some pc' ∧ pc'.pending=some c) ∨
      ∃ a,t.after.answers=t.before.answers++[(i,a)] ∧ Settles t.before t.after c a ∧
        ∀ x,a=.full x → RoomRefused R ticks t i x := by
  induction run with
  | start=>cases ht
  | @next ticks q q' run event hstep ih =>
    obtain ⟨q₁,hact,rfl⟩:=Queue.step_act hstep
    have hlt:=(Queue.act_claimed hact).length_le.trans_lt hn
    rcases mem_cons.mp ht with rfl | hold
    · obtain hgoes | ⟨a,hanswer,hsettles,hrefused⟩:=act_settles hact hget hc
      · exact .inl hgoes
      · refine .inr ⟨a,hanswer,hsettles,fun x hfull=>?_⟩
        have h:=Run.fullOk run hlt
        obtain ⟨call,rfl,rfl⟩:=hrefused x hfull
        obtain ⟨t₀,ht₀,hevent,htime⟩:=h.begun _ _ call hget rfl
        obtain ⟨t',ht',hstart,hroom⟩:=h.calls _ _ hget
        exact ⟨t₀,mem_cons_of_mem _ ht₀,t',mem_cons_of_mem _ ht',hevent,htime ▸ hstart,h.times t' ht',hroom⟩
    · obtain hgoes | ⟨a,hanswer,hsettles,hrefused⟩:=ih hlt hold
      · exact .inl hgoes
      · refine .inr ⟨a,hanswer,hsettles,fun x hfull=>?_⟩
        obtain ⟨t₀,ht₀,t',ht',hrest⟩:=hrefused x hfull
        exact ⟨t₀,mem_cons_of_mem _ ht₀,t',mem_cons_of_mem _ ht',hrest⟩

theorem Run.disposes (run : Run R ticks q) (hn : q.claimed.length<2 ^ R.layout.positionBits)
    (hnone : q.handles.size=0) (hconsumer : q.consumer=none) (hlive : q.disposed=none) :
    ∃ q',q.step R .dispose=some q' ∧ q'.disposed=some (q.claimed.drop q.head) := by
  have h:=run.ok hn
  have hroom:=h.room
  have hdrain:=h.drain hn hnone (R.capacity+1) q.head le_rfl h.head (by omega)
  refine ⟨_,by simp [Queue.step,Queue.act,hnone,hconsumer,hlive]; rfl,?_⟩
  show some (q.drain R (R.layout.positionOf q.claim) (R.capacity+1) q.head)=_
  rw [h.positionOf_claim hn,hdrain]

def twoSlots : Ring := ⟨.balanced, 64, 1, by decide, by decide⟩

theorem twoSlots_run : Run (T := ℕ) twoSlots [] .new := .start rfl

def refusedPush : List (Event ℕ) :=
  .reserve 0 :: List.replicate 4 (.handle 0 1 false) ++
    .push 0 7 :: List.replicate 7 (.handle 0 2 false) ++
    .push 0 8 :: List.replicate 4 (.handle 0 2 false) ++
    .send 1 9 :: List.replicate 7 (.handle 1 2 false) ++
    .pop :: List.replicate 4 .consumer

/-- Two handles never publish to one slot at a time. -/
theorem publishers_apart (run : Run R ticks q) (hn : q.claimed.length < 2 ^ R.layout.positionBits) :
    ∀ i pc p i' pc' p', q.handles.get i = some pc → pc.position = some p →
      q.handles.get i' = some pc' → pc'.position = some p' → i ≠ i' → R.slot p ≠ R.slot p' := by
  intro i pc p i' pc' p' hget hp hget' hp' hne
  have h:=run.ok hn
  obtain ⟨hle,hlt, -⟩:=h.publishes hget hp
  obtain ⟨hle',hlt', -⟩:=h.publishes hget' hp'
  refine h.slot_ne hle hlt hle' hlt' ?_
  rintro rfl
  exact hne (h.publisher_unique hget hp hget' hp')

/-- A producer publishes 7 while a reservation publishes 9. -/
def twoPublishing : List (Event ℕ) :=
  .reserve 0 :: List.replicate 4 (.handle 0 1 false) ++
    .push 0 7 :: List.replicate 5 (.handle 0 2 false) ++ .send 1 9 :: List.replicate 4 (.handle 1 2 false)

theorem publishers_apart_two : ∃ ticks q, Run (T := ℕ) twoSlots ticks q ∧
    q.handles.get 0 = some (.publish false 0 7 .write) ∧ q.handles.get 1 = some (.publish true 1 9 .write) ∧
    twoSlots.slot 0 ≠ twoSlots.slot 1 := by
  obtain ⟨ticks,q,run,hcheck⟩:=twoSlots_run.play (plainly _) named_allows twoPublishing
    (fun _ q=>decide (q.claimed=[7,9] ∧ q.handles.get 0=some (.publish false 0 7 .write) ∧
      q.handles.get 1=some (.publish true 1 9 .write))) (by decide +kernel)
  obtain ⟨hclaimed,hproducer,hreservation⟩:=of_decide_eq_true hcheck
  exact ⟨ticks,q,run,hproducer,hreservation,publishers_apart run (by rw [hclaimed]; decide) 0 _ 0 1 _ 1
    hproducer rfl hreservation rfl (by decide)⟩

end WindowsThreadpoolSys.WaitableQueues
