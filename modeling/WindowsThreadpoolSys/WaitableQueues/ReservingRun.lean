import WindowsThreadpoolSys.WaitableQueues.Reserving

/-! The consumer's steps, the walk of the last drop, and from all the steps together what holds in every
queue of a run. -/
namespace WindowsThreadpoolSys.WaitableQueues
open Library List Table Option ClaimLayout Queue

variable {T : Type} {R : Ring} {q q' : Queue T}

namespace Queue

/-! ## The consumer -/

theorem Ok.setConsumer (h : Ok R q) (hlive : q.disposed=none) (live : Bool)
    (pc : Option (ConsumerPc T)) (hpc : ({ q with consumer := pc } : Queue T).ConsumerOk) :
    Ok R { q with consumerLive := live,consumer := pc } :=
    { h with
      consumer:=hpc
      disposed:=fun items hd=>absurd (hd.symm.trans hlive) (by simp) }

theorem Ok.head_accepted (h : Ok R q) (hn : q.claimed.length<2 ^ R.layout.positionBits)
    (hsequence : (q.slots (R.slot q.head)).sequence=R.layout.advance q.head) :
    q.head ∈ q.acceptedAt := by
  by_contra hnot
  have hhead:=h.head
  by_cases hwrap : q.head+1<2 ^ R.layout.positionBits
  · rw [advance_eq hwrap] at hsequence
    exact h.unpublished hnot hsequence
  · -- The next position would be 0, which only the first slot says, and the head is at an odd position.
    have hlast : q.head+1=2 ^ R.layout.positionBits:=by omega
    rw [advance_last hlast] at hsequence
    rcases h.sequences _ (R.slot_lt q.head) with hindex | ⟨p, -, -,hp⟩
    · have hslot : q.head % R.capacity=0:=by
        rw [← Ring.slot_eq,← hindex,hsequence]
      have heven : 2 ∣ R.capacity:=dvd_pow_self 2 (by have:=R.shift_pos; omega)
      have hpow : 2 ∣ 2 ^ R.layout.positionBits:=dvd_pow_self 2 (by have:=R.layout.count_read; omega)
      have hdvd : 2 ∣ q.head:=heven.trans (Nat.dvd_of_mod_eq_zero hslot)
      omega
    · omega

theorem Ok.advanceHead (h : Ok R q) (hn : q.claimed.length<2 ^ R.layout.positionBits)
    (hlive : q.disposed=none) {item : T} (haccepted : q.head ∈ q.acceptedAt)
    (hitem : q.claimed[q.head]? = some item) : Ok R { q with
      head := R.layout.advance q.head
      received := q.received++[item]
      consumer := some .idle } := by
  have hlt:=h.accepted_lt haccepted
  rw [advance_eq (by omega)]
  have hroom:=h.room
  refine { h with
    head:=hlt
    room:=?_
    received:=?_
    passed:=fun p hp=>?_
    slots:=fun p hp hle=>h.slots p hp (Nat.le_of_succ_le hle)
    handles:=fun i pc hget=>?_
    consumer:=trivial
    disposed:=fun items hd=>absurd (hd.symm.trans hlive) (by simp) }
  · show q.claimed.length-(q.head+1)+q.outstanding ≤ R.capacity
    omega
  · show q.received++[item]=q.claimed.take (q.head+1)
    rw [take_add_one,hitem,h.received]
    rfl
  · rcases Nat.lt_succ_iff_lt_or_eq.mp hp with hold | rfl
    · exact h.passed p hold
    · exact haccepted
  · exact (h.handles i pc hget).mono (prefix_refl _) hn (Nat.le_succ _) fun _ _ _ _=>rfl

theorem Ok.read (h : Ok R q) {position : ℕ} (hpc : q.consumer=some (.takeRead position)) :
    (q.slots (R.slot position)).value=q.claimed[position]? := by
  have hconsumer:=h.consumer
  rw [ConsumerOk,hpc] at hconsumer
  exact (h.slots position hconsumer.2 hconsumer.1.ge).2

theorem Ok.stepConsumer (h : Ok R q) (hn : q.claimed.length<2 ^ R.layout.positionBits)
    {pc : ConsumerPc T} (hpc : q.consumer=some pc) (hstep : q.stepConsumer R pc=some q') :
    Ok R q' := by
  have hlive:=h.live_of_consumer hpc
  have hconsumer:=h.consumer
  rw [ConsumerOk,hpc] at hconsumer
  cases pc with
  | idle=>cases hstep
  | takeLoad =>
    cases hstep
    exact h.setConsumer hlive _ _ rfl
  | takeSequence position =>
    cases hstep
    have hposition : position=q.head:=hconsumer
    subst hposition
    by_cases hsequence : (q.slots (R.slot q.head)).sequence=R.layout.advance q.head
    · rw [if_pos hsequence]
      exact h.setConsumer hlive _ _ ⟨rfl,h.head_accepted hn hsequence⟩
    · rw [if_neg hsequence]
      exact h.setConsumer hlive _ _ trivial
  | takeRead position =>
    simp only [Queue.stepConsumer,h.read hpc] at hstep
    split at hstep
    · cases hstep
    · rename_i item hitem
      cases hstep
      exact h.setConsumer hlive _ _ ⟨hconsumer.1,hconsumer.2,hitem⟩
  | takeStore position item =>
    cases hstep
    obtain ⟨hposition,haccepted,hitem⟩:=hconsumer
    subst hposition
    exact h.advanceHead hn hlive haccepted hitem
  | popEmpty =>
    cases hstep
    exact h.setConsumer hlive _ _ trivial

/-! ## The last drop -/

theorem Ok.all_accepted (h : Ok R q) (hnone : q.handles.size=0) {p : ℕ} (hp : p < q.claimed.length) :
    p ∈ q.acceptedAt := by
  by_contra hnot
  have hone:=h.publishing p
  rw [if_pos ⟨hp,hnot⟩] at hone
  have hzero : q.publishing p=0:=by
    refine Table.count_eq_zero.mpr fun i pc hget=>?_
    rw [get_of_size_zero hnone i] at hget
    cases hget
  omega

theorem Ok.drain (h : Ok R q) (hn : q.claimed.length<2 ^ R.layout.positionBits)
    (hnone : q.handles.size=0) (fuel : ℕ) : ∀ position,q.head ≤ position →
    position ≤ q.claimed.length → q.claimed.length-position < fuel →
      q.drain R q.claimed.length fuel position=q.claimed.drop position := by
  induction fuel with
  | zero=>omega
  | succ fuel ih =>
    intro position hle hlt hfuel
    unfold Queue.drain
    by_cases hend : position=q.claimed.length
    · rw [if_pos hend,hend,drop_length]
    · have hat : position < q.claimed.length:=by omega
      obtain ⟨hsequence,hvalue⟩:=h.slots position (h.all_accepted hnone hat) hle
      have hadvance : R.layout.advance position=position+1:=advance_eq (by omega)
      rw [if_neg hend,hadvance,if_pos hsequence,hvalue,List.getElem?_eq_getElem hat,
        ih (position+1) (by omega) hat (by omega),drop_eq_getElem_cons hat]
      rfl

theorem Ok.dispose (h : Ok R q) (hn : q.claimed.length<2 ^ R.layout.positionBits)
    (hnone : q.handles.size=0) (hconsumer : q.consumer=none) : Ok R { q with
      disposed := some (q.drain R (R.layout.positionOf q.claim) (R.capacity+1) q.head) } := by
  have hroom:=h.room
  have hdrain:=h.drain hn hnone (R.capacity+1) q.head le_rfl h.head (by omega)
  rw [h.positionOf_claim hn,hdrain]
  exact { h with
    disposed:=fun items hd=>by
      refine ⟨hnone,hconsumer,?_⟩
      rw [← Option.some.inj hd]
      show q.received++q.claimed.drop q.head=q.claimed
      rw [h.received,take_append_drop] }

section Step

variable {i j : HandleId} {weak : Bool} {pc : Pc T}

theorem Ok.clear_of_room (h : Ok R q) (hn : q.claimed.length<2 ^ R.layout.positionBits) {word : ℕ}
    (hroom : q.hasRoomBeyondReservations R (R.layout.positionOf word) (R.layout.reservedOf word)=true) :
    q.Clear R word := by
  intro hat
  have hlt:=of_decide_eq_true hroom
  rw [hat,distance_eq h.head hn] at hlt
  omega

theorem Ok.stepHandle (h : Ok R q) (hget : q.handles.get i=some pc)
    (hstep : q.stepHandle R i j weak pc=some q')
    (hn : q.claimed.length<2 ^ R.layout.positionBits)
    (hn' : q'.claimed.length<2 ^ R.layout.positionBits) : Ok R q' := by
  have hpc:=h.handles i pc hget
  have hcounted:=h.counted
  have hroom:=h.room
  cases pc with
  | producer | reservation=>cases hstep
  | pushLoad call | reserveLoad =>
    cases hstep
    exact h.set hget rfl rfl h.seen_claim
  | pushRoom call word =>
    cases hstep
    split_ifs with hfree
    · exact h.set hget rfl rfl ⟨hpc,h.clear_of_room hn hfree⟩
    · exact h.set hget rfl rfl hpc
  | pushReread call word =>
    cases hstep
    split_ifs
    · exact h.set hget rfl rfl trivial
    · exact h.set hget rfl rfl h.seen_claim
  | reserveReread word =>
    cases hstep
    split_ifs
    · exact h.return_ hget rfl rfl _
    · exact h.set hget rfl rfl h.seen_claim
  | pushRefused call =>
    cases hstep
    exact h.return_ hget rfl rfl _
  | sendLoad item | dropLoad =>
    cases hstep
    exact h.set hget rfl rfl trivial
  | pushLive call word =>
    cases hstep
    split_ifs
    · exact h.set hget rfl rfl hpc
    · exact h.return_ hget rfl rfl _
  | pushClaim call word =>
    cases hstep
    split_ifs at hn' ⊢ with hword
    · have hclear:=hpc.2
      rw [← hword.1,Clear,h.positionOf_claim hn,h.reservedOf_claim] at hclear
      have hfree:=hclear rfl
      refine h.claimNext hget false call.item hword.1 rfl ?_ ?_ ?_
      · rw [← hword.1,h.reservedOf_claim]
        rfl
      · rw [← hword.1,h.reservedOf_claim]
        omega
      · simpa [Queue.claimNext] using hn'
    · exact h.set hget rfl rfl h.seen_claim
  | reserveRoom word =>
    cases hstep
    split_ifs with hfree hmax
    · exact h.return_ hget rfl rfl _
    · exact h.set hget rfl rfl ⟨⟨hpc,h.clear_of_room hn hfree⟩,Nat.lt_of_not_le hmax⟩
    · exact h.set hget rfl rfl hpc
  | reserveClaim word =>
    cases hstep
    split_ifs with hword
    · obtain ⟨⟨-,hclear⟩,hmax⟩:=hpc
      rw [← hword.1,Clear,h.positionOf_claim hn,h.reservedOf_claim] at hclear
      have hfree:=hclear rfl
      rw [← hword.1,h.reservedOf_claim] at hmax
      rw [← hword.1,h.reservedOf_claim,h.positionOf_claim hn]
      exact h.recount hget rfl hmax (by omega) rfl trivial
    · exact h.set hget rfl rfl h.seen_claim
  | reserveCount =>
    obtain ⟨hnew,⟨⟩⟩:=ite_none_right_eq_some.mp hstep
    exact (h.grant hget (isNone_iff_eq_none.mp hnew) _).aside _ _
  | sendLive item =>
    cases hstep
    split_ifs
    · exact h.set hget rfl rfl trivial
    · have hset : Ok R (q.set i .dropLoad):=h.set hget rfl rfl trivial
      exact hset.aside _ _
  | sendClaim item word =>
    cases hstep
    have hheld : 0 < q.outstanding:=count_pos.mpr ⟨i,_,hget,rfl⟩
    split_ifs at hn' ⊢ with hword
    · refine h.claimNext hget true item hword.1 rfl ?_ ?_ ?_
      · rw [← hword.1,h.reservedOf_claim]
        exact Nat.sub_add_cancel hheld
      · rw [← hword.1,h.reservedOf_claim]
        omega
      · simpa [Queue.claimNext] using hn'
    · exact h.set hget rfl rfl trivial
  | dropClaim word =>
    cases hstep
    have hheld : 0 < q.outstanding:=count_pos.mpr ⟨i,_,hget,rfl⟩
    split_ifs with hword
    · rw [← hword.1,h.reservedOf_claim,h.positionOf_claim hn]
      exact h.recount hget (Nat.sub_add_cancel hheld) (by omega) (by omega) rfl trivial
    · exact h.set hget rfl rfl trivial
  | publish reserved position item phase =>
    cases phase with
    | wait =>
      cases hstep
      split_ifs
      · exact h.set hget rfl rfl ⟨hpc.1,fun hstore=>by cases hstore⟩
      · exact h
    | write =>
      cases hstep
      refine (h.writeValue hn hget).set hget rfl rfl ⟨hpc.1,fun _=>?_⟩
      simp [Queue.writeValue]
    | store =>
      cases hstep
      have hstored:=h.storeSequence hn hget (show Pc.holds (if reserved then .release else .producer)=false by
        cases reserved <;> rfl) (by cases reserved <;> rfl) fun _=>by cases reserved <;> trivial
      exact hstored.aside _ _
  | release =>
    cases hstep
    exact h.release hget rfl rfl _

theorem stepHandle_frame (hstep : q.stepHandle R i j weak pc=some q') :
    q.claimed <+: q'.claimed ∧ q'.head=q.head := by
  cases pc with
  | producer | reservation=>cases hstep
  | pushClaim call word | sendClaim item word =>
    cases hstep
    split_ifs
    · exact ⟨prefix_append _ _,rfl⟩
    · exact ⟨prefix_refl _,rfl⟩
  | pushLive call word | reserveRoom word | reserveReread word | reserveClaim word | sendLive item
  | dropClaim word =>
    cases hstep
    split_ifs <;> exact ⟨prefix_refl _,rfl⟩
  | reserveCount =>
    obtain ⟨-,⟨⟩⟩:=ite_none_right_eq_some.mp hstep
    exact ⟨prefix_refl _,rfl⟩
  | publish reserved position item phase =>
    cases phase with
    | wait =>
      cases hstep
      split_ifs <;> exact ⟨prefix_refl _,rfl⟩
    | write | store =>
      cases hstep
      exact ⟨prefix_refl _,rfl⟩
  | _ =>
    cases hstep
    exact ⟨prefix_refl _,rfl⟩

end Step

theorem stepConsumer_frame {pc : ConsumerPc T} (hstep : q.stepConsumer R pc=some q') :
    q'.claimed=q.claimed ∧ q'.handles=q.handles := by
  cases pc with
  | idle=>cases hstep
  | takeRead position =>
    simp only [stepConsumer] at hstep
    split at hstep <;> cases hstep
    exact ⟨rfl,rfl⟩
  | _ =>
    cases hstep
    exact ⟨rfl,rfl⟩

theorem act_handle {i j : HandleId} {weak : Bool} (hstep : q.act R (.handle i j weak)=some q') :
    ∃ pc,q.handles.get i=some pc ∧ q.stepHandle R i j weak pc=some q' := by
  simp only [act] at hstep
  split at hstep
  · cases hstep
  · rename_i pc hget
    exact ⟨pc,hget,hstep⟩

theorem act_consumer (hstep : q.act R .consumer=some q') :
    ∃ pc,q.consumer=some pc ∧ q.stepConsumer R pc=some q' := by
  simp only [act] at hstep
  split at hstep
  · cases hstep
  · rename_i pc hpc
    exact ⟨pc,hpc,hstep⟩

theorem get_of_any {i : HandleId} {p : Pc T → Bool} (h : (q.handles.get i).any p=true) :
    ∃ pc,q.handles.get i=some pc ∧ p pc=true := (Option.any_eq_true _ _).mp h

theorem isProducer_eq {pc : Pc T} (h : pc.isProducer=true) : pc=.producer := by
  cases pc with
  | producer=>rfl
  | _=>cases h

theorem isReservation_eq {pc : Pc T} (h : pc.isReservation=true) : pc=.reservation := by
  cases pc with
  | reservation=>rfl
  | _=>cases h

variable {event : Event T}

theorem act_claimed (hstep : q.act R event=some q') : q.claimed <+: q'.claimed := by
  cases event with
  | handle i j weak =>
    obtain ⟨pc, -,hstep⟩:=act_handle hstep
    exact (stepHandle_frame hstep).1
  | consumer =>
    obtain ⟨pc, -,hstep⟩:=act_consumer hstep
    rw [(stepConsumer_frame hstep).1]
  | pop | dropConsumer =>
    simp only [act] at hstep
    split at hstep <;> cases hstep
    exact prefix_refl _
  | _ =>
    obtain ⟨-,⟨⟩⟩:=ite_none_right_eq_some.mp hstep
    exact prefix_refl _

theorem Ok.act (h : Ok R q) (hstep : q.act R event=some q')
    (hn' : q'.claimed.length<2 ^ R.layout.positionBits) : Ok R q' := by
  have hn : q.claimed.length<2 ^ R.layout.positionBits:=(act_claimed hstep).length_le.trans_lt hn'
  cases event with
  | push i item | reserve i | dropProducer i =>
    obtain ⟨hany,hstep⟩:=ite_none_right_eq_some.mp hstep
    obtain ⟨pc,hget,hpc⟩:=get_of_any hany
    obtain rfl:=isProducer_eq hpc
    cases hstep
    exact h.set hget rfl rfl trivial
  | clone i j =>
    obtain ⟨hany,hstep⟩:=ite_none_right_eq_some.mp hstep
    obtain ⟨pc,hget,hpc⟩:=get_of_any hany.1
    cases hstep
    exact h.join hget (isNone_iff_eq_none.mp hany.2) rfl rfl
      (show q.PcOk R .producer from trivial) _
  | send i item | dropReservation i =>
    obtain ⟨hany,hstep⟩:=ite_none_right_eq_some.mp hstep
    obtain ⟨pc,hget,hpc⟩:=get_of_any hany
    obtain rfl:=isReservation_eq hpc
    cases hstep
    exact h.set hget rfl rfl trivial
  | handle i j weak =>
    obtain ⟨pc,hget,hstep⟩:=act_handle hstep
    exact h.stepHandle hget hstep hn hn'
  | pop | dropConsumer =>
    simp only [Queue.act] at hstep
    split at hstep
    · rename_i hpc
      cases hstep
      exact h.setConsumer (h.live_of_consumer hpc) _ _ trivial
    · cases hstep
  | consumer =>
    obtain ⟨pc,hpc,hstep⟩:=act_consumer hstep
    exact h.stepConsumer hn hpc hstep
  | dispose =>
    obtain ⟨hlast,⟨⟩⟩:=ite_none_right_eq_some.mp hstep
    exact h.dispose hn hlast.1 (isNone_iff_eq_none.mp hlast.2.1)

theorem step_act (hstep : q.step R event=some q') :
    ∃ q₁,q.act R event=some q₁ ∧ q'={ q₁ with time := q.time+1 } := by
  obtain ⟨q₁,hact,heq⟩:=map_eq_some_iff.mp hstep
  exact ⟨q₁,hact,heq.symm⟩

theorem new_handle {i : HandleId} {pc : Pc T} (hget : (Queue.new : Queue T).handles.get i=some pc) :
    pc=.producer := by
  simp only [new,get_insert,get_empty] at hget
  split_ifs at hget
  cases hget
  rfl

theorem Ok.new : Ok R (Queue.new : Queue T) := by
  have hout : (Queue.new : Queue T).outstanding=0:=by
    refine Table.count_eq_zero.mpr fun i pc hget=>?_
    rw [new_handle hget]
    rfl
  refine {
    claim:=?_
    counted:=by rw [hout]; exact Nat.zero_le _
    head:=le_rfl
    room:=by rw [hout]; exact Nat.zero_le _
    received:=rfl
    publishing:=fun p=>?_
    accepted:=fun p x hmem=>by cases hmem
    once:=nodup_nil
    passed:=fun p hp=>absurd hp (Nat.not_lt_zero p)
    slots:=fun p hp=>by cases hp
    sequences:=fun index _=>.inl rfl
    handles:=fun i pc hget=>?_
    consumer:=trivial
    disposed:=fun items hd=>by cases hd }
  · rw [hout]
    exact (claimWord_zero R.layout).symm
  · have hnone : ¬ (p<(Queue.new : Queue T).claimed.length ∧ p ∉ (Queue.new : Queue T).acceptedAt) :=
      fun hno=>Nat.not_lt_zero p hno.1
    rw [if_neg hnone]
    refine Table.count_eq_zero.mpr fun i pc hget=>?_
    rw [new_handle hget]
    rfl
  · rw [new_handle hget]
    trivial

end Queue

theorem Run.ok {ticks : List (Tick T)} (run : Run R ticks q)
    (hn : q.claimed.length<2 ^ R.layout.positionBits) : q.Ok R := by
  induction run with
  | start hinit=>exact hinit ▸ Queue.Ok.new
  | next run event hstep ih =>
    obtain ⟨q₁,hact,rfl⟩:=step_act hstep
    have hgrows:=(act_claimed hact).length_le
    exact ((ih (hgrows.trans_lt hn)).act hact hn).aside _ _

end WindowsThreadpoolSys.WaitableQueues
