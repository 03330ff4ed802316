import WindowsThreadpoolSys.WaitableQueues.ReservingMpsc

/-! The claim word is the count of reservations out and the number of claims. A position is published by the
one handle that claimed it, and until its call returns no other handle and no reader has its slot: the
claims ahead of the head are less than one lap. A word a handle has read earlier is no further than the
claims, so that an exchange that succeeds with it finds the claims where they were. -/
namespace WindowsThreadpoolSys.WaitableQueues
open Library Table Queue

variable {T : Type} {R : Ring} {q q' : Queue T}

namespace Queue

def outstanding (q : Queue T) : ℕ := q.handles.count fun _ pc => pc.holds

def publishing (q : Queue T) (p : ℕ) : ℕ := q.handles.count fun _ pc => decide (pc.position = some p)

def acceptedAt (q : Queue T) : List ℕ := q.accepted.map Prod.fst

def Seen (R : Ring) (q : Queue T) (word : ℕ) : Prop :=
  ∃ reserved position, word = R.layout.claimWord reserved position ∧
    reserved ≤ R.layout.maxReserved ∧ reserved ≤ R.capacity ∧ position ≤ q.claimed.length

/-- If nothing was claimed since the word was read, there is room beyond its reservations. -/
def Clear (R : Ring) (q : Queue T) (word : ℕ) : Prop :=
  R.layout.positionOf word = q.claimed.length →
    q.claimed.length - q.head + R.layout.reservedOf word < R.capacity

def PcOk (R : Ring) (q : Queue T) : Pc T → Prop
  | .pushRoom _ word | .pushReread _ word | .reserveRoom word | .reserveReread word => q.Seen R word
  | .pushLive _ word | .pushClaim _ word => q.Seen R word ∧ q.Clear R word
  | .reserveClaim word =>
    (q.Seen R word ∧ q.Clear R word) ∧ R.layout.reservedOf word < R.layout.maxReserved
  | .publish _ position item phase =>
    q.claimed[position]? = some item ∧
      (phase = .store → (q.slots (R.slot position)).value = some item)
  | _ => True

def ConsumerOk (q : Queue T) : Prop :=
  match q.consumer with
  | some (.takeSequence position) => position = q.head
  | some (.takeRead position) => position = q.head ∧ position ∈ q.acceptedAt
  | some (.takeStore position item) =>
    position = q.head ∧ position ∈ q.acceptedAt ∧ q.claimed[position]? = some item
  | _ => True

structure Ok (R : Ring) (q : Queue T) : Prop where
  claim : q.claim = R.layout.claimWord q.outstanding q.claimed.length
  counted : q.outstanding ≤ R.layout.maxReserved
  head : q.head ≤ q.claimed.length
  room : q.claimed.length - q.head + q.outstanding ≤ R.capacity
  received : q.received = q.claimed.take q.head
  publishing : ∀ p, q.publishing p = if p < q.claimed.length ∧ p ∉ q.acceptedAt then 1 else 0
  accepted : ∀ p x, (p, x) ∈ q.accepted → q.claimed[p]? = some x
  once : q.acceptedAt.Nodup
  passed : ∀ p < q.head, p ∈ q.acceptedAt
  slots : ∀ p ∈ q.acceptedAt, q.head ≤ p →
    (q.slots (R.slot p)).sequence = p + 1 ∧ (q.slots (R.slot p)).value = q.claimed[p]?
  sequences : ∀ index < R.capacity, (q.slots index).sequence = index ∨
    ∃ p ∈ q.acceptedAt, R.slot p = index ∧ (q.slots index).sequence = p + 1
  handles : ∀ i pc, q.handles.get i = some pc → q.PcOk R pc
  consumer : q.ConsumerOk
  disposed : ∀ items, q.disposed = some items →
    q.handles.size = 0 ∧ q.consumer = none ∧ q.received ++ items = q.claimed

/-! ## What follows from it -/

section Reads

variable (h : Ok R q) (hn : q.claimed.length < 2 ^ R.layout.positionBits)

include h

theorem Ok.reservedOf_claim : R.layout.reservedOf q.claim=q.outstanding := by
  rw [h.claim]
  exact ClaimLayout.reservedOf_claimWord h.counted

variable {p : ℕ}

theorem Ok.accepted_lt (hp : p ∈ q.acceptedAt) : p < q.claimed.length := by
  obtain ⟨⟨p',x⟩,hmem,rfl⟩:=List.mem_map.mp hp
  exact (List.getElem?_eq_some_iff.mp (h.accepted p' x hmem)).1

theorem Ok.seen_claim : q.Seen R q.claim := by
  have hroom:=h.room
  exact ⟨q.outstanding,q.claimed.length,h.claim,h.counted,by omega,le_rfl⟩

theorem Ok.publishes {i : HandleId} {pc : Pc T} (hget : q.handles.get i=some pc)
    (hp : pc.position=some p) : q.head ≤ p ∧ p < q.claimed.length ∧ p ∉ q.acceptedAt := by
  have hpos : 0 < q.publishing p:=count_pos.mpr ⟨i,pc,hget,decide_eq_true hp⟩
  rw [h.publishing p] at hpos
  split_ifs at hpos with hopen
  · refine ⟨?_,hopen.1,hopen.2⟩
    by_contra hpassed
    exact hopen.2 (h.passed p (by omega))
  · omega

theorem Ok.publisher_unique {i i' : HandleId} {pc pc' : Pc T} (hget : q.handles.get i=some pc)
    (hp : pc.position=some p) (hget' : q.handles.get i'=some pc') (hp' : pc'.position=some p) : i=i' := by
  have hone : (q.handles.count fun _ pc=>decide (pc.position=some p))≤1:=by
    refine (h.publishing p).trans_le ?_
    split_ifs <;> omega
  exact eq_of_count_le_one hone hget (decide_eq_true hp) hget' (decide_eq_true hp')

theorem Ok.slot_ne {p' : ℕ} (hp : q.head ≤ p) (hp' : p < q.claimed.length) (hr : q.head ≤ p')
    (hr' : p' < q.claimed.length) (hne : p ≠ p') : R.slot p ≠ R.slot p' := by
  intro hslot
  rw [Ring.slot_eq,Ring.slot_eq] at hslot
  have hroom:=h.room
  exact hne (ring_slot_inj hp (by omega) hr (by omega) hslot)

theorem Ok.unpublished (hp : p ∉ q.acceptedAt) : (q.slots (R.slot p)).sequence ≠ p+1 := by
  intro hsequence
  rcases h.sequences (R.slot p) (R.slot_lt p) with hindex | ⟨p',hp', -,hother⟩
  · have hle : R.slot p ≤ p:=by
      rw [Ring.slot_eq]
      exact Nat.mod_le _ _
    omega
  · have heq : p'=p:=by omega
    exact hp (heq ▸ hp')

theorem Ok.live_of_handle {i : HandleId} {pc : Pc T} (hget : q.handles.get i=some pc) :
    q.disposed=none := by
  cases hdisposed : q.disposed with
  | none=>rfl
  | some items =>
    have hnone:=get_of_size_zero (h.disposed items hdisposed).1 i
    rw [hget] at hnone
    cases hnone

theorem Ok.live_of_consumer {pc : ConsumerPc T} (hpc : q.consumer=some pc) : q.disposed=none := by
  cases hdisposed : q.disposed with
  | none=>rfl
  | some items =>
    have hnone:=(h.disposed items hdisposed).2.1
    rw [hpc] at hnone
    cases hnone

include hn

theorem Ok.positionOf_claim : R.layout.positionOf q.claim=q.claimed.length := by
  rw [h.claim]
  exact ClaimLayout.positionOf_claimWord h.counted hn

end Reads

theorem Seen.positionOf_le {word : ℕ} (h : q.Seen R word)
    (hn : q.claimed.length<2 ^ R.layout.positionBits) :
    R.layout.positionOf word ≤ q.claimed.length := by
  obtain ⟨reserved,position,rfl,hmax, -,hle⟩:=h
  rw [ClaimLayout.positionOf_claimWord hmax (by omega)]
  exact hle

/-! ## What a handle has read stays so -/

theorem PcOk.mono {pc : Pc T} (h : q.PcOk R pc) (hgrows : q.claimed <+: q'.claimed)
    (hn : q'.claimed.length<2 ^ R.layout.positionBits) (hhead : q.head ≤ q'.head)
    (hvalue : ∀ reserved p x,pc=.publish reserved p x .store →
      (q'.slots (R.slot p)).value=(q.slots (R.slot p)).value) : q'.PcOk R pc := by
  have hlength:=hgrows.length_le
  have hseen : ∀ {word},q.Seen R word → q'.Seen R word:=by
    rintro word ⟨reserved,position,heq,hmax,hcap,hle⟩
    exact ⟨reserved,position,heq,hmax,hcap,hle.trans hlength⟩
  have hclear : ∀ {word},q.Seen R word → q.Clear R word → q'.Clear R word:=by
    intro word hword hc hat
    have hle:=hword.positionOf_le (by omega)
    have hsame : q'.claimed.length=q.claimed.length:=by omega
    have hroom:=hc (hat.trans hsame)
    omega
  cases pc with
  | pushRoom call word | pushReread call word | reserveRoom word | reserveReread word=>exact hseen h
  | pushLive call word | pushClaim call word=>exact ⟨hseen h.1,hclear h.1 h.2⟩
  | reserveClaim word=>exact ⟨⟨hseen h.1.1,hclear h.1.1 h.1.2⟩,h.2⟩
  | publish reserved p x phase =>
    refine ⟨?_,fun hstore=>?_⟩
    · obtain ⟨more,hmore⟩:=hgrows
      have hlt:=(List.getElem?_eq_some_iff.mp h.1).1
      rw [← hmore,List.getElem?_append_left hlt]
      exact h.1
    · subst hstore
      rw [hvalue reserved p x rfl]
      exact h.2 rfl
  | _=>trivial

/-! ## Steps of a handle -/

section Handle

variable {i : HandleId} {pc pc' : Pc T}

theorem outstanding_set (pc' : Pc T) (hget : q.handles.get i=some pc) :
    (q.set i pc').outstanding+(if pc.holds then 1 else 0) =
      q.outstanding+if pc'.holds then 1 else 0 :=
  count_replace pc' (fun _ pc=>pc.holds) hget

theorem publishing_set (pc' : Pc T) (hget : q.handles.get i=some pc) (p : ℕ) :
    (q.set i pc').publishing p+(if decide (pc.position=some p) then 1 else 0) =
      q.publishing p+if decide (pc'.position=some p) then 1 else 0 :=
  count_replace pc' (fun _ pc=>decide (pc.position=some p)) hget

theorem handles_set (h : ∀ i pc,q.handles.get i=some pc → q.PcOk R pc) (hpc : q.PcOk R pc') :
    ∀ i' pc₀,(q.set i pc').handles.get i'=some pc₀ → q.PcOk R pc₀ := by
  intro i' pc₀ hget'
  simp only [set,get_insert] at hget'
  split_ifs at hget'
  · cases hget'
    exact hpc
  · exact h i' pc₀ hget'

theorem Ok.aside (h : Ok R q) (time : ℕ) (answers : List (HandleId × Answer T)) :
    Ok R { q with time := time,answers := answers } :=
  ⟨h.claim,h.counted,h.head,h.room,h.received,h.publishing,h.accepted,h.once,h.passed,h.slots,
    h.sequences,h.handles,h.consumer,h.disposed⟩

theorem Ok.rehandle (h : Ok R q) {handles : Table HandleId (Pc T)} (producers : ℕ)
    (hlive : q.disposed=none) (hout : (handles.count fun _ pc => pc.holds)=q.outstanding)
    (hpub : ∀ p,(handles.count fun _ pc => decide (pc.position=some p))=q.publishing p)
    (hpcs : ∀ i pc,handles.get i=some pc → q.PcOk R pc) :
    Ok R { q with handles := handles,producers := producers } := { h with
  claim:=h.claim.trans (congrArg (fun n=>R.layout.claimWord n q.claimed.length) hout.symm)
  counted:=hout.trans_le h.counted
  room:=by
    show q.claimed.length-q.head+(handles.count fun _ pc=>pc.holds) ≤ R.capacity
    rw [hout]
    exact h.room
  publishing:=fun p=>(hpub p).trans (h.publishing p)
  handles:=hpcs
  disposed:=fun items hd=>absurd (hd.symm.trans hlive) (by simp) }

theorem Ok.set (h : Ok R q) (hget : q.handles.get i=some pc) (hholds : pc'.holds=pc.holds)
    (hposition : pc'.position=pc.position) (hpc : q.PcOk R pc') : Ok R (q.set i pc') := by
  refine h.rehandle q.producers (h.live_of_handle hget) ?_ (fun p=>?_) (handles_set h.handles hpc)
  · have hcount:=outstanding_set pc' hget
    rw [hholds] at hcount
    exact Nat.add_right_cancel hcount
  · have hcount:=publishing_set pc' hget p
    rw [hposition] at hcount
    exact Nat.add_right_cancel hcount

theorem Ok.return_ (h : Ok R q) (hget : q.handles.get i=some pc) (hholds : pc.holds=false)
    (hposition : pc.position=none) (answer : Answer T) : Ok R (q.return_ i answer) := by
  have hset : Ok R (q.set i .producer):=h.set hget hholds.symm hposition.symm trivial
  exact hset.aside _ _

theorem Ok.release (h : Ok R q) (hget : q.handles.get i=some pc) (hholds : pc.holds=false)
    (hposition : pc.position=none) (producers : ℕ) :
    Ok R { q with handles := q.handles.erase i,producers := producers } := by
  refine h.rehandle producers (h.live_of_handle hget) ?_ (fun p=>?_) fun i' pc₀ hget' =>
    h.handles i' pc₀ (get_of_erase hget')
  · have hcount:=count_erase (fun _ pc=>pc.holds) hget
    simp only [hholds,Bool.false_eq_true,if_false,Nat.add_zero] at hcount
    exact hcount.symm
  · have hcount:=count_erase (fun _ pc=>decide (pc.position=some p)) hget
    simp only [hposition,reduceCtorEq,decide_false,Bool.false_eq_true,if_false,
      Nat.add_zero] at hcount
    exact hcount.symm

theorem Ok.join (h : Ok R q) (hget : q.handles.get i=some pc) {j : HandleId}
    (hnew : q.handles.get j=none) (hholds : pc'.holds=false) (hposition : pc'.position=none)
    (hpc : q.PcOk R pc') (producers : ℕ) : Ok R { q.set j pc' with producers := producers } := by
  refine h.rehandle producers (h.live_of_handle hget) ?_ (fun p=>?_) (handles_set h.handles hpc)
  · rw [Queue.set,count_insert pc' _ hnew]
    simp only [hholds,Bool.false_eq_true,if_false,Nat.add_zero]
    rfl
  · rw [Queue.set,count_insert pc' _ hnew]
    simp only [hposition,reduceCtorEq,decide_false,Bool.false_eq_true,if_false,Nat.add_zero]
    rfl

theorem Ok.grant (h : Ok R q) (hget : q.handles.get i=some .reserveCount) {j : HandleId}
    (hnew : q.handles.get j=none) (producers : ℕ) :
    Ok R { (q.set i .producer).set j .reservation with producers := producers } := by
  have hother : j≠i:=by
    rintro rfl
    rw [hget] at hnew
    cases hnew
  have hnew' : (q.set i .producer).handles.get j=none:=by
    rw [Queue.set,get_insert_of_ne _ _ hother]
    exact hnew
  refine h.rehandle producers (h.live_of_handle hget) ?_ (fun p=>?_) ?_
  · have hcount:=outstanding_set .producer hget
    rw [Queue.set,count_insert _ _ hnew']
    exact hcount
  · have hcount:=publishing_set .producer hget p
    rw [Queue.set,count_insert _ _ hnew']
    exact hcount
  · intro i' pc₀ hget'
    simp only [Queue.set,get_insert] at hget'
    split_ifs at hget'
    · cases hget'
      trivial
    · cases hget'
      trivial
    · exact h.handles i' pc₀ hget'

theorem Ok.recount (h : Ok R q) (hget : q.handles.get i=some pc) {count : ℕ}
    (hcount : count+(if pc.holds then 1 else 0)=q.outstanding+if pc'.holds then 1 else 0)
    (hmax : count ≤ R.layout.maxReserved) (hroom : q.claimed.length-q.head+count ≤ R.capacity)
    (hposition : pc'.position=pc.position) (hpc : q.PcOk R pc') :
    Ok R { q.set i pc' with claim := R.layout.claimWord count q.claimed.length } := by
  have hout : (q.set i pc').outstanding=count:=by
    have hset:=outstanding_set pc' hget
    omega
  have hpub : ∀ p,(q.set i pc').publishing p=q.publishing p:=by
    intro p
    have hset:=publishing_set pc' hget p
    rw [hposition] at hset
    omega
  exact { h with
    claim:=congrArg (fun n=>R.layout.claimWord n q.claimed.length) hout.symm
    counted:=hout.trans_le hmax
    room:=by
      show q.claimed.length-q.head+(q.set i pc').outstanding ≤ R.capacity
      rw [hout]
      exact hroom
    publishing:=fun p=>(hpub p).trans (h.publishing p)
    handles:=handles_set h.handles hpc
    disposed:=fun items hd=>absurd (hd.symm.trans (h.live_of_handle hget)) (by simp) }

theorem ConsumerOk.mono (h : q.ConsumerOk) (hconsumer : q'.consumer=q.consumer)
    (hhead : q'.head=q.head) (haccepted : ∀ p ∈ q.acceptedAt,p ∈ q'.acceptedAt)
    (hgrows : q.claimed <+: q'.claimed) : q'.ConsumerOk := by
  unfold ConsumerOk at h ⊢
  rw [hconsumer]
  cases hc : q.consumer with
  | none=>trivial
  | some pc =>
    rw [hc] at h
    cases pc with
    | takeSequence p=>exact h.trans hhead.symm
    | takeRead p=>exact ⟨h.1.trans hhead.symm,haccepted p h.2⟩
    | takeStore p item =>
      refine ⟨h.1.trans hhead.symm,haccepted p h.2.1,?_⟩
      obtain ⟨more,hmore⟩:=hgrows
      have hlt:=(List.getElem?_eq_some_iff.mp h.2.2).1
      rw [← hmore,List.getElem?_append_left hlt]
      exact h.2.2
    | _=>trivial

theorem Ok.claimNext (h : Ok R q) (hget : q.handles.get i=some pc) {word count : ℕ}
    (reserved : Bool) (item : T) (hword : q.claim=word) (hnone : pc.position=none)
    (hcount : count+(if pc.holds then 1 else 0)=q.outstanding)
    (hroom : q.claimed.length+1-q.head+count ≤ R.capacity)
    (hn : q.claimed.length+1<2 ^ R.layout.positionBits) :
    Ok R (q.claimNext R i reserved item word count) := by
  have hat : R.layout.positionOf word=q.claimed.length:=by
    rw [← hword]
    exact h.positionOf_claim (by omega)
  have hgrows : q.claimed <+: q.claimed++[item]:=List.prefix_append _ _
  have hlength : (q.claimed++[item]).length=q.claimed.length+1:=List.length_append
  have hhead:=h.head
  have hcounted:=h.counted
  have hout : (q.claimNext R i reserved item word count).outstanding=count:=by
    have hset:=outstanding_set (.publish reserved q.claimed.length item .wait) hget
    simp only [Queue.claimNext,hat]
    simp only [Pc.holds,Bool.false_eq_true,if_false] at hset
    exact Nat.add_right_cancel (hset.trans hcount.symm)
  have hpub : ∀ p,(q.claimNext R i reserved item word count).publishing p =
      q.publishing p+if p=q.claimed.length then 1 else 0:=by
    intro p
    have hset:=publishing_set (.publish reserved q.claimed.length item .wait) hget p
    rw [hnone] at hset
    simp only [Pc.position,Option.some.injEq,reduceCtorEq,decide_false,Bool.false_eq_true,
      if_false,Nat.add_zero,decide_eq_true_eq,eq_comm (b:=p)] at hset
    simp only [Queue.claimNext,hat]
    exact hset
  have hold : ∀ p,p < q.claimed.length → (q.claimed++[item])[p]? = q.claimed[p]? :=
    fun p hp=>List.getElem?_append_left hp
  refine { h with
    claim:=?_
    counted:=by rw [hout]; omega
    head:=by
      show q.head≤(q.claimed++[item]).length
      omega
    room:=by
      rw [hout]
      show (q.claimed++[item]).length-q.head+count ≤ R.capacity
      omega
    received:=?_
    publishing:=fun p=>?_
    accepted:=fun p x hmem=>?_
    slots:=fun p hp hle=>?_
    handles:=fun i' pc₀ hget'=>?_
    consumer:=h.consumer.mono rfl rfl (fun _ hp=>hp) hgrows
    disposed:=fun items hd=>absurd (hd.symm.trans (h.live_of_handle hget)) (by simp) }
  · rw [hout]
    show R.layout.claimWord count (R.layout.advance (R.layout.positionOf word)) =
      R.layout.claimWord count (q.claimed++[item]).length
    rw [hat,ClaimLayout.advance_eq hn,hlength]
  · show q.received=(q.claimed++[item]).take q.head
    rw [List.take_append_of_le_length hhead]
    exact h.received
  · rw [hpub,h.publishing]
    show _=if p<(q.claimed++[item]).length ∧ p ∉ q.acceptedAt then 1 else 0
    rw [hlength]
    by_cases hp : p=q.claimed.length
    · have hnot : p ∉ q.acceptedAt:=fun hmem=>absurd (h.accepted_lt hmem) (by omega)
      rw [if_neg (by omega),if_pos hp,if_pos ⟨by omega,hnot⟩]
    · have hiff : (p < q.claimed.length+1 ∧ p ∉ q.acceptedAt) ↔
          (p < q.claimed.length ∧ p ∉ q.acceptedAt):=by
        constructor
        · exact fun hlt=>⟨by omega,hlt.2⟩
        · exact fun hlt=>⟨by omega,hlt.2⟩
      simp only [hiff,if_neg hp,Nat.add_zero]
  · have hx:=h.accepted p x hmem
    exact (hold p (List.getElem?_eq_some_iff.mp hx).1).trans hx
  · have hslot:=h.slots p hp hle
    exact ⟨hslot.1,hslot.2.trans (hold p (h.accepted_lt hp)).symm⟩
  · simp only [Queue.claimNext,get_insert,hat] at hget'
    split_ifs at hget'
    · cases hget'
      refine ⟨?_,fun hstore=>by cases hstore⟩
      show (q.claimed++[item])[q.claimed.length]? = some item
      exact List.getElem?_concat_length
    · refine (h.handles i' pc₀ hget').mono hgrows ?_ le_rfl fun _ _ _ _=>rfl
      show (q.claimed++[item]).length<_
      omega

/-! ## Publishing -/

theorem writeValue_sequence (q : Queue T) (index : ℕ) (item : T) (index' : ℕ) :
    ((q.writeValue index item).slots index').sequence=(q.slots index').sequence := by
  unfold writeValue
  by_cases hsame : index'=index
  · subst hsame
    simp
  · simp [Function.update_of_ne hsame]

theorem storeSequence_value (q : Queue T) (index sequence index' : ℕ) :
    ((q.storeSequence index sequence).slots index').value=(q.slots index').value := by
  unfold storeSequence
  by_cases hsame : index'=index
  · subst hsame
    simp
  · simp [Function.update_of_ne hsame]

theorem Ok.writeValue (h : Ok R q) (hn : q.claimed.length<2 ^ R.layout.positionBits)
    {reserved : Bool} {p : ℕ} {item : T} (hget : q.handles.get i=some (.publish reserved p item .write)) :
    Ok R (q.writeValue (R.slot p) item) := by
  obtain ⟨hle,hlt,hopen⟩:=h.publishes hget rfl
  have hother : ∀ p',q.head ≤ p' → p' < q.claimed.length → p'≠p →
      (q.writeValue (R.slot p) item).slots (R.slot p')=q.slots (R.slot p'):=by
    intro p' hle' hlt' hne
    exact Function.update_of_ne (h.slot_ne hle' hlt' hle hlt hne) _ _
  refine { h with
    slots:=fun p' hp' hle'=>?_
    sequences:=fun index hindex=>?_
    handles:=fun i' pc₀ hget'=>?_ }
  · rw [hother p' hle' (h.accepted_lt hp') fun heq=>hopen (heq ▸ hp')]
    exact h.slots p' hp' hle'
  · rw [writeValue_sequence]
    exact h.sequences index hindex
  · refine (h.handles i' pc₀ hget').mono (List.prefix_refl _) hn le_rfl fun reserved' p' x hpc=>?_
    subst hpc
    obtain ⟨hle',hlt', -⟩:=h.publishes hget' rfl
    rw [hother p' hle' hlt']
    intro heq
    subst heq
    have hsame:=h.publisher_unique hget rfl hget' rfl
    subst hsame
    cases hget.symm.trans hget'

theorem Ok.storeSequence (h : Ok R q) (hn : q.claimed.length<2 ^ R.layout.positionBits)
    {reserved : Bool} {p : ℕ} {item : T} (hget : q.handles.get i=some (.publish reserved p item .store))
    (hholds : pc'.holds=false) (hposition : pc'.position=none) (hpc : ∀ q : Queue T,q.PcOk R pc') :
    Ok R
      { (q.storeSequence (R.slot p) (R.layout.advance p)).set i pc' with
        accepted := q.accepted++[(p,item)] } := by
  obtain ⟨hle,hlt,hopen⟩:=h.publishes hget rfl
  obtain ⟨hitem,hvalue⟩:=h.handles i _ hget
  have hadvance : R.layout.advance p=p+1:=ClaimLayout.advance_eq (by omega)
  have hother : ∀ index,index≠R.slot p →
      (q.storeSequence (R.slot p) (R.layout.advance p)).slots index=q.slots index :=
    fun index hne=>Function.update_of_ne hne _ _
  have hthis : ((q.storeSequence (R.slot p) (R.layout.advance p)).slots (R.slot p)).sequence=p+1:=by
    simp [Queue.storeSequence,hadvance]
  have hout : (q.set i pc').outstanding=q.outstanding:=by
    have hcount:=outstanding_set pc' hget
    simp only [hholds] at hcount
    exact hcount
  have hpub : ∀ p',(q.set i pc').publishing p'+(if p=p' then 1 else 0)=q.publishing p':=by
    intro p'
    have hcount:=publishing_set pc' hget p'
    rw [hposition] at hcount
    simp only [Pc.position,Option.some.injEq,reduceCtorEq,decide_false,Bool.false_eq_true,
      if_false,Nat.add_zero,decide_eq_true_eq] at hcount
    exact hcount
  have hat : ∀ p',p' ∈ (q.accepted++[(p,item)]).map Prod.fst ↔ p' ∈ q.acceptedAt ∨ p'=p:=by
    intro p'
    simp [acceptedAt]
  have hpublishing : ∀ p',(q.set i pc').publishing p' =
      if p' < q.claimed.length ∧ p' ∉ (q.accepted++[(p,item)]).map Prod.fst then 1 else 0:=by
    intro p'
    have hcount:=hpub p'
    rw [h.publishing p'] at hcount
    simp only [hat p',not_or]
    by_cases hsame : p=p'
    · subst hsame
      rw [if_pos rfl,if_pos ⟨hlt,hopen⟩] at hcount
      rw [if_neg fun hno=>hno.2.2 rfl]
      omega
    · rw [if_neg hsame,Nat.add_zero] at hcount
      rw [hcount]
      exact if_congr (and_congr_right fun _=>(and_iff_left (Ne.symm hsame)).symm) rfl rfl
  refine {
    claim:=h.claim.trans (congrArg (fun n=>R.layout.claimWord n q.claimed.length) hout.symm)
    counted:=hout.trans_le h.counted
    head:=h.head
    room:=by
      show q.claimed.length-q.head+(q.set i pc').outstanding ≤ R.capacity
      rw [hout]
      exact h.room
    received:=h.received
    publishing:=hpublishing
    accepted:=fun p' x hmem=>?_
    once:=?_
    passed:=fun p' hp'=>(hat p').mpr (.inl (h.passed p' hp'))
    slots:=fun p' hp' hle'=>?_
    sequences:=fun index hindex=>?_
    handles:=fun i' pc₀ hget'=>?_
    consumer:=h.consumer.mono rfl rfl (fun p' hp'=>(hat p').mpr (.inl hp')) (List.prefix_refl _)
    disposed:=fun items hd=>absurd (hd.symm.trans (h.live_of_handle hget)) (by simp) }
  · rcases List.mem_append.mp hmem with hold | hnew
    · exact h.accepted p' x hold
    · cases List.mem_singleton.mp hnew
      exact hitem
  · show ((q.accepted++[(p,item)]).map Prod.fst).Nodup
    rw [List.map_append]
    exact h.once.append (List.nodup_singleton p) (by simpa [acceptedAt] using hopen)
  · by_cases hsame : p'=p
    · subst hsame
      exact ⟨hthis,(storeSequence_value q _ _ _).trans ((hvalue rfl).trans hitem.symm)⟩
    · have hold:=((hat p').mp hp').resolve_right hsame
      have hne:=h.slot_ne hle' (h.accepted_lt hold) hle hlt hsame
      show ((q.storeSequence _ _).slots _).sequence=_ ∧ ((q.storeSequence _ _).slots _).value=_
      rw [hother _ hne]
      exact h.slots p' hold hle'
  · by_cases hindex' : index=R.slot p
    · subst hindex'
      exact .inr ⟨p,(hat p).mpr (.inr rfl),rfl,hthis⟩
    · show ((q.storeSequence _ _).slots _).sequence=_ ∨ _
      rw [hother index hindex']
      refine (h.sequences index hindex).imp id ?_
      rintro ⟨p',hp',hslot,hsequence⟩
      refine ⟨p',(hat p').mpr (.inl hp'),hslot,?_⟩
      show ((q.storeSequence _ _).slots _).sequence=_
      rw [hother index hindex']
      exact hsequence
  · simp only [Queue.set,get_insert] at hget'
    split_ifs at hget'
    · cases hget'
      exact hpc _
    · exact (h.handles i' pc₀ hget').mono (List.prefix_refl _) hn le_rfl
        fun _ _ _ _=>storeSequence_value q _ _ _

end Handle

end Queue

end WindowsThreadpoolSys.WaitableQueues
