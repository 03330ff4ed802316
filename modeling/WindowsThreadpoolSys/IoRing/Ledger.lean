import WindowsThreadpoolSys.IoRing.Ring

/-! The identities in flight are the entries the kernel has and the answers it has given that were not popped.
What a queued operation holds is in the inventory as long as its identity is in flight, and has been let
go of exactly once by the pop that took it out of flight. A registered buffer's counts are the inventory's
operations on it. -/
namespace WindowsThreadpoolSys.IoRing
open Library List Table Option

variable {T X G : Type} {s s' : State T X G}

/-! ## Operations on a registered buffer -/

namespace Held

def addresses (registration i : ℕ) (held : Held G) : Bool :=
  held.registration.any fun use => decide ((use.registration, use.index) = (registration, i))

def reads (registration i : ℕ) (held : Held G) : Bool :=
  held.registration.any fun use =>
    decide ((use.registration, use.index) = (registration, i) ∧ use.access = .writesBuffer)

end Held

namespace State

def addressing (s : State T X G) (registration i : ℕ) : ℕ :=
  s.inventory.count fun _ e => e.held.addresses registration i

def reading (s : State T X G) (registration i : ℕ) : ℕ :=
  s.inventory.count fun _ e => e.held.reads registration i

end State

structure Ok (s : State T X G) : Prop where
  flight : s.inFlight.Perm s.unanswered
  nodup : s.inFlight.Nodup
  below : ∀ id ∈ s.inFlight, id < s.nextUserData
  popped : ∀ c ∈ s.popped, c.userData < s.nextUserData ∧ c.userData ∉ s.inFlight
  poppedNodup : (s.popped.map Completion.userData).Nodup
  inventory : ∀ id e, s.inventory.get id = some e → id ∈ s.inFlight
  queued : s.queued.Perm (s.inventory.entries ++ s.released)
  queuedBelow : ∀ q ∈ s.queued, q.1 < s.nextUserData
  queuedNodup : (s.queued.map Prod.fst).Nodup
  released : ∀ q ∈ s.released, ∃ c ∈ s.popped, c.userData = q.1
  outstanding : ∀ r i, (s.counts (r, i)).outstanding = s.addressing r i
  kernelWrites : ∀ r i, (s.counts (r, i)).kernelWrites = s.reading r i
  inRange : ∀ id e, s.inventory.get id = some e → ∀ use, e.held.registration = some use →
    use.index < (s.lens use.registration).length ∧
      ((s.registrations use.registration).status = .registered ∨
        (s.registrations use.registration).status = .leaked)
  registered : ∀ r, (s.registrations r).status ≠ .absent → r < s.nextUserData
  owned : s.kind = some .owned → ∀ id ∈ s.inFlight, ∃ e, s.inventory.get id = some e
  calm : s.panicked = false

theorem Ok.new : Ok (.new : State T X G) where
  flight := List.Perm.refl _
  nodup:=nodup_nil
  below:=by simp [State.new]
  popped:=by simp [State.new]
  poppedNodup:=nodup_nil
  inventory:=by simp [State.new]
  queued:=List.Perm.refl _
  queuedBelow:=by simp [State.new]
  queuedNodup:=nodup_nil
  released:=by simp [State.new]
  outstanding:=fun r i=>rfl
  kernelWrites:=fun r i=>rfl
  inRange:=by simp [State.new]
  registered:=by simp [State.new]
  owned:=by simp [State.new]
  calm:=rfl

theorem Ok.frame (h : Ok s) (kind : Option Kind) (call : Option Call) (nextUserData : ℕ)
    (panicked : Bool) (hkind : kind=some .owned → s.kind=some .owned)
    (hnext : s.nextUserData ≤ nextUserData) (hpanicked : panicked=false) :
    Ok { s with kind,call,nextUserData,panicked } := { h with
  below:=fun id hid=>(h.below id hid).trans_le hnext
  popped:=fun c hc=>⟨(h.popped c hc).1.trans_le hnext,(h.popped c hc).2⟩
  queuedBelow:=fun q hq=>(h.queuedBelow q hq).trans_le hnext
  registered:=fun r hr=>(h.registered r hr).trans_le hnext
  owned:=fun howned=>h.owned (hkind howned)
  calm:=hpanicked }

theorem Ok.done (h : Ok s) : Ok s.done :=
  h.frame s.kind none s.nextUserData s.panicked id (le_refl _) h.calm

theorem Ok.at_ (h : Ok s) (call : Call) : Ok (s.at_ call) :=
  h.frame s.kind (some call) s.nextUserData s.panicked id (le_refl _) h.calm

/-! ## Counts -/

theorem count_eq (s : State T X G) (use : RegisteredUse) (f : BufferCounts → BufferCounts) :
    s.count use f={ s with counts := (s.count use f).counts } := by
  unfold State.count
  dsimp only
  split_ifs <;> rfl

theorem count_counts {use : RegisteredUse} (hin : use.index<(s.lens use.registration).length)
    (f : BufferCounts → BufferCounts) (buffer : ℕ × ℕ) : (s.count use f).counts buffer =
      if buffer=(use.registration,use.index) then f (s.counts buffer) else s.counts buffer := by
  unfold State.count
  dsimp only
  rw [if_pos hin]
  show Function.update s.counts _ _ buffer=_
  split_ifs with heq
  · subst heq
    rw [Function.update_self]
  · rw [Function.update_of_ne heq]

theorem beginUse_eq (s : State T X G) (use : Option RegisteredUse) :
    s.beginUse use={ s with counts := (s.beginUse use).counts } := by
  cases use with
  | none=>rfl
  | some use=>exact count_eq s use _

theorem dropHeld_eq (s : State T X G) (held : Held G) :
    s.dropHeld held={ s with counts := (s.dropHeld held).counts } := by
  unfold State.dropHeld
  split
  · exact count_eq s _ _
  · rfl

theorem beginUse_reserved (s : State T X G) (n : ℕ) (flight : List ℕ) (use : Option RegisteredUse) :
    ({ s with nextUserData := n,inFlight := flight } : State T X G).beginUse use =
      { s with nextUserData := n,inFlight := flight,counts := (s.beginUse use).counts } := by
  cases use with
  | none=>rfl
  | some use =>
    unfold State.beginUse State.count State.lens
    dsimp only
    split_ifs <;> rfl

theorem dropHeld_reserved (s : State T X G) (n : ℕ) (flight : List ℕ) (held : Held G) :
    ({ s with nextUserData := n,inFlight := flight } : State T X G).dropHeld held =
      { s with nextUserData := n,inFlight := flight,counts := (s.dropHeld held).counts } := by
  unfold State.dropHeld
  split
  · unfold State.count State.lens
    dsimp only
    split_ifs <;> rfl
  · rfl

section
variable (held : Held G)
  (hin : ∀ use,held.registration=some use → use.index<(s.lens use.registration).length)
include hin

theorem beginUse_counts (r i : ℕ) : ((s.beginUse held.registration).counts (r,i)).outstanding =
        (s.counts (r,i)).outstanding+(if held.addresses r i then 1 else 0) ∧
      ((s.beginUse held.registration).counts (r,i)).kernelWrites =
        (s.counts (r,i)).kernelWrites+if held.reads r i then 1 else 0 := by
  cases hheld : held.registration with
  | none=>simp [State.beginUse,Held.addresses,Held.reads,hheld]
  | some use =>
    have hcounts:=count_counts (hin use hheld) (BufferCounts.begun use.access) (r,i)
    simp only [State.beginUse,hcounts,Held.addresses,Held.reads,hheld,any_some,decide_eq_true_eq]
    by_cases heq : (r,i)=(use.registration,use.index)
    · rw [if_pos heq]
      simp [BufferCounts.begun,heq]
    · rw [if_neg heq]
      simp [Ne.symm heq]

theorem dropHeld_counts (r i : ℕ) : ((s.dropHeld held).counts (r,i)).outstanding =
        (s.counts (r,i)).outstanding-(if held.addresses r i then 1 else 0) ∧
      ((s.dropHeld held).counts (r,i)).kernelWrites =
        (s.counts (r,i)).kernelWrites-if held.reads r i then 1 else 0 := by
  cases hheld : held.registration with
  | none=>simp [State.dropHeld,Held.addresses,Held.reads,hheld]
  | some use =>
    have hcounts:=count_counts (hin use hheld) (BufferCounts.ended use.access) (r,i)
    simp only [State.dropHeld,hcounts,Held.addresses,Held.reads,hheld,any_some,decide_eq_true_eq]
    by_cases heq : (r,i)=(use.registration,use.index)
    · rw [if_pos heq]
      simp [BufferCounts.ended,heq]
    · rw [if_neg heq]
      simp [Ne.symm heq]

theorem dropHeld_beginUse : ((s.beginUse held.registration).dropHeld held).counts=s.counts := by
  funext ⟨r,i⟩
  have hbegun:=beginUse_counts held hin r i
  have hlens : ∀ use,held.registration=some use →
      use.index<((s.beginUse held.registration).lens use.registration).length:=by
    rw [beginUse_eq]
    exact hin
  obtain ⟨h1,h2⟩:=dropHeld_counts held hlens r i
  rw [hbegun.1] at h1
  rw [hbegun.2] at h2
  cases hnew : ((s.beginUse held.registration).dropHeld held).counts (r,i) with
  | mk outstanding kernelWrites =>
    rw [hnew] at h1 h2
    cases hold : s.counts (r,i) with
    | mk outstanding' kernelWrites' =>
      rw [hold] at h1 h2
      simp only [Nat.add_sub_cancel] at h1 h2
      rw [h1,h2]

end

/-! ## Pushes -/

theorem Ok.fresh (h : Ok s) : s.nextUserData ∉ s.inFlight := fun hin =>
  absurd (h.below _ hin) (lt_irrefl _)

theorem Ok.fresh_inventory (h : Ok s) : s.inventory.get s.nextUserData=none := by
  cases hget : s.inventory.get s.nextUserData with
  | none=>rfl
  | some e=>exact absurd (h.inventory _ e hget) h.fresh

theorem Ok.reserve (h : Ok s) (usizeMax : ℕ) :
    s.reserveUserData usizeMax=(none,s) ∨ s.reserveUserData usizeMax=(some s.nextUserData,
      { s with nextUserData := s.nextUserData+1,inFlight := s.nextUserData::s.inFlight }) := by
  unfold State.reserveUserData
  dsimp only
  rw [if_neg h.fresh]
  split_ifs
  · exact .inl rfl
  · exact .inr rfl

theorem Ok.queue_flight (h : Ok s) : (s.nextUserData::s.inFlight).Perm
    (s.submissionQueue++[s.nextUserData]++s.submitted++s.completionQueue.map Completion.userData) := by
  have hflight:=h.flight
  unfold State.unanswered at hflight
  rw [append_assoc] at hflight
  rw [append_assoc,append_assoc]
  exact (hflight.cons _).trans perm_middle.symm

theorem Ok.queue_below (h : Ok s) : ∀ id ∈ s.nextUserData::s.inFlight,id<s.nextUserData+1 := by
  rintro id hid
  obtain rfl | hold:=mem_cons.mp hid
  · exact Nat.lt_succ_self _
  · exact (h.below id hold).trans (Nat.lt_succ_self _)

theorem Ok.queue_popped (h : Ok s) : ∀ c ∈ s.popped,c.userData<s.nextUserData+1 ∧
    c.userData ∉ s.nextUserData::s.inFlight := by
  intro c hc
  obtain ⟨hlt,hnot⟩:=h.popped c hc
  exact ⟨hlt.trans (Nat.lt_succ_self _),fun hin=>(mem_cons.mp hin).elim (by omega) hnot⟩

theorem Ok.queueRaw (h : Ok s) (hkind : s.kind ≠ some .owned) (registeredBuffers : ℕ)
    (registrations : ℕ → Registration) (hregistrations : registrations=s.registrations ∨
      ∃ lens,registrations=Function.update s.registrations s.nextUserData ⟨.pending,lens⟩) :
    Ok { s with
      nextUserData := s.nextUserData+1
      inFlight := s.nextUserData::s.inFlight
      registeredBuffers
      registrations
      submissionQueue := s.submissionQueue++[s.nextUserData] } := by
  have hsame : ∀ r,r≠s.nextUserData → registrations r=s.registrations r:=by
    intro r hne
    obtain rfl | ⟨lens,rfl⟩:=hregistrations
    · rfl
    · exact Function.update_of_ne hne _ _
  refine { h with
    flight:=h.queue_flight
    nodup:=nodup_cons.mpr ⟨h.fresh,h.nodup⟩
    below:=h.queue_below
    popped:=h.queue_popped
    inventory:=fun id e hget=>mem_cons_of_mem _ (h.inventory id e hget)
    queuedBelow:=fun q hq=>(h.queuedBelow q hq).trans (Nat.lt_succ_self _)
    inRange:=fun id e hget use huse=>?_
    registered:=fun r hr=>?_
    owned:=fun howned=>absurd howned hkind }
  · obtain ⟨hlen,hstatus⟩:=h.inRange id e hget use huse
    have hne : use.registration≠s.nextUserData:=by
      have hlt:=h.registered use.registration (by
        obtain heq | heq:=hstatus
        · rw [heq]
          simp
        · rw [heq]
          simp)
      omega
    show use.index<(registrations use.registration).registeredLens.length ∧
      ((registrations use.registration).status=_ ∨ (registrations use.registration).status=_)
    rw [hsame _ hne]
    exact ⟨hlen,hstatus⟩
  · by_cases heq : r=s.nextUserData
    · subst heq
      exact Nat.lt_succ_self _
    · have hold : (registrations r).status≠.absent:=hr
      rw [hsame r heq] at hold
      exact (h.registered r hold).trans (Nat.lt_succ_self _)

def State.queueing (s : State T X G) (p : Push T X G) : State T X G :=
  { s with
    nextUserData := s.nextUserData + 1
    inFlight := s.nextUserData :: s.inFlight
    counts := (s.beginUse p.use).counts
    inventory := s.inventory.insert s.nextUserData p.entry
    submissionQueue := s.submissionQueue ++ [s.nextUserData]
    queued := (s.nextUserData, p.entry) :: s.queued }

theorem Ok.queueOwned (h : Ok s) (p : Push T X G)
    (huse : ∀ use,p.use=some use → use.index<(s.lens use.registration).length ∧
      (s.registrations use.registration).status=.registered) : Ok (s.queueing p) := by
  have hnone:=h.fresh_inventory
  have hcounts:=beginUse_counts (s:=s) p.held fun use hheld=>(huse use hheld).1
  refine { h with
    flight:=h.queue_flight
    nodup:=nodup_cons.mpr ⟨h.fresh,h.nodup⟩
    below:=h.queue_below
    popped:=h.queue_popped
    inventory:=fun id e hget=>?_
    queued:=?_
    queuedBelow:=fun q hq=>?_
    queuedNodup:=?_
    outstanding:=fun r i=>?_
    kernelWrites:=fun r i=>?_
    inRange:=fun id e hget use hheld=>?_
    registered:=fun r hr=>(h.registered r hr).trans (Nat.lt_succ_self _)
    owned:=fun howned id hid=>?_ }
  · rcases of_insert hget with ⟨rfl, -⟩ | hget
    · exact mem_cons_self
    · exact mem_cons_of_mem _ (h.inventory id e hget)
  · exact (h.queued.cons _).trans ((insert_perm p.entry hnone).symm.append_right s.released)
  · obtain rfl | hold:=mem_cons.mp hq
    · exact Nat.lt_succ_self _
    · exact (h.queuedBelow q hold).trans (Nat.lt_succ_self _)
  · refine nodup_cons.mpr ⟨fun hin=>?_,h.queuedNodup⟩
    obtain ⟨q,hq,heq⟩:=List.mem_map.mp hin
    have:=h.queuedBelow q hq
    omega
  · have hadd : (s.inventory.insert s.nextUserData p.entry).count (fun _ e=>e.held.addresses r i) =
        s.addressing r i+if p.held.addresses r i then 1 else 0:=Table.count_insert _ _ hnone
    exact ((hcounts r i).1.trans (by rw [h.outstanding])).trans hadd.symm
  · have hadd : (s.inventory.insert s.nextUserData p.entry).count (fun _ e=>e.held.reads r i) =
        s.reading r i+if p.held.reads r i then 1 else 0:=Table.count_insert _ _ hnone
    exact ((hcounts r i).2.trans (by rw [h.kernelWrites])).trans hadd.symm
  · rcases of_insert hget with ⟨-,rfl⟩ | hget
    · exact ⟨(huse use hheld).1,.inl (huse use hheld).2⟩
    · exact h.inRange id e hget use hheld
  · obtain rfl | hold:=mem_cons.mp hid
    · exact ⟨p.entry,get_insert_self _ _ _⟩
    · obtain ⟨e,hget⟩:=h.owned howned id hold
      refine ⟨e,?_⟩
      show (s.inventory.insert s.nextUserData p.entry).get id=some e
      rw [get_insert_of_ne _ _ (by rintro rfl; exact h.fresh hold)]
      exact hget

theorem Ok.push_cases (h : Ok s) (usizeMax : ℕ) (p : Push T X G) (built : Bool)
    (hregistered : ∀ r ∈ p.registered,(s.registrations r.1).status=.registered) :
    (∃ n,(n=s.nextUserData ∨ n=s.nextUserData+1) ∧
      s.push usizeMax p built=(.refused p.payload p.extra,{ s with nextUserData := n })) ∨
    (s.push usizeMax p built=(.queued s.nextUserData,s.queueing p) ∧
      ∀ use,p.use=some use → use.index<(s.lens use.registration).length ∧
        (s.registrations use.registration).status=.registered) := by
  unfold State.push
  by_cases hpass : (p.accepted && p.registered.all fun r=>s.checkedSpan r.1 r.2.1)=true
  swap
  · rw [if_neg hpass]
    exact .inl ⟨s.nextUserData,.inl rfl,rfl⟩
  rw [if_pos hpass]
  obtain hnone | hsome:=h.reserve usizeMax
  · rw [hnone]
    exact .inl ⟨s.nextUserData,.inl rfl,rfl⟩
  rw [hsome]
  -- a span that was checked is on a buffer of its registration
  have huse : ∀ use,p.use=some use → use.index<(s.lens use.registration).length ∧
      (s.registrations use.registration).status=.registered:=by
    intro use heq
    obtain ⟨r,hr,rfl⟩:=map_eq_some_iff.mp heq
    refine ⟨?_,hregistered r hr⟩
    rw [Bool.and_eq_true,hr] at hpass
    have hspan : s.checkedSpan r.1 r.2.1=true:=hpass.2
    unfold State.checkedSpan at hspan
    by_contra hout
    rw [List.getElem?_eq_none (not_lt.mp hout)] at hspan
    cases hspan
  dsimp only
  rw [beginUse_reserved]
  unfold State.finishOwned
  cases built with
  | true=>exact .inr ⟨rfl,huse⟩
  | false =>
    refine .inl ⟨s.nextUserData+1,.inr rfl,?_⟩
    have hrestored : ((s.beginUse p.use).dropHeld p.held).counts=s.counts :=
      dropHeld_beginUse p.held fun use heq=>(huse use heq).1
    have hdropped:=dropHeld_reserved (s.beginUse p.use) (s.nextUserData+1) s.inFlight p.held
    rw [hrestored,beginUse_eq] at hdropped
    rw [if_neg (by simp),State.cancelReservation]
    simp only [erase_cons_head]
    exact congrArg (Prod.mk _) hdropped

end WindowsThreadpoolSys.IoRing
