import WindowsThreadpoolSys.DurableIoring.Proof.Naming

/-! A waiting seal of a live lineage starts once nothing at or below it is outstanding and every seal
before it has started. Its writes are then exactly the completed ones left to it. -/
namespace WindowsThreadpoolSys.DurableIoring
open Library Durability Table Counts

variable {E T I : Type} [LinearOrder E] {d : Durability E T I} {l : Key}

/-! ## What is outstanding -/

variable {e : E}

theorem lesser_le_left {a b : Option E} (h : ∃ o,a=some o ∧ o ≤ e) :
    ∃ o,lesser a b=some o ∧ o ≤ e := by
  obtain ⟨o,rfl,hle⟩:=h
  cases b with
  | none=>exact ⟨o,rfl,hle⟩
  | some b=>exact ⟨min o b,rfl,(min_le_left o b).trans hle⟩

theorem lesser_le_right {a b : Option E} (h : ∃ o,b=some o ∧ o ≤ e) :
    ∃ o,lesser a b=some o ∧ o ≤ e := by
  obtain ⟨o,rfl,hle⟩:=h
  cases a with
  | none=>exact ⟨o,rfl,hle⟩
  | some a=>exact ⟨min a o,rfl,(min_le_right a o).trans hle⟩

theorem Counts.lowest_le {counts : Counts E} (hproper : counts.Proper) (h : 0 < counts.countAt l e) : ∃ o,counts.lowest l=some o ∧ o ≤ e := by
  cases hlow : counts.lowest l with
  | none =>
    rw [lowest_eq_none hlow] at h
    cases h
  | some o=>exact ⟨o,rfl,(lowest_eq_some hproper hlow).2 e h⟩

variable {op : OpId}

theorem TablesOk.oldest_le_write (h : TablesOk d) {w : Write E T} (hw : d.writes.get op=some w)
    (hstage : w.stage=.inFlight) : ∃ o,d.oldestOutstanding w.lineage=some o ∧ o ≤ w.epoch := by
  refine lesser_le_left (lowest_le h.counts.inFlight_proper ?_)
  rw [h.counts.inFlight_count,count_pos]
  exact ⟨op,w,hw,isInFlightAt_iff.mpr ⟨⟨rfl,rfl⟩,hstage⟩⟩

theorem TablesOk.oldest_le_held (h : TablesOk d) {g : HeldOp E T} {a : Accepted E T}
    (hg : d.held.get op=some g) (ha : g.write=some a) :
    ∃ o,d.oldestOutstanding a.lineage=some o ∧ o ≤ a.epoch := by
  refine lesser_le_right (lowest_le h.counts.held_proper ?_)
  rw [h.counts.held_count,count_pos]
  exact ⟨op,g,hg,isHeldAt_iff.mpr ⟨a,ha,rfl,rfl⟩⟩

theorem TablesOk.oldest_outstanding (h : TablesOk d) {o : E} (ho : d.oldestOutstanding l=some o) :
    (∃ op w,d.writes.get op=some w ∧ w.lineage=l ∧ w.epoch=o ∧ w.stage=.inFlight) ∨
      ∃ op g a,d.held.get op=some g ∧ g.write=some a ∧ a.lineage=l ∧ a.epoch=o := by
  have hfly : ∀ e,lowest d.inFlightByEpoch l=some e → ∃ op w,
      d.writes.get op=some w ∧ w.lineage=l ∧ w.epoch=e ∧ w.stage=.inFlight:=by
    intro e he
    have hpos:=(lowest_eq_some h.counts.inFlight_proper he).1
    rw [h.counts.inFlight_count,count_pos] at hpos
    obtain ⟨op,w,hw,hat⟩:=hpos
    obtain ⟨⟨hl,he⟩,hstage⟩:=isInFlightAt_iff.mp hat
    exact ⟨op,w,hw,hl.symm,he.symm,hstage⟩
  have hheld : ∀ e,lowest d.heldByEpoch l=some e → ∃ op g a,
      d.held.get op=some g ∧ g.write=some a ∧ a.lineage=l ∧ a.epoch=e:=by
    intro e he
    have hpos:=(lowest_eq_some h.counts.held_proper he).1
    rw [h.counts.held_count,count_pos] at hpos
    obtain ⟨op,g,hg,hat⟩:=hpos
    obtain ⟨a,ha,hl,he⟩:=isHeldAt_iff.mp hat
    exact ⟨op,g,a,hg,ha,hl.symm,he.symm⟩
  unfold oldestOutstanding at ho
  cases hf : lowest d.inFlightByEpoch l with
  | none =>
    rw [hf] at ho
    exact .inr (hheld o ho)
  | some a =>
    cases hh : lowest d.heldByEpoch l with
    | none =>
      rw [hf,hh] at ho
      cases ho
      exact .inl (hfly _ hf)
    | some b =>
      rw [hf,hh] at ho
      cases ho
      rcases min_choice a b with hmin | hmin <;> rw [hmin]
      · exact .inl (hfly a hf)
      · exact .inr (hheld b hh)

/-! ## The seal's lineage -/

section Lineage

variable {st : LineageState E} {s : Seal E}

/-- `s` is the first of `l`'s seals still waiting, and nothing at or below it is outstanding. -/
structure Starts (d : Durability E T I) (l : Key) (st : LineageState E) (s : Seal E) : Prop where
  lineage : d.lineages.get l = some st
  live : st.ended = false
  queued : d.seals.get ⟨l, s.seq⟩ = some s
  waits : s.stage = .waiting
  first : ∀ s' ∈ sealsOf d.seals l, s'.seq < s.seq → s'.stage ≠ .waiting
  outstanding : ∀ o, d.oldestOutstanding l = some o → s.through < o

namespace Starts

theorem mem (h : Starts d l st s) (hkeys : KeysOk d.writes d.held d.seals d.kept) :
    s ∈ sealsOf d.seals l := hkeys.mem_sealsOf.mpr h.queued

theorem through_lt (h : Starts d l st s) (ht : TablesOk d) {s' : Seal E}
    (hs' : s' ∈ sealsOf d.seals l) (hwaits : s'.stage=.waiting) (hne : s' ≠ s) :
    s.through < s'.through := by
  have hordered:=(ht.keys.sealsOf_sorted l).and
    (ht.marks l st h.lineage h.live).queue.recorded_ordered
  rcases pairwise_mem_or hordered hs' (h.mem ht.keys) hne with hbefore | hafter
  · exact absurd hwaits (h.first s' hs' hbefore.1)
  · exact hafter.2.1

theorem covering_eq (h : Starts d l st s) (ht : TablesOk d) {s' : Seal E} {epoch : E}
    (hcovering : covering (slots st.leading (sealsOf d.seals l)) epoch=some (.recorded s'))
    (hwaits : s'.stage=.waiting) (hle : epoch ≤ s.through) : s'=s := by
  by_contra hne
  have hmem:=(recorded_mem_slots _ _).mp (covering_mem hcovering)
  have hlt:=h.through_lt ht hmem hwaits hne
  have hfirst:=covering_first (ht.marks l st h.lineage h.live).queue hcovering
    ((recorded_mem_slots _ _).mpr (h.mem ht.keys)) hle
  exact absurd hlt hfirst.not_gt

theorem above_of_outstanding (h : Starts d l st s) {epoch : E}
    (hout : ∃ o,d.oldestOutstanding l=some o ∧ o ≤ epoch) : s.through < epoch := by
  obtain ⟨o,ho,hle⟩:=hout
  exact (h.outstanding o ho).trans_le hle

end Starts

/-- `y` is `x`, or, where `x` is seal `s`, the seal at `stage`. -/
def Slot.StageTo (s : Seal E) (stage : SealStage) (x y : Slot E) : Prop :=
  x = .recorded s ∧ y = .recorded { s with stage := stage } ∨ x ≠ .recorded s ∧ y = x

theorem stage_slots (hkeys : KeysOk d.writes d.held d.seals d.kept)
    (hs : d.seals.get ⟨l,s.seq⟩=some s) (leading : Option (Empty E)) (stage : SealStage) :
    List.Forall₂ (Slot.StageTo s stage) (slots leading (sealsOf d.seals l))
      (slots leading (sealsOf (d.seals.insert ⟨l,s.seq⟩ { s with stage := stage }) l)) := by
  have hempty : ∀ o : Option (Empty E),
      Option.Rel (fun e e'=>Slot.StageTo s stage (.empty e) (.empty e')) o o:=by
    rintro (_ | e)
    · exact .none
    · exact .some (.inr ⟨by simp,rfl⟩)
  rw [insert_seal _ hs]
  refine slots_forall₂ (hempty _) (sealsOf_map fun k v hv hl=>?_)
  split_ifs with hk
  · rw [hk,hs] at hv
    cases hv
    exact ⟨.inl ⟨rfl,rfl⟩,hempty _⟩
  · refine ⟨.inr ⟨?_,rfl⟩,hempty _⟩
    intro heq
    obtain rfl:=Slot.recorded.inj heq
    obtain ⟨kl,kq⟩:=k
    have hseq:=hkeys.seal_key _ v hv
    exact hk (by rw [show kl=l from hl,show kq=v.seq from hseq.symm])

omit [LinearOrder E] in
theorem stage_moves (x y : Slot E) (stage : SealStage) (h : Slot.StageTo s stage x y) :
    Slot.Moves (fun s₁ s₂ => s₁=s ∧ s₂={ s with stage := stage } ∨ s₁ ≠ s ∧ s₂=s₁) x y := by
  rcases h with ⟨rfl,rfl⟩ | ⟨hne,rfl⟩
  · exact .recorded ⟨rfl,rfl,rfl⟩ (.inl ⟨rfl,rfl⟩)
  · cases y with
    | empty e=>exact .empty (.refl e)
    | recorded s₁=>exact .recorded (.refl s₁) (.inr ⟨fun heq=>hne (heq ▸ rfl),rfl⟩)

theorem LineageOk.start (ht : TablesOk d) (h : Starts d l st s) (unanswered : ℕ) : LineageOk l st
      (d.seals.insert ⟨l,s.seq⟩ { s with stage := .flushing unanswered false })
      (d.writes.map fun _ w => w.named l s) d.held d.sealsMade := by
  have hl:=ht.marks l st h.lineage h.live
  have hstep:=stage_slots ht.keys h.queued st.leading (.flushing unanswered false)
  have hmoves:=hstep.imp fun x y=>stage_moves x y _
  -- an epoch left to another seal is still left to it
  have hother : ∀ {epoch s₁},covering (slots st.leading (sealsOf d.seals l)) epoch =
      some (.recorded s₁) → s₁≠s →
      covering (slots st.leading (sealsOf
        (d.seals.insert ⟨l,s.seq⟩ { s with stage:=.flushing unanswered false }) l)) epoch =
        some (.recorded s₁):=by
    intro epoch s₁ hcovering hne
    obtain ⟨s₂,hs₂, -,hsame⟩:=covering_recorded (hcovering ▸ covering_moves _ hmoves)
    rw [hs₂,(hsame.resolve_left fun heq=>hne heq.1).2]
  have hopen : ∀ {epoch},s.through < epoch →
      OpenAt (slots st.leading (sealsOf d.seals l)) st.durableThrough st.sealedThrough epoch →
      OpenAt (slots st.leading (sealsOf
        (d.seals.insert ⟨l,s.seq⟩ { s with stage:=.flushing unanswered false }) l))
        st.durableThrough st.sealedThrough epoch:=by
    rintro epoch hlt ⟨habove,hleft⟩
    refine ⟨habove,fun hsealed=>?_⟩
    obtain ⟨s₁,hcovering,hwaits⟩:=hleft hsealed
    refine ⟨s₁,hother hcovering ?_,hwaits⟩
    rintro rfl
    exact absurd (covering_le hcovering) hlt.not_ge
  refine {
    queue:=hl.queue.moves hmoves ?_
    made_lt:=fun y hy=>?_
    write_at:=fun op w' hw' hwl=>?_
    held_at:=fun op g a hg ha hal=>?_ }
  · -- a seal that waits is after `s`, and so is what comes after it
    refine pairwise_moved (hl.queue.ordered.and hl.queue.started) hstep
      fun x₁ hx₁ x₂ hx₂ y₁ y₂ hbefore h₁ h₂ hwaits=>?_
    rcases h₁ with ⟨-,rfl⟩ | ⟨hne,rfl⟩
    · cases hwaits
    · rcases h₂ with ⟨rfl,rfl⟩ | ⟨-,rfl⟩
      · cases y₁ with
        | empty e=>exact hwaits.elim
        | recorded s₁ =>
          have hafter:=h.through_lt ht ((recorded_mem_slots _ _).mp hx₁) hwaits
            fun heq=>hne (heq ▸ rfl)
          exact absurd hbefore.1.1 hafter.not_gt
      · exact hbefore.2 hwaits
  · obtain ⟨x,hx,hxy⟩:=exists_moved hmoves hy
    rw [hxy.made_eq]
    exact hl.made_lt x hx
  · rw [get_map] at hw'
    obtain ⟨w,hw,rfl⟩:=Option.map_eq_some_iff.mp hw'
    unfold Write.named at hwl ⊢
    split_ifs at hwl ⊢ with hnamed
    · -- a completed write at or below `s` was left to it
      obtain ⟨-,hstage,hle⟩:=isNamedBy_iff.mp hnamed
      have hat:=hl.write_at op w hw hwl
      rw [hstage] at hat
      obtain ⟨habove,hleft⟩:=hat
      obtain ⟨e,he,hse⟩:=hl.queue.le_sealed
        ((recorded_mem_slots _ _).mpr (h.mem ht.keys))
      obtain ⟨s₁,hcovering,hwaits⟩:=hleft (not_above_iff.mpr ⟨e,he,hle.trans hse⟩)
      obtain rfl:=h.covering_eq ht hcovering hwaits hle
      obtain ⟨s₂,hs₂, -,hsame⟩:=covering_recorded (hcovering ▸ covering_moves _ hmoves)
      obtain ⟨-,rfl⟩:=hsame.resolve_right fun heq=>heq.1 rfl
      exact ⟨habove,_,hs₂,rfl,by simp⟩
    · have hat:=hl.write_at op w hw hwl
      cases hstage : w.stage with
      | inFlight =>
        rw [hstage] at hat
        exact hopen (h.above_of_outstanding (hwl ▸ ht.oldest_le_write hw hstage)) hat
      | completed =>
        rw [hstage] at hat
        refine hopen (not_le.mp fun hle=>hnamed ?_) hat
        exact isNamedBy_iff.mpr ⟨hwl,hstage,hle⟩
      | named q =>
        rw [hstage] at hat
        obtain ⟨habove,s₁,hcovering,hseq,hstarted⟩:=hat
        refine ⟨habove,s₁,hother hcovering ?_,hseq,hstarted⟩
        rintro rfl
        exact hstarted h.waits
  · exact hopen (h.above_of_outstanding (hal ▸ ht.oldest_le_held hg ha))
      (hl.held_at op g a hg ha hal)

theorem MarksOk.start (ht : TablesOk d) (h : Starts d l st s) (unanswered : ℕ) : MarksOk d.lineages
      (d.seals.insert ⟨l,s.seq⟩ { s with stage := .flushing unanswered false })
      (d.writes.map fun _ w => w.named l s) d.held d.sealsMade := by
  intro l' st' hst' hlive'
  by_cases hl : l'=l
  · subst hl
    rw [h.lineage] at hst'
    cases hst'
    exact LineageOk.start ht h unanswered
  · have hsame : sealsOf (d.seals.insert ⟨l,s.seq⟩ { s with stage:=.flushing unanswered false })
        l'=sealsOf d.seals l':=select_insert_of_not _ (by simpa using Ne.symm hl)
    have hother:=(ht.marks l' st' hst' hlive').congr hsame le_rfl
    refine { hother with write_at:=fun op w' hw' hwl=>?_ }
    rw [get_map] at hw'
    obtain ⟨w,hw,rfl⟩:=Option.map_eq_some_iff.mp hw'
    have hsame : w.named l s=w:=by
      unfold Write.named
      rw [if_neg]
      intro hnamed
      have hwl' : w.lineage=l:=(isNamedBy_iff.mp hnamed).1
      rw [Write.named,if_pos hnamed] at hwl
      exact hl (hwl.symm.trans hwl')
    rw [hsame] at hwl ⊢
    exact hother.write_at op w hw hwl

theorem CountsOk.named (h : CountsOk d.writes d.held d.inFlightByEpoch d.heldByEpoch d.gated)
    (l : Key) (s : Seal E) :
    CountsOk (d.writes.map fun _ w => w.named l s) d.held d.inFlightByEpoch d.heldByEpoch d.gated :=
  { h with
    inFlight_count:=fun l' e=>by
      rw [h.inFlight_count,count_map]
      refine count_congr fun op w _=>?_
      unfold Write.named
      split_ifs with hnamed
      · obtain ⟨-,hstage, -⟩:=isNamedBy_iff.mp hnamed
        simp [isInFlightAt,hstage]
      · rfl }

theorem named_cases {w' : Write E T} (h : (d.writes.map fun _ w => w.named l s).get op=some w') :
    (∃ w,d.writes.get op=some w ∧ w.lineage=l ∧ w.stage=.completed ∧
        w'={ w with stage := .named s.seq }) ∨
      d.writes.get op=some w' := by
  rw [get_map] at h
  obtain ⟨w,hw,rfl⟩:=Option.map_eq_some_iff.mp h
  unfold Write.named
  split_ifs with hnamed
  · obtain ⟨hl,hstage, -⟩:=isNamedBy_iff.mp hnamed
    exact .inl ⟨w,hw,hl,hstage,rfl⟩
  · exact .inr hw

theorem named_get {w : Write E T} (hw : d.writes.get op=some w) (hstage : w.stage ≠ .completed) :
    (d.writes.map fun _ w => w.named l s).get op=some w := by
  rw [get_map,hw]
  unfold Write.named
  rw [Option.map_some,if_neg]
  intro hnamed
  exact hstage (isNamedBy_iff.mp hnamed).2.1

end Lineage

/-! ## The parts the seal asks for -/

section Parts

variable {st : LineageState E} {s : Seal E} {n : Durability.Naming E T} {sealDomains : SealDomains}
  {limit : ℕ}

theorem routing_served {file served : List DomainId} (h : (routing file served).default=false) :
    (routing file served).provider=true ∧ ∃ domain ∈ file,domain ∈ served := by
  unfold routing at h ⊢
  split_ifs at h ⊢ with hempty
  cases file with
  | nil=>simp at hempty
  | cons domain rest =>
    have hserved : domain ∈ served:=by simpa using (List.any_eq_false.mp h) domain (by simp)
    exact ⟨by simp [hserved],domain,by simp,hserved⟩

theorem NamingOk.other_seal (hn : NamingOk d l s.seq (d.writes.map fun _ w => w.named l s) n)
    {l' : Key} {q' : ℕ} (hne : ¬(l'=l ∧ q'=s.seq)) (file : IoTargetKey) :
    n.spans.get ⟨l',file,.sealed q'⟩=d.spans.get ⟨l',file,.sealed q'⟩ := by
  refine hn.other _ fun hk=>hne ⟨hk.1,?_⟩
  simpa using hk.2

theorem PartsOk.start (ht : TablesOk d) (h : Starts d l st s)
    (hn : NamingOk d l s.seq (d.writes.map fun _ w => w.named l s) n)
    (hasked : askDomains d.sealDomains limit l s.seq n.touched=.ok sealDomains) : PartsOk d.lineages
      (d.seals.insert ⟨l,s.seq⟩ { s with stage := .flushing n.unanswered false }) n.spans
      sealDomains (d.writes.map fun _ w => w.named l s) d.lists d.served := by
  have hp:=ht.parts
  have hne : ∀ {k : SealKey},k≠⟨l,s.seq⟩ → ¬(k.lineage=l ∧ k.seq=s.seq):=by
    rintro ⟨kl,kq⟩ hk ⟨rfl,rfl⟩
    exact hk rfl
  have hdomain : ∀ {l' q'},¬(l'=l ∧ q'=s.seq) → ∀ domain,
      sealDomains.get ⟨l',q',domain⟩=d.sealDomains.get ⟨l',q',domain⟩:=by
    intro l' q' hk domain
    rw [askDomains_get hasked,if_neg fun hat=>hk ⟨hat.1,hat.2.1⟩]
  -- a write named before is named to a seal that had started
  have hold : ∀ {op w q},d.writes.get op=some w → w.stage=.named q →
      ¬(w.lineage=l ∧ q=s.seq):=by
    rintro op w q hw hstage ⟨hl,rfl⟩
    exact ht.waiting_named h.queued h.waits hw hl hstage
  refine {
    flushing:=fun k v m failed hv hstage=>?_
    done_file:=fun k v ok hv hstage file e he hflushed=>?_
    done_domain:=fun k v ok hv hstage domain part hpart=>?_
    named_seal:=fun op w' q hw' hstage=>?_
    named_flush:=fun op w' q hw' hstage hdefault=>?_
    flushed_default:=fun op w' q e hw' hstage he hflushed=>?_
    named_asked:=fun op w' q st' hw' hstage hst' hlive' hprovider domain hmem hserved=>?_
    asked_write:=fun k part st' hpart hans hst' hlive'=>?_
    part_ok:=fun k part hpart hok=>?_
    failed_answered:=fun k v hv hfailed=>?_ }
  · rcases insert_cases hv with ⟨rfl,rfl⟩ | ⟨hk,hv⟩
    · cases hstage
      exact hn.unanswered
    · rw [hp.flushing k v m failed hv hstage]
      refine count_eq_of_agree fun key e hout=>?_
      obtain ⟨kl,file,span⟩:=key
      simp only [isOut,Bool.and_eq_true,decide_eq_true_eq] at hout
      obtain ⟨⟨⟨rfl,rfl⟩, -⟩, -⟩:=hout
      rw [hn.other_seal (hne hk)]
  · rcases insert_cases hv with ⟨rfl,rfl⟩ | ⟨hk,hv⟩
    · cases hstage
    · rw [hn.other_seal (hne hk)] at he
      exact hp.done_file k v ok hv hstage file e he hflushed
  · rcases insert_cases hv with ⟨rfl,rfl⟩ | ⟨hk,hv⟩
    · cases hstage
    · rw [hdomain (hne hk)] at hpart
      exact hp.done_domain k v ok hv hstage domain part hpart
  · rcases named_cases hw' with ⟨w,hw,rfl, -,rfl⟩ | hw
    · cases hstage
      exact ⟨_,get_insert_self _ _ _,by simp⟩
    · obtain ⟨v,hv,hstarted⟩:=hp.named_seal op w' q hw hstage
      refine ⟨v,?_,hstarted⟩
      rw [get_insert_of_ne _ _ ,hv]
      intro hk
      exact hold hw hstage ⟨(SealKey.mk.inj hk).1,(SealKey.mk.inj hk).2⟩
  · rcases named_cases hw' with ⟨w,hw,rfl, -,rfl⟩ | hw
    · cases hstage
      exact hn.flush op _ hw' rfl rfl hdefault
    · rw [hn.other_seal (hold hw hstage)]
      exact hp.named_flush op w' q hw hstage hdefault
  · rcases named_cases hw' with ⟨w,hw,rfl, -,rfl⟩ | hw
    · cases hstage
      exact hn.default op _ e hw' rfl rfl he hflushed
    · rw [hn.other_seal (hold hw hstage)] at he
      exact hp.flushed_default op w' q e hw hstage he hflushed
  · rw [askDomains_get hasked]
    split_ifs with hat
    · exact ⟨_,rfl⟩
    · rcases named_cases hw' with ⟨w,hw,hl, -,rfl⟩ | hw
      · cases hstage
        refine absurd ⟨hl,rfl,?_⟩ hat
        exact (hn.touched domain).mpr ⟨op,_,hw',hl,rfl,hprovider,hmem,hserved⟩
      · exact hp.named_asked op w' q st' hw hstage hst' hlive' hprovider domain hmem hserved
  · rw [askDomains_get hasked] at hpart
    split_ifs at hpart with hat
    · obtain ⟨hl,hq,htouched⟩:=hat
      obtain ⟨op,w',hw',hl',hstage, -,hmem, -⟩:=(hn.touched _).mp htouched
      exact ⟨op,w',hw',hl'.trans hl.symm,hq ▸ hstage,hmem⟩
    · obtain ⟨op,w,hw,hl,hstage,hmem⟩:=hp.asked_write k part st' hpart hans hst' hlive'
      exact ⟨op,w,named_get hw (by simp [hstage]),hl,hstage,hmem⟩
  · rw [askDomains_get hasked] at hpart
    split_ifs at hpart
    · cases hpart
      cases hok
    · exact hp.part_ok k part hpart hok
  · rcases insert_cases hv with ⟨rfl,rfl⟩ | ⟨-,hv⟩
    · cases hfailed
    · exact hp.failed_answered k v hv hfailed

theorem CoverOk.start (hcover : CoverOk d.lineages d.spans d.sealDomains d.writes d.lists d.served)
    (ht : TablesOk d) (h : Starts d l st s)
    (hn : NamingOk d l s.seq (d.writes.map fun _ w => w.named l s) n)
    (hasked : askDomains d.sealDomains limit l s.seq n.touched=.ok sealDomains) :
    CoverOk d.lineages n.spans sealDomains (d.writes.map fun _ w => w.named l s) d.lists
      d.served := by
  intro op w' q st' hw' hstage hst' hlive' hcovered
  rcases named_cases hw' with ⟨w,hw,rfl, -,rfl⟩ | hw
  · cases hstage
    cases hdefault : w.routing.default with
    | true =>
      obtain ⟨e,he,hok⟩:=hcovered.1 hdefault
      have hans:=hn.spans.ok_answered _ e he hok
      rw [hn.fresh w.file e he] at hans
      cases hans
    | false =>
      have hrouted:=ht.files.write_routed op w st' hw hst' hlive'
      rw [hrouted] at hdefault
      obtain ⟨hprovider,domain,hmem,hserved⟩:=routing_served hdefault
      rw [← hrouted] at hprovider
      obtain ⟨part,hpart,hok⟩:=hcovered.2 domain hmem hserved
      rw [askDomains_get hasked,if_pos] at hpart
      · cases hpart
        cases hok
      · exact ⟨rfl,rfl,(hn.touched domain).mpr ⟨op,_,hw',rfl,rfl,hprovider,hmem,hserved⟩⟩
  · have hold : ¬(w'.lineage=l ∧ q=s.seq):=by
      rintro ⟨hl,rfl⟩
      exact ht.waiting_named h.queued h.waits hw hl hstage
    refine hcover op w' q st' hw hstage hst' hlive' ⟨fun hdefault=>?_,fun domain hmem hserved=>?_⟩
    · obtain ⟨e,he,hok⟩:=hcovered.1 hdefault
      rw [hn.other_seal hold] at he
      exact ⟨e,he,hok⟩
    · obtain ⟨part,hpart,hok⟩:=hcovered.2 domain hmem hserved
      rw [askDomains_get hasked,if_neg fun hat=>hold ⟨hat.1,hat.2.1⟩] at hpart
      exact ⟨part,hpart,hok⟩

theorem EndsOk.start (hends : EndsOk d.lineages d.writes d.held d.seals d.spans d.abandoned)
    (h : Starts d l st s) (hn : NamingOk d l s.seq (d.writes.map fun _ w => w.named l s) n) :
    EndsOk d.lineages (d.writes.map fun _ w => w.named l s) d.held
      (d.seals.insert ⟨l,s.seq⟩ { s with stage := .flushing n.unanswered false }) n.spans
      d.abandoned := by
  have hother : ∀ {l' st'},d.lineages.get l'=some st' → st'.ended=true → l'≠l:=by
    intro l' st' hst' hended
    exact (ne_of_ended hst' hended h.lineage h.live).symm
  exact { hends with
    ended_write:=fun op w' st' hw' hst' hended=>by
      rcases named_cases hw' with ⟨w,hw,rfl, -,rfl⟩ | hw
      · exact absurd rfl (hother hst' hended)
      · refine (hends.ended_write op w' st' hw hst' hended).imp_right ?_
        rintro ⟨q,e,hstage,he,hrest⟩
        refine ⟨q,e,hstage,?_,hrest⟩
        rw [hn.other_seal fun hat=>hother hst' hended hat.1]
        exact he
    ended_seal:=fun k v st' hv hst' hended=>by
      rw [get_insert_of_ne] at hv
      · exact hends.ended_seal k v st' hv hst' hended
      · rintro rfl
        exact hother hst' hended rfl }

end Parts

theorem start_stays {s : Seal E} (hs : d.seals.get ⟨l,s.seq⟩=some s) (m : ℕ) (k : SealKey)
    (v : Seal E) (hv : d.seals.get k=some v) :
    SealStays v (if k=⟨l,s.seq⟩ then { s with stage := .flushing m false } else v) := by
  split_ifs with hk
  · rw [hk,hs] at hv
    cases hv
    exact ⟨rfl,rfl,rfl,fun hwaits=>by cases hwaits⟩
  · exact ⟨rfl,rfl,rfl,id⟩

theorem Inv.startSeal {c c' : Change E T I} {st : LineageState E} {s : Seal E} (h : Inv c.core)
    (hs : Starts c.core l st s) (hok : startSeal c l s=.ok c') : Inv c'.core := by
  obtain ⟨n,sealDomains,hfold,hasked,rfl⟩:=startSeal_ok hok
  have ht:=h.toTablesOk
  have hn:=ht.naming hs.lineage hs.live hs.queued hs.waits hfold
  have hrelabels:=Relabels.named l s c.core.writes
  have hstays:=start_stays hs.queued n.unanswered
  have hkeys:=(hrelabels.keys ht.keys).reseal hstays
  have hlives:=ht.lives.reseal hstays
  have hwindow:=(hrelabels.window h.window).reseal hstays
  rw [← insert_seal _ hs.queued] at hkeys hlives hwindow
  exact {
    keys:=hkeys
    clocks:=hrelabels.clocks ht.clocks
    counts:=ht.counts.named l s
    spans:=hn.spans
    lives:={ hlives with
      write_lineage:=fun op w' hw'=>by
        rcases named_cases hw' with ⟨w₀,hw₀, -, -,rfl⟩ | hw₀
        · exact ht.lives.write_lineage op w₀ hw₀
        · exact ht.lives.write_lineage op w' hw₀
      domain_seal:=fun k part hpart=>by
        rw [askDomains_get hasked] at hpart
        split_ifs at hpart with hat
        · obtain ⟨hl,hq,htouched⟩:=hat
          obtain ⟨-, -, -, -, -, -, -,hserved⟩:=(hn.touched _).mp htouched
          exact ⟨hserved,_,by rw [hl,hq]; exact get_insert_self _ _ _,by simp⟩
        · exact hlives.domain_seal k part hpart }
    marks:=MarksOk.start ht hs n.unanswered
    parts:=PartsOk.start ht hs hn hasked
    files:=hrelabels.files ht.files hn.entry_domains
    suspects:=hrelabels.suspects ht.suspects fun op w w' hw hw' f _=>by
      rcases named_cases hw' with ⟨w₀,hw₀, -, -,rfl⟩ | hw₀
      · rw [hw] at hw₀
        cases hw₀
        rfl
      · rw [hw] at hw₀
        cases hw₀
        rfl
    tokens:=ht.tokens
    cover:=CoverOk.start h.cover ht hs hn hasked
    ends:=EndsOk.start h.ends hs hn
    window:=hwindow }

end WindowsThreadpoolSys.DurableIoring
