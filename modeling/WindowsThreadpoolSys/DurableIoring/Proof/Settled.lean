import WindowsThreadpoolSys.DurableIoring.Proof.Steps

/-! A lineage is settled when none of its seals can start or finish. Starting and finishing a lineage's
seals once settles it, and no step of an advance unsettles it. -/
namespace WindowsThreadpoolSys.DurableIoring
open Library Durability List Table Option
open Relation (ReflTransGen)

variable {E T I : Type} [LinearOrder E] {d d' : Durability E T I} {c c' : Change E T I} {l : Key}

def OutstandingBelow (d : Durability E T I) (l : Key) (through : E) : Prop :=
  ∃ o, d.oldestOutstanding l = some o ∧ o ≤ through

def HasEmpty (d : Durability E T I) (l : Key) (e : Empty E) : Prop :=
  (∃ st, d.lineages.get l = some st ∧ st.leading = some e) ∨
    ∃ s ∈ sealsOf d.seals l, s.trailing = some e

/-- No seal of `l` can start or finish. -/
structure Settled (d : Durability E T I) (l : Key) : Prop where
  waiting : ∀ s ∈ sealsOf d.seals l, s.stage = .waiting → OutstandingBelow d l s.through
  flushing : ∀ s ∈ sealsOf d.seals l, d.hasAnswered l s = false
  empty : ∀ e, HasEmpty d l e → e.finished = false → OutstandingBelow d l e.through

theorem hasAnswered_congr {s s' : Seal E} (hserved : d'.served=d.served)
    (hdomains : ∀ domain,d'.sealDomains.get ⟨l,s'.seq,domain⟩ =
      d.sealDomains.get ⟨l,s.seq,domain⟩) (hstage : s'.stage=s.stage) :
    d'.hasAnswered l s'=d.hasAnswered l s := by
  unfold hasAnswered
  simp only [hstage,hserved,hdomains]

theorem Settled.mono (h : Settled d l)
    (holdest : d'.oldestOutstanding l=d.oldestOutstanding l) (hserved : d'.served=d.served)
    (hdomains : ∀ s ∈ sealsOf d'.seals l,∀ domain,d'.sealDomains.get ⟨l,s.seq,domain⟩ =
      d.sealDomains.get ⟨l,s.seq,domain⟩)
    (hseals : ∀ s' ∈ sealsOf d'.seals l,∃ s ∈ sealsOf d.seals l,s'.seq=s.seq ∧
      s'.through=s.through ∧ (s'.stage=s.stage ∨ s'.stage.isDone=true))
    (hempty : ∀ e',HasEmpty d' l e' → e'.finished=false → ∃ e,HasEmpty d l e ∧
      e.finished=false ∧ e'.through=e.through) : Settled d' l where
  waiting s' hs' hwaits := by
    obtain ⟨s,hs, -,hthrough,hstage | hdone⟩:=hseals s' hs'
    · obtain ⟨o,ho,hle⟩:=h.waiting s hs (hstage.symm.trans hwaits)
      exact ⟨o,holdest.trans ho,hthrough ▸ hle⟩
    · rw [hwaits] at hdone
      cases hdone
  flushing s' hs':=by
    obtain ⟨s,hs,hseq, -,hstage | hdone⟩:=hseals s' hs'
    · rw [hasAnswered_congr hserved (fun domain=>hseq ▸ hdomains s' hs' domain) hstage]
      exact h.flushing s hs
    · cases hstage : s'.stage with
      | done ok | waiting=>simp [hasAnswered,hstage]
      | flushing n failed =>
        rw [hstage] at hdone
        cases hdone
  empty e' he' hunfinished:=by
    obtain ⟨e,he,hunfinished,hthrough⟩:=hempty e' he' hunfinished
    obtain ⟨o,ho,hle⟩:=h.empty e he hunfinished
    exact ⟨o,holdest.trans ho,hthrough ▸ hle⟩

theorem Settled.congr (h : Settled d l)
    (holdest : d'.oldestOutstanding l=d.oldestOutstanding l) (hserved : d'.served=d.served)
    (hdomains : ∀ q domain,d'.sealDomains.get ⟨l,q,domain⟩=d.sealDomains.get ⟨l,q,domain⟩)
    (hseals : sealsOf d'.seals l=sealsOf d.seals l)
    (hlineage : ∀ st',d'.lineages.get l=some st' → ∃ st,d.lineages.get l=some st ∧
      st'.leading=st.leading) : Settled d' l := by
  refine h.mono holdest hserved (fun s _=>hdomains s.seq)
    (fun s' hs'=>⟨s',hseals ▸ hs',rfl,rfl,.inl rfl⟩) fun e' he' hunfinished=>?_
  refine ⟨e',he'.imp ?_ ?_,hunfinished,rfl⟩
  · rintro ⟨st',hst',hleading⟩
    obtain ⟨st,hst,heq⟩:=hlineage st' hst'
    exact ⟨st,hst,heq ▸ hleading⟩
  · rintro ⟨s',hs',htrailing⟩
    exact ⟨s',hseals ▸ hs',htrailing⟩

/-! ## Finishing -/

theorem releaseHeals_leading (made : ℕ) (through : E) (l' : Key) (st' : LineageState E)
    (h : (d.releaseHeals l made through).lineages.get l'=some st') :
    ∃ st,d.lineages.get l'=some st ∧ st'.leading=st.leading := by
  unfold releaseHeals at h
  simp only at h
  rw [get_modify] at h
  split_ifs at h
  · obtain ⟨st,hst,rfl⟩:=map_eq_some_iff.mp h
    exact ⟨st,hst,rfl⟩
  · exact ⟨st',h,rfl⟩

variable {l' : Key}

theorem Settled.releaseHeals (h : Settled d l) (made : ℕ) (through : E) :
    Settled (d.releaseHeals l' made through) l :=
  h.congr rfl rfl (fun _ _=>rfl) rfl fun st' hst'=>releaseHeals_leading made through l st' hst'

theorem finishEmpty_unfinished {oldest : Option E} {e : Empty E}
    (h : (finishEmpty oldest e).finished=false) : finishEmpty oldest e=e ∧ e.finished=false ∧
      ∃ o,oldest=some o ∧ o ≤ e.through := by
  unfold finishEmpty at h ⊢
  split_ifs at h ⊢ with hfinishes
  refine ⟨rfl,h,?_⟩
  cases oldest with
  | none=>simp [finishesEmpty,h] at hfinishes
  | some o=>exact ⟨o,rfl,by simpa [finishesEmpty,h] using hfinishes⟩

variable {st : LineageState E}

theorem HasEmpty.of_emptied {e' : Empty E} (hkeys : KeysOk d.writes d.held d.seals d.kept)
    (h : HasEmpty (d.emptied l st) l e') (hst : d.lineages.get l=some st)
    (hunfinished : e'.finished=false) : HasEmpty d l e' ∧ (OutstandingBelow d l e'.through ∨
      ∃ s ∈ sealsOf d.seals l,s ∉ d.started l ∧ s.trailing=some e') := by
  rcases h with ⟨st',hst',hleading⟩ | ⟨s',hs',htrailing⟩
  · unfold emptied at hst'
    rw [get_insert_self] at hst'
    cases hst'
    obtain ⟨e,he,rfl⟩:=map_eq_some_iff.mp hleading
    obtain ⟨heq, -,hbelow⟩:=finishEmpty_unfinished hunfinished
    rw [heq]
    exact ⟨.inl ⟨st,hst,he⟩,.inl hbelow⟩
  · obtain ⟨k,hk,hget⟩:=mem_sealsOf.mp hs'
    unfold emptied at hget
    rw [Table.get_map] at hget
    obtain ⟨s,hs,rfl⟩:=map_eq_some_iff.mp hget
    have hmem : s ∈ sealsOf d.seals l:=mem_sealsOf.mpr ⟨k,hk,hs⟩
    unfold finishTrailing at htrailing
    split_ifs at htrailing with hstarted
    · obtain ⟨e,he,rfl⟩:=map_eq_some_iff.mp htrailing
      obtain ⟨heq, -,hbelow⟩:=finishEmpty_unfinished hunfinished
      rw [heq]
      exact ⟨.inr ⟨s,hmem,he⟩,.inl hbelow⟩
    · refine ⟨.inr ⟨s,hmem,htrailing⟩,.inr ⟨s,hmem,fun hin=>hstarted ⟨hk,?_⟩,htrailing⟩⟩
      rw [← hkeys.seal_key k s hs]
      exact List.mem_map_of_mem hin

theorem sealsOf_emptied (s' : Seal E)
    (h : s' ∈ sealsOf (d.emptied l' st).seals l) : ∃ s ∈ sealsOf d.seals l,s'.seq=s.seq ∧
      s'.through=s.through ∧ s'.stage=s.stage ∧ (l ≠ l' → s'=s) := by
  obtain ⟨k,hk,hget⟩:=mem_sealsOf.mp h
  unfold emptied at hget
  rw [Table.get_map] at hget
  obtain ⟨s,hs,rfl⟩:=map_eq_some_iff.mp hget
  refine ⟨s,mem_sealsOf.mpr ⟨k,hk,hs⟩,?_⟩
  unfold finishTrailing
  split_ifs with hstarted
  · exact ⟨rfl,rfl,rfl,fun hne=>absurd (hk.symm.trans hstarted.1) hne⟩
  · exact ⟨rfl,rfl,rfl,fun _=>rfl⟩

theorem sealsOf_done (s' : Seal E) (h : s' ∈ sealsOf (d.done l').seals l) :
    ∃ s ∈ sealsOf d.seals l,s'.seq=s.seq ∧ s'.through=s.through ∧ s'.trailing=s.trailing ∧
      (s'.stage=s.stage ∧ ¬(l=l' ∧ d.hasAnswered l' s=true) ∨ s'.stage.isDone=true) := by
  obtain ⟨k,hk,hget⟩:=mem_sealsOf.mp h
  unfold done at hget
  rw [Table.get_map] at hget
  obtain ⟨s,hs,rfl⟩:=map_eq_some_iff.mp hget
  refine ⟨s,mem_sealsOf.mpr ⟨k,hk,hs⟩,?_⟩
  unfold finishSeal
  split_ifs with hdone
  · obtain ⟨failed,hstage, -⟩:=hasAnswered_iff.mp hdone.2
    exact ⟨rfl,rfl,rfl,.inr (by simp [hstage,SealStage.finish,SealStage.isDone])⟩
  · exact ⟨rfl,rfl,rfl,.inl ⟨rfl,fun hboth=>hdone ⟨hk.trans hboth.1,hboth.2⟩⟩⟩

/-! ## What settles a lineage -/

theorem Settled.progress (hinv : Inv d) (hst : d.lineages.get l=some st) (hlive : st.ended=false)
    (hwaiting : ∀ s ∈ sealsOf d.seals l,s.stage=.waiting → OutstandingBelow d l s.through) :
    Settled ((d.finishEmpties l).finishSeals l) l := by
  -- an empty seal left unfinished has something outstanding below it, or below a seal before it
  have hempty : ∀ e,HasEmpty (d.emptied l st) l e → e.finished=false →
      OutstandingBelow d l e.through:=by
    intro e he hunfinished
    obtain ⟨-,hbelow | ⟨s,hs,hnot,htrailing⟩⟩:=he.of_emptied hinv.keys hst hunfinished
    · exact hbelow
    · have hsplit:=takeWhile_append_dropWhile (p:=fun s : Seal E=>!s.stage.isWaiting)
        (l:=sealsOf d.seals l)
      have hin : s ∈ (sealsOf d.seals l).dropWhile fun s=>!s.stage.isWaiting:=by
        rw [← hsplit] at hs
        exact (mem_append.mp hs).resolve_left hnot
      cases hrest : (sealsOf d.seals l).dropWhile fun s=>!s.stage.isWaiting with
      | nil =>
        rw [hrest] at hin
        cases hin
      | cons s₀ after =>
        have hwaits : s₀.stage=.waiting:=by
          have hhead:=List.head?_dropWhile_not (fun s : Seal E=>!s.stage.isWaiting)
            (sealsOf d.seals l)
          rw [hrest] at hhead
          simpa [SealStage.isWaiting_iff] using hhead
        have hmem : s₀ ∈ sealsOf d.seals l:=by
          rw [← hsplit,hrest]
          exact mem_append_right _ mem_cons_self
        obtain ⟨o,ho,hle⟩:=hwaiting s₀ hmem hwaits
        refine ⟨o,ho,hle.trans ?_⟩
        have hqueue:=(hinv.marks l st hst hlive).queue
        have hordered:=hqueue.recorded_ordered
        rw [← hsplit,hrest,pairwise_append,pairwise_cons] at hordered
        have htrail : s.through < e.through:=hqueue.trailing_lt hs htrailing
        rw [hrest] at hin
        rcases mem_cons.mp hin with rfl | hin
        · exact htrail.le
        · exact ((hordered.2.1.1 s hin).1.trans htrail).le
  -- the empty seals finished, with the heals they release
  obtain ⟨d₁,hd₁,hwaiting₁,hempty₁⟩ : ∃ d₁,d.finishEmpties l=d₁ ∧
      (∀ s ∈ sealsOf d₁.seals l,s.stage=.waiting → OutstandingBelow d₁ l s.through) ∧
      ∀ e,HasEmpty d₁ l e → e.finished=false → OutstandingBelow d₁ l e.through:=by
    have hwaits : ∀ s ∈ sealsOf (d.emptied l st).seals l,s.stage=.waiting →
        OutstandingBelow d l s.through:=by
      intro s' hs' hwaits
      obtain ⟨s,hs, -,hthrough,hstage, -⟩:=sealsOf_emptied s' hs'
      rw [hthrough]
      exact hwaiting s hs (hstage.symm.trans hwaits)
    rcases finishEmpties_cases hst with heq | ⟨e, -, -,heq⟩
    · exact ⟨_,heq,hwaits,hempty⟩
    · refine ⟨_,heq,hwaits,fun e' he'=>hempty e' (he'.imp_left ?_)⟩
      rintro ⟨st',hst',hleading⟩
      obtain ⟨st₁,hst₁,hsame⟩:=releaseHeals_leading _ _ l st' hst'
      exact ⟨st₁,hst₁,hsame ▸ hleading⟩
  rw [hd₁]
  have hdone : Settled (d₁.done l) l :=
    { waiting:=fun s' hs' hwaits=>by
        obtain ⟨s,hs, -,hthrough, -,hstage | hdone⟩:=sealsOf_done s' hs'
        · rw [hthrough]
          exact hwaiting₁ s hs (hstage.1.symm.trans hwaits)
        · rw [hwaits] at hdone
          cases hdone
      flushing:=fun s' hs'=>by
        obtain ⟨s,hs,hseq, -, -,hstage | hdone⟩:=sealsOf_done s' hs'
        · have hsame : (d₁.done l).hasAnswered l s'=d₁.hasAnswered l s :=
            hasAnswered_congr rfl (fun _=>by rw [hseq]; rfl) hstage.1
          rw [hsame]
          simpa using hstage.2
        · cases hstage : s'.stage with
          | done ok | waiting=>simp [hasAnswered,hstage]
          | flushing n failed =>
            rw [hstage] at hdone
            cases hdone
      empty:=fun e he hunfinished=>by
        refine hempty₁ e (he.imp_right ?_) hunfinished
        rintro ⟨s',hs',htrailing⟩
        obtain ⟨s,hs, -, -,hsame, -⟩:=sealsOf_done s' hs'
        exact ⟨s,hs,hsame ▸ htrailing⟩ }
  rcases d₁.finishSeals_cases l with heq | ⟨s, -, -, -,heq⟩ <;> rw [heq]
  · exact hdone
  · exact hdone.releaseHeals _ _

/-! ## What keeps it settled -/

theorem ProgressStep.settled (hstep : ProgressStep l' c c') (hinv : Inv c.core)
    (h : Settled c.core l) : Settled c'.core l := by
  cases hstep with
  | @start c' st s starts hok =>
    by_cases hl : l'=l
    · subst hl
      obtain ⟨o,ho,hle⟩:=h.waiting s (starts.mem hinv.keys) starts.waits
      exact absurd hle (starts.outstanding o ho).not_ge
    · obtain ⟨n,sealDomains, -,hasked,rfl⟩:=startSeal_ok hok
      refine h.congr rfl rfl (fun q domain=>?_) (select_insert_of_not _ (by simpa using hl))
        fun st' hst'=>⟨st',hst',rfl⟩
      rw [askDomains_get hasked,if_neg]
      rintro ⟨hl', -⟩
      exact hl hl'.symm
  | empties live =>
    obtain ⟨st,hst, -⟩:=isLive_iff.mp live
    have hemptied : Settled (c.core.emptied l' st) l:=by
      refine h.mono rfl rfl (fun _ _ _=>rfl) (fun s' hs'=>?_) fun e' he' hunfinished=>?_
      · obtain ⟨s,hs,hseq,hthrough,hstage, -⟩:=sealsOf_emptied s' hs'
        exact ⟨s,hs,hseq,hthrough,.inl hstage⟩
      · by_cases hl : l'=l
        · subst hl
          exact ⟨e',(he'.of_emptied hinv.keys hst hunfinished).1,hunfinished,rfl⟩
        · refine ⟨e',he'.imp ?_ ?_,hunfinished,rfl⟩
          · rintro ⟨st',hst',hleading⟩
            unfold emptied at hst'
            rw [get_insert_of_ne _ _ (Ne.symm hl)] at hst'
            exact ⟨st',hst',hleading⟩
          · rintro ⟨s',hs',htrailing⟩
            obtain ⟨s,hs, -, -, -,hsame⟩:=sealsOf_emptied s' hs'
            exact ⟨s,hs,hsame (Ne.symm hl) ▸ htrailing⟩
    rcases finishEmpties_cases hst with heq | ⟨e, -, -,heq⟩ <;> rw [heq]
    · exact hemptied
    · exact hemptied.releaseHeals _ _
  | seals live =>
    have hdone : Settled (c.core.done l') l:=by
      refine h.mono rfl rfl (fun _ _ _=>rfl) (fun s' hs'=>?_) fun e' he' hunfinished=>?_
      · obtain ⟨s,hs,hseq,hthrough, -,hstage⟩:=sealsOf_done s' hs'
        exact ⟨s,hs,hseq,hthrough,hstage.imp_left And.left⟩
      · refine ⟨e',he'.imp_right ?_,hunfinished,rfl⟩
        rintro ⟨s',hs',htrailing⟩
        obtain ⟨s,hs, -, -,hsame, -⟩:=sealsOf_done s' hs'
        exact ⟨s,hs,hsame ▸ htrailing⟩
    rcases c.core.finishSeals_cases l' with heq | ⟨s, -, -, -,heq⟩ <;> rw [heq]
    · exact hdone
    · exact hdone.releaseHeals _ _

theorem passSeal_queue {through : E} {recorded : Option (Seal E)}
    (hok : passSeal c l' st through recorded=.ok c') :
    c'.core.inFlightByEpoch=c.core.inFlightByEpoch ∧ c'.core.heldByEpoch=c.core.heldByEpoch ∧
      c'.core.served=c.core.served ∧ c'.core.seals=sealsWithout c.core.seals l' recorded ∧
      c'.core.sealDomains=domainsWithout c.core.sealDomains c.core.served l' recorded ∧
      c'.core.lineages=c.core.lineages.insert l' (st.passed through recorded) ∧
      c'.core.failures=c.core.failures ∧
      c'.core.writes=c.core.writes.filter fun _ w => !w.isBelow l' through := by
  obtain ⟨spans,taken,window,kept,abandoned,rfl⟩:=passSeal_eq hok
  exact ⟨rfl,rfl,rfl,rfl,rfl,rfl,rfl,rfl⟩

theorem Settled.modify (h : Settled d l) {k : SealKey} {f : Seal E → Seal E}
    (hsame : ∀ s,(f s).seq=s.seq ∧ (f s).through=s.through ∧ (f s).stage=s.stage ∧
      ∀ e',(f s).trailing=some e' → ∃ e,s.trailing=some e ∧ e'.finished=e.finished ∧
        e'.through=e.through) : Settled { d with seals := d.seals.modify k f } l := by
  have hback : ∀ s' ∈ sealsOf (d.seals.modify k f) l,∃ s ∈ sealsOf d.seals l,s'=s ∨ s'=f s:=by
    intro s' hs'
    obtain ⟨k',hk,hget⟩:=mem_sealsOf.mp hs'
    rw [get_modify] at hget
    split_ifs at hget
    · obtain ⟨s,hs,rfl⟩:=map_eq_some_iff.mp hget
      exact ⟨s,mem_sealsOf.mpr ⟨k',hk,hs⟩,.inr rfl⟩
    · exact ⟨s',mem_sealsOf.mpr ⟨k',hk,hget⟩,.inl rfl⟩
  refine h.mono rfl rfl (fun _ _ _=>rfl) (fun s' hs'=>?_) fun e' he' hunfinished=>?_
  · obtain ⟨s,hs,rfl | rfl⟩:=hback s' hs'
    · exact ⟨s',hs,rfl,rfl,.inl rfl⟩
    · exact ⟨s,hs,(hsame s).1,(hsame s).2.1,.inl (hsame s).2.2.1⟩
  · rcases he' with hleading | ⟨s',hs',htrailing⟩
    · exact ⟨e',.inl hleading,hunfinished,rfl⟩
    · obtain ⟨s,hs,rfl | rfl⟩:=hback s' hs'
      · exact ⟨e',.inr ⟨s',hs,htrailing⟩,hunfinished,rfl⟩
      · obtain ⟨e,he,hfinished,hthrough⟩:=(hsame s).2.2.2 e' htrailing
        exact ⟨e,.inr ⟨s,hs,he⟩,hfinished.symm.trans hunfinished,hthrough⟩

theorem MarkStep.settled (hstep : MarkStep l' c c') (hinv : Inv c.core)
    (h : Settled c.core l) : Settled c'.core l := by
  cases hstep with
  | @pass c' st through recorded passes free hok =>
    obtain ⟨hflying,hheld,hserved,hseals,hdomains,hlineages, -, -⟩:=passSeal_queue hok
    have hsub : ∀ s ∈ sealsOf c'.core.seals l,s ∈ sealsOf c.core.seals l:=by
      intro s hs
      rw [hseals] at hs
      obtain ⟨k,hk,hget⟩:=mem_sealsOf.mp hs
      exact mem_sealsOf.mpr ⟨k,hk,sealsWithout_sub _ _ _ _ _ hget⟩
    refine h.mono ?_ hserved (fun s hs domain=>?_) (fun s' hs'=>⟨s',hsub s' hs',rfl,rfl,.inl rfl⟩)
      fun e' he' hunfinished=>⟨e',?_,hunfinished,rfl⟩
    · unfold oldestOutstanding
      rw [hflying,hheld]
    · -- a seal left is not the one passed, whose domains went
      rw [hdomains]
      cases recorded with
      | none=>rfl
      | some s₀ =>
        rw [domainsWithout,forgetDomains_get,if_neg]
        rintro ⟨rfl,hseq, -⟩
        obtain ⟨k,hk,hget⟩:=mem_sealsOf.mp (hseals ▸ hs)
        rw [sealsWithout,get_erase] at hget
        split_ifs at hget with hkey
        have hkseq:=hinv.keys.seal_key k s hget
        obtain ⟨kl,kq⟩:=k
        simp only at hk hkseq
        exact hkey (by rw [hk,← hkseq]; exact congrArg (SealKey.mk l) hseq)
    · rcases he' with ⟨st',hst',hleading⟩ | ⟨s',hs',htrailing⟩
      · rw [hlineages,get_insert] at hst'
        split_ifs at hst' with hl
        · cases hst'
          -- what leads now trailed the seal passed
          obtain ⟨s₀,hs₀,htrailing⟩:=bind_eq_some_iff.mp hleading
          obtain ⟨hget, -⟩:=passes.recorded_get hinv.keys hs₀
          exact .inr ⟨s₀,mem_sealsOf.mpr ⟨_,hl.symm,hget⟩,htrailing⟩
        · exact .inl ⟨st',hst',hleading⟩
      · exact .inr ⟨s',hsub s' hs',htrailing⟩
  | @answer place through blocker live due blocked =>
    cases place with
    | leading =>
      refine h.mono rfl rfl (fun _ _ _=>rfl) (fun s' hs'=>⟨s',hs',rfl,rfl,.inl rfl⟩)
        fun e' he' hunfinished=>?_
      rcases he' with ⟨st',hst',hleading⟩ | htrailing
      · unfold answerAt at hst'
        simp only at hst'
        rw [get_modify] at hst'
        split_ifs at hst' with hl
        · obtain ⟨st,hst,rfl⟩:=map_eq_some_iff.mp hst'
          obtain ⟨e,he,rfl⟩:=map_eq_some_iff.mp hleading
          exact ⟨e,.inl ⟨st,hst,he⟩,hunfinished,rfl⟩
        · exact ⟨e',.inl ⟨st',hst',hleading⟩,hunfinished,rfl⟩
      · exact ⟨e',.inr htrailing,hunfinished,rfl⟩
    | recorded q=>exact h.modify fun s=>⟨rfl,rfl,rfl,fun e' he'=>⟨e',he',rfl,rfl⟩⟩
    | trailing q =>
      refine h.modify fun s=>⟨rfl,rfl,rfl,fun e' he'=>?_⟩
      obtain ⟨e,he,rfl⟩:=map_eq_some_iff.mp he'
      exact ⟨e,he,rfl,rfl⟩

theorem AdvanceStep.settled (hstep : AdvanceStep c c') (hinv : Inv c.core)
    (h : Settled c.core l) : Settled c'.core l := by
  cases hstep with
  | progress l' step | mark l' step=>exact step.settled hinv h
  | healed=>exact h.congr rfl rfl (fun _ _=>rfl) rfl fun st' hst'=>⟨st',hst',rfl⟩

/-! ## One lineage's progress -/

theorem progress_steps (hinv : Inv c.core) (hlive : c.core.isLive l=true)
    (hok : progress c l=.ok c') : ReflTransGen (ProgressStep l) c c' ∧ Settled c'.core l := by
  obtain ⟨st,hst,hended⟩:=isLive_iff.mp hlive
  unfold progress at hok
  rw [bind_eq_ok] at hok
  obtain ⟨c₁,hstart,hok⟩:=hok
  cases hok
  obtain ⟨hsteps,hwaiting⟩:=startSealsFrom_steps [] hinv hst hended rfl
    (by simp) hstart
  have hinv₁ : Inv c₁.core:=steps_invariant (P:=fun c=>Inv c.core) hsteps hinv
    fun _ _ hstep hc=>hstep.inv hc
  have hlive₁ : c₁.core.isLive l=true:=steps_invariant (P:=fun c=>c.core.isLive l=true)
    hsteps hlive fun _ _ hstep hc=>(hstep.relives.isLive l).trans hc
  obtain ⟨st₁,hst₁,hended₁⟩:=isLive_iff.mp hlive₁
  refine ⟨(hsteps.tail (.empties hlive₁)).tail (.seals ?_),
    Settled.progress hinv₁ hst₁ hended₁ hwaiting⟩
  exact ((finishEmpties_relives hst₁).isLive l).trans hlive₁

end WindowsThreadpoolSys.DurableIoring
