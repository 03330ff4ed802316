import WindowsThreadpoolSys.DurableIoring.Proof.Failures

/-! A lineage's un-passed seals by where they are kept. No two places hold seals of one `through`. What
becomes of the seals at their places under each change, answers apart, is `SealsKeep`. -/
namespace WindowsThreadpoolSys.DurableIoring
open Library Durability List Table Option

variable {E T I : Type} [LinearOrder E] {d d' d'' : Durability E T I} {c c' : Change E T I}
  {l : Key}

def Durability.slotAt (d : Durability E T I) (l : Key) : Place → Option (Slot E)
  | .leading => (d.lineages.get l).bind fun st => st.leading.map .empty
  | .recorded q => (d.seals.get ⟨l, q⟩).map .recorded
  | .trailing q => (d.seals.get ⟨l, q⟩).bind fun s => s.trailing.map .empty

variable {st : LineageState E}

theorem slots_eq_filterMap (hkeys : KeysOk d.writes d.held d.seals d.kept)
    (hst : d.lineages.get l=some st) : slots st.leading (sealsOf d.seals l) =
      (places d.seals l).filterMap (d.slotAt l) := by
  have hrest : ∀ xs : List (Seal E),(∀ s ∈ xs,d.seals.get ⟨l,s.seq⟩=some s) →
      (xs.flatMap fun s=>[Place.recorded s.seq,.trailing s.seq]).filterMap (d.slotAt l) =
        xs.flatMap fun s=>Slot.recorded s::s.trailing.toList.map .empty:=by
    intro xs hxs
    induction xs with
    | nil=>rfl
    | cons s rest ih =>
      have hs:=hxs s mem_cons_self
      rw [flatMap_cons,flatMap_cons,filterMap_append,ih fun s' hs'=>hxs s' (mem_cons_of_mem _ hs')]
      congr 1
      cases htrail : s.trailing <;> simp [slotAt,hs,htrail]
  unfold slots places
  have hplaces:=hrest (sealsOf d.seals l) fun s hs=>hkeys.mem_sealsOf.mp hs
  cases hlead : st.leading with
  | none =>
    rw [filterMap_cons_none (by simp [slotAt,hst,hlead]),hplaces]
    rfl
  | some e =>
    rw [filterMap_cons_some (b:=Slot.empty e) (by simp [slotAt,hst,hlead]),
      hplaces]
    rfl

variable {place : Place} {x : Slot E}

theorem mem_places (hkeys : KeysOk d.writes d.held d.seals d.kept) (h : d.slotAt l place=some x) :
    place ∈ places d.seals l := by
  unfold places
  cases place with
  | leading=>exact mem_cons_self
  | recorded q =>
    obtain ⟨s,hs, -⟩:=map_eq_some_iff.mp h
    have hseq : s.seq=q:=hkeys.seal_key _ s hs
    refine mem_cons_of_mem _ (mem_flatMap.mpr ⟨s,mem_sealsOf.mpr ⟨_,rfl,hs⟩,?_⟩)
    simp [hseq]
  | trailing q =>
    obtain ⟨s,hs, -⟩:=bind_eq_some_iff.mp h
    have hseq : s.seq=q:=hkeys.seal_key _ s hs
    refine mem_cons_of_mem _ (mem_flatMap.mpr ⟨s,mem_sealsOf.mpr ⟨_,rfl,hs⟩,?_⟩)
    simp [hseq]

theorem Inv.place_unique (h : Inv d) (hst : d.lineages.get l=some st) (hlive : st.ended=false)
    {place' : Place} {x' : Slot E} (hx : d.slotAt l place=some x)
    (hx' : d.slotAt l place'=some x') (hthrough : x.through=x'.through) : place=place' := by
  by_contra hne
  have hordered:=(h.marks l st hst hlive).queue.ordered
  rw [slots_eq_filterMap h.keys hst,pairwise_filterMap] at hordered
  rcases pairwise_mem_or hordered (mem_places h.keys hx) (mem_places h.keys hx') hne with hlt | hlt
  · exact absurd hthrough (hlt x hx x' hx').1.ne
  · exact absurd hthrough (hlt x' hx' x hx).1.ne'

theorem Inv.slotAt_mem (h : Inv d) (hst : d.lineages.get l=some st)
    (hx : d.slotAt l place=some x) : x ∈ slots st.leading (sealsOf d.seals l) := by
  rw [slots_eq_filterMap h.keys hst]
  exact mem_filterMap.mpr ⟨place,mem_places h.keys hx,hx⟩

theorem Inv.unminted_slot (h : Inv d) (hl : d.nextLineage ≤ l) (place : Place) (x : Slot E) :
    d.slotAt l place ≠ some x := by
  have hlineage : ∀ st,d.lineages.get l≠some st:=fun st hst =>
    absurd (h.clocks.lineage_clock l st hst) (not_lt.mpr hl)
  have hseal : ∀ q s,d.seals.get ⟨l,q⟩≠some s:=fun q s hs=>by
    obtain ⟨st,hst, -⟩:=h.lives.seal_lineage _ s hs
    exact hlineage st hst
  intro hx
  cases place with
  | leading =>
    obtain ⟨st,hst, -⟩:=bind_eq_some_iff.mp hx
    exact hlineage st hst
  | recorded q =>
    obtain ⟨s,hs, -⟩:=map_eq_some_iff.mp hx
    exact hseal q s hs
  | trailing q =>
    obtain ⟨s,hs, -⟩:=bind_eq_some_iff.mp hx
    exact hseal q s hs

/-! ## Seals kept -/

/-- A seal as it was, but that it may have started or finished. -/
def Slot.Kept : Slot E → Slot E → Prop
  | .empty e, .empty e' => e'.through = e.through ∧ e'.answered = e.answered ∧
      (e.finished = true → e'.finished = true)
  | .recorded s, .recorded s' => s'.seq = s.seq ∧ s'.through = s.through ∧
      s'.answered = s.answered ∧ s'.stage.hasFailed = s.stage.hasFailed ∧
      (s.stage.isDone = true → s'.stage.isDone = true)
  | _, _ => False

omit [LinearOrder E] in
theorem Slot.Kept.refl (x : Slot E) : x.Kept x := by
  cases x with
  | empty e=>exact ⟨rfl,rfl,id⟩
  | recorded s=>exact ⟨rfl,rfl,rfl,rfl,id⟩

omit [LinearOrder E] in
theorem Slot.Kept.through {x' : Slot E} (h : x.Kept x') : x'.through=x.through := by
  cases x with
  | empty e=>cases x' with
    | empty e'=>exact h.1
    | recorded s'=>exact h.elim
  | recorded s=>cases x' with
    | empty e'=>exact h.elim
    | recorded s'=>exact h.2.1

/-- The seals of live lineages in `d'` are those of `d`, none of them answered meanwhile. -/
structure SealsKeep (d d' : Durability E T I) : Prop where
  slot : ∀ l p' x', d'.isLive l = true → d'.slotAt l p' = some x' →
    ∃ p x, d.slotAt l p = some x ∧ x.Kept x'
  lineage : ∀ l st', d'.lineages.get l = some st' → st'.ended = false →
    (∃ st, d.lineages.get l = some st ∧ st.ended = false ∧ st'.sealedThrough = st.sealedThrough ∧
      st'.nextSeal = st.nextSeal) ∨ d.nextLineage ≤ l
  nextLineage : d.nextLineage ≤ d'.nextLineage

theorem SealsKeep.of (hseals : ∀ k s,d'.seals.get k=some s → d'.isLive k.lineage=true → d.seals.get k=some s)
    (hlineages : ∀ l st',d'.lineages.get l=some st' → st'.ended=false →
      (∃ st,d.lineages.get l=some st ∧ st.ended=false ∧ st'.sealedThrough=st.sealedThrough ∧
        st'.nextSeal=st.nextSeal ∧ st'.leading=st.leading) ∨ d.nextLineage ≤ l ∧ st'.leading=none)
    (hnext : d.nextLineage ≤ d'.nextLineage) : SealsKeep d d' := by
  refine ⟨fun l p x hlive hx=>?_,fun l st' hst' hended=>?_,hnext⟩
  · refine ⟨p,x,?_,.refl x⟩
    cases p with
    | leading =>
      obtain ⟨st',hst',hlead⟩:=bind_eq_some_iff.mp hx
      obtain ⟨st₁,hst₁,hended⟩:=isLive_iff.mp hlive
      rw [hst'] at hst₁
      cases hst₁
      rcases hlineages l st' hst' hended with ⟨st,hst, -, -, -,hleading⟩ | ⟨-,hnone⟩
      · simp only [slotAt,hst,bind_some,← hleading]
        exact hlead
      · rw [hnone] at hlead
        cases hlead
    | recorded q =>
      obtain ⟨s,hs,rfl⟩:=map_eq_some_iff.mp hx
      simp only [slotAt,hseals ⟨l,q⟩ s hs hlive,map_some]
    | trailing q =>
      obtain ⟨s,hs,htrail⟩:=bind_eq_some_iff.mp hx
      simp only [slotAt,hseals ⟨l,q⟩ s hs hlive,bind_some]
      exact htrail
  · rcases hlineages l st' hst' hended with ⟨st,hst,hlive,hsealed,hseq, -⟩ | ⟨hnew, -⟩
    · exact .inl ⟨st,hst,hlive,hsealed,hseq⟩
    · exact .inr hnew

theorem SealsKeep.of_same (hseals : d'.seals=d.seals) (hlineages : d'.lineages=d.lineages)
    (hnext : d'.nextLineage=d.nextLineage) : SealsKeep d d' :=
  .of (fun _ _ hs _=>hseals ▸ hs)
    (fun _ st hst hended=>.inl ⟨st,hlineages ▸ hst,hended,rfl,rfl,rfl⟩) hnext.ge

theorem SealsKeep.releaseHeals (h : SealsKeep d d') (k : Key) (made : ℕ) (through : E) :
    SealsKeep d (d'.releaseHeals k made through) := by
  have hget : ∀ l st',(d'.releaseHeals k made through).lineages.get l=some st' →
      ∃ st,d'.lineages.get l=some st ∧ st'.ended=st.ended ∧
        st'.sealedThrough=st.sealedThrough ∧ st'.nextSeal=st.nextSeal ∧
        st'.leading=st.leading:=by
    intro l st' hst'
    unfold Durability.releaseHeals at hst'
    simp only [get_modify] at hst'
    split_ifs at hst' with hk
    · obtain ⟨st,hst,rfl⟩:=map_eq_some_iff.mp hst'
      exact ⟨st,hk ▸ hst,rfl,rfl,rfl,rfl⟩
    · exact ⟨st',hst',rfl,rfl,rfl,rfl⟩
  refine ⟨fun l p x hlive hx=>?_,fun l st' hst' hended=>?_,h.nextLineage⟩
  · obtain ⟨st',hst',hended⟩:=isLive_iff.mp hlive
    obtain ⟨st,hst,heq, -, -,hleading⟩:=hget l st' hst'
    refine h.slot l p x (isLive_iff.mpr ⟨st,hst,heq ▸ hended⟩) ?_
    cases p with
    | leading =>
      simp only [slotAt,hst',bind_some,hleading] at hx
      simp only [slotAt,hst,bind_some]
      exact hx
    | recorded q | trailing q=>exact hx
  · obtain ⟨st,hst,heq,hsealed,hseq, -⟩:=hget l st' hst'
    rw [hsealed,hseq]
    exact h.lineage l st hst (heq ▸ hended)

theorem SealsKeep.map_seals {f : SealKey → Seal E → Seal E}
    (hf : ∀ k s,Slot.Kept (.recorded s) (.recorded (f k s)))
    (htrail : ∀ k s e',(f k s).trailing=some e' →
      ∃ e,s.trailing=some e ∧ Slot.Kept (.empty e) (.empty e')) :
    SealsKeep d { d with seals := d.seals.map f } := by
  refine ⟨fun l p x hlive hx=>?_,
    fun l st hst hended=>.inl ⟨st,hst,hended,rfl,rfl⟩,le_rfl⟩
  cases p with
  | leading=>exact ⟨.leading,x,hx,.refl x⟩
  | recorded q =>
    simp only [slotAt,Table.get_map,Option.map_map,map_eq_some_iff] at hx
    obtain ⟨s,hs,rfl⟩:=hx
    exact ⟨.recorded q,.recorded s,by simp [slotAt,hs],hf _ s⟩
  | trailing q =>
    simp only [slotAt,Table.get_map,bind_map,bind_eq_some_iff] at hx
    obtain ⟨s,hs,hx⟩:=hx
    obtain ⟨e',he',rfl⟩:=map_eq_some_iff.mp hx
    obtain ⟨e,he,hkept⟩:=htrail _ s e' he'
    exact ⟨.trailing q,.empty e,by simp [slotAt,hs,he],hkept⟩

theorem SealStage.finish_kept (stage : SealStage) : stage.finish.hasFailed=stage.hasFailed ∧
      (stage.isDone=true → stage.finish.isDone=true) := by
  cases stage with
  | waiting | done ok=>exact ⟨rfl,id⟩
  | flushing n failed=>exact ⟨by cases failed <;> rfl,fun h=>(by cases h)⟩

theorem finishEmpty_kept (oldest : Option E) (e : Empty E) :
    Slot.Kept (.empty e) (.empty (finishEmpty oldest e)) := by
  unfold finishEmpty
  split_ifs
  · exact ⟨rfl,rfl,fun _=>rfl⟩
  · exact .refl _

theorem Durability.emptied_lineage {st st' : LineageState E} {k : Key}
    (hst : d.lineages.get l=some st) (hst' : (d.emptied l st).lineages.get k=some st') :
    ∃ st₀,d.lineages.get k=some st₀ ∧ st'.ended=st₀.ended ∧
      st'.sealedThrough=st₀.sealedThrough ∧ st'.nextSeal=st₀.nextSeal ∧
      ∀ e',st'.leading=some e' → ∃ e,st₀.leading=some e ∧ Slot.Kept (.empty e) (.empty e') := by
  unfold emptied at hst'
  rcases of_insert hst' with ⟨hk,rfl⟩ | hst'
  · refine ⟨st,hk ▸ hst,rfl,rfl,rfl,fun e' he'=>?_⟩
    obtain ⟨e,he,rfl⟩:=map_eq_some_iff.mp he'
    exact ⟨e,he,finishEmpty_kept _ e⟩
  · exact ⟨st',hst',rfl,rfl,rfl,fun e' he'=>⟨e',he',.refl _⟩⟩

theorem ProgressStep.sealsKeep (hstep : ProgressStep l c c') : SealsKeep c.core c'.core := by
  cases hstep with
  | @start c' st s starts hok =>
    obtain ⟨n,sealDomains, -, -,rfl⟩:=startSeal_ok hok
    refine ⟨fun k p x hlive hx=>?_,
      fun k st hst hended=>.inl ⟨st,hst,hended,rfl,rfl⟩,le_rfl⟩
    have hget : ∀ q s',(c.core.seals.insert ⟨l,s.seq⟩
        { s with stage:=.flushing n.unanswered false }).get ⟨k,q⟩=some s' →
        ∃ s₀,c.core.seals.get ⟨k,q⟩=some s₀ ∧ s'.trailing=s₀.trailing ∧
          Slot.Kept (.recorded s₀) (.recorded s'):=by
      intro q s' hs'
      rcases of_insert hs' with ⟨hk,rfl⟩ | hs'
      · refine ⟨s,hk ▸ starts.queued,rfl,rfl,rfl,rfl,?_,fun hdone=>?_⟩
        · simp [starts.waits,SealStage.hasFailed]
        · rw [starts.waits] at hdone
          cases hdone
      · exact ⟨s',hs',rfl,.refl _⟩
    cases p with
    | leading=>exact ⟨.leading,x,hx,.refl x⟩
    | recorded q =>
      obtain ⟨s',hs',rfl⟩:=map_eq_some_iff.mp hx
      obtain ⟨s₀,hs₀, -,hkept⟩:=hget q s' hs'
      exact ⟨.recorded q,.recorded s₀,by simp [slotAt,hs₀],hkept⟩
    | trailing q =>
      obtain ⟨s',hs',htrail⟩:=bind_eq_some_iff.mp hx
      obtain ⟨s₀,hs₀,heq, -⟩:=hget q s' hs'
      exact ⟨.trailing q,x,by simp only [slotAt,hs₀,bind_some,← heq,htrail],
        .refl x⟩
  | empties live =>
    obtain ⟨st,hst,hended⟩:=isLive_iff.mp live
    have hemptied : SealsKeep c.core (c.core.emptied l st):=by
      have hseals : SealsKeep c.core { c.core with
          seals:=c.core.seals.map (c.core.finishTrailing l) }:=by
        refine .map_seals (fun k s=>?_) fun k s e' he'=>?_
        · unfold finishTrailing
          split_ifs <;> exact ⟨rfl,rfl,rfl,rfl,id⟩
        · unfold finishTrailing at he'
          split_ifs at he'
          · obtain ⟨e,he,rfl⟩:=map_eq_some_iff.mp he'
            exact ⟨e,he,finishEmpty_kept _ e⟩
          · exact ⟨e',he',.refl _⟩
      refine ⟨fun k p x hlive hx=>?_,fun k st' hst' hended'=>?_,le_rfl⟩
      · obtain ⟨st',hst',hended'⟩:=isLive_iff.mp hlive
        obtain ⟨st₀,hst₀,heq, -, -,hleading⟩:=emptied_lineage hst hst'
        cases p with
        | leading =>
          simp only [slotAt,hst',bind_some] at hx
          obtain ⟨e',he',rfl⟩:=map_eq_some_iff.mp hx
          obtain ⟨e,he,hkept⟩:=hleading e' he'
          exact ⟨.leading,.empty e,by simp [slotAt,hst₀,he],hkept⟩
        | recorded q =>
          exact hseals.slot k (.recorded q) x
            (isLive_iff.mpr ⟨st₀,hst₀,heq ▸ hended'⟩) hx
        | trailing q =>
          exact hseals.slot k (.trailing q) x
            (isLive_iff.mpr ⟨st₀,hst₀,heq ▸ hended'⟩) hx
      · obtain ⟨st₀,hst₀,heq,hsealed,hseq, -⟩:=emptied_lineage hst hst'
        exact .inl ⟨st₀,hst₀,heq ▸ hended',hsealed,hseq⟩
    rcases finishEmpties_cases hst with heq | ⟨e, -, -,heq⟩ <;> simp only [heq]
    · exact hemptied
    · exact hemptied.releaseHeals _ _ _
  | seals live =>
    have hdone : SealsKeep c.core (c.core.done l):=by
      refine .map_seals (fun k s=>?_) fun k s e' he'=>?_
      · unfold finishSeal
        split_ifs
        · exact ⟨rfl,rfl,rfl,s.stage.finish_kept⟩
        · exact ⟨rfl,rfl,rfl,rfl,id⟩
      · unfold finishSeal at he'
        split_ifs at he' <;> exact ⟨e',he',.refl _⟩
    rcases c.core.finishSeals_cases l with heq | ⟨s, -, -, -,heq⟩ <;> simp only [heq]
    · exact hdone
    · exact hdone.releaseHeals _ _ _

variable {through : E}

theorem passSeal_sealsKeep {recorded : Option (Seal E)} (hinv : Inv c.core)
    (passes : Passes c.core l st through recorded) (hok : passSeal c l st through recorded=.ok c') : SealsKeep c.core c'.core := by
  obtain ⟨spans,taken,window,kept,abandoned,rfl⟩:=passSeal_eq hok
  have hseals : ∀ k s,(sealsWithout c.core.seals l recorded).get k=some s →
      c.core.seals.get k=some s:=by
    intro k s hs
    cases recorded with
    | none=>exact hs
    | some r=>exact get_of_erase hs
  refine ⟨fun k p x hlive hx=>?_,fun k st' hst' hended=>?_,le_rfl⟩
  · cases p with
    | leading =>
      obtain ⟨st',hst',hlead⟩:=bind_eq_some_iff.mp hx
      have hst' : (c.core.lineages.insert l (st.passed through recorded)).get k=some st':=hst'
      rcases of_insert hst' with ⟨hk,rfl⟩ | hst'
      · obtain ⟨e,he,rfl⟩:=map_eq_some_iff.mp hlead
        rcases nextFinished_cases passes.next with
          ⟨e',rfl, -⟩ | ⟨s,rest,ok,rfl, -,hqueue, -, -⟩
        · cases he
        · have hs : c.core.seals.get ⟨l,s.seq⟩=some s :=
            hinv.keys.mem_sealsOf.mp (by rw [hqueue]; exact mem_cons_self)
          have he : s.trailing=some e:=he
          exact ⟨.trailing s.seq,.empty e,by simp [slotAt,hk,hs,he],.refl _⟩
      · exact ⟨.leading,x,by simp only [slotAt,hst',bind_some,hlead],
          .refl x⟩
    | recorded q =>
      obtain ⟨s,hs,rfl⟩:=map_eq_some_iff.mp hx
      exact ⟨.recorded q,_,by simp [slotAt,hseals _ s hs],.refl _⟩
    | trailing q =>
      obtain ⟨s,hs,htrail⟩:=bind_eq_some_iff.mp hx
      exact ⟨.trailing q,x,by simp only [slotAt,hseals _ s hs,bind_some,htrail],
        .refl x⟩
  · have hst' : (c.core.lineages.insert l (st.passed through recorded)).get k=some st':=hst'
    rcases of_insert hst' with ⟨hk,rfl⟩ | hst'
    · exact .inl ⟨st,hk ▸ passes.lineage,hended,rfl,rfl⟩
    · exact .inl ⟨st',hst',hended,rfl,rfl⟩

theorem SealsKeep.congr (h : SealsKeep d d') (hseals : d''.seals=d'.seals)
    (hlineages : d''.lineages=d'.lineages) (hnext : d''.nextLineage=d'.nextLineage) :
    SealsKeep d d'' := by
  have hslot : ∀ l p,d''.slotAt l p=d'.slotAt l p:=by
    intro l p
    cases p <;> simp only [slotAt,hseals,hlineages]
  refine ⟨fun l p x hlive hx=>h.slot l p x ?_ (hslot l p ▸ hx),fun l st hst hended=>?_,
    hnext ▸ h.nextLineage⟩
  · unfold isLive live at hlive ⊢
    rw [← hlineages]
    exact hlive
  · exact h.lineage l st (hlineages ▸ hst) hended

theorem SealsKeep.shrink {lineages : Table Key (LineageState E)} (h : SealsKeep d d')
    (hsub : ∀ l st,lineages.get l=some st → d'.lineages.get l=some st) :
    SealsKeep d { d' with lineages := lineages } := by
  refine ⟨fun l p x hlive hx=>?_,fun l st hst hended=>h.lineage l st (hsub l st hst) hended,
    h.nextLineage⟩
  obtain ⟨st,hst,hended⟩:=isLive_iff.mp hlive
  refine h.slot l p x (isLive_iff.mpr ⟨st,hsub l st hst,hended⟩) ?_
  cases p with
  | leading =>
    have hst : lineages.get l=some st:=hst
    simp only [slotAt,hst,bind_some] at hx
    simp only [slotAt,hsub l st hst,bind_some]
    exact hx
  | recorded q | trailing q=>exact hx

theorem SealsKeep.retireIfDrained (h : SealsKeep d d') (l : Key) :
    SealsKeep d (d'.retireIfDrained l) := by
  rcases d'.retireIfDrained_cases l with heq | ⟨st, -, -, -, -,heq⟩ <;> rw [heq]
  · exact h
  · exact h.shrink fun _ _ hst=>get_of_erase hst

theorem SealsKeep.insert_seal {k : SealKey} {s s' : Seal E} (hs : d.seals.get k=some s)
    (hkept : Slot.Kept (.recorded s) (.recorded s')) (htrail : s'.trailing=s.trailing) :
    SealsKeep d { d with seals := d.seals.insert k s' } := by
  refine ⟨fun l p x hlive hx=>?_,
    fun l st hst hended=>.inl ⟨st,hst,hended,rfl,rfl⟩,le_rfl⟩
  cases p with
  | leading=>exact ⟨.leading,x,hx,.refl x⟩
  | recorded q =>
    simp only [slotAt,get_insert] at hx
    split_ifs at hx with hk
    · cases hx
      exact ⟨.recorded q,.recorded s,by simp [slotAt,hk,hs],hkept⟩
    · exact ⟨.recorded q,x,hx,.refl x⟩
  | trailing q =>
    simp only [slotAt,get_insert] at hx
    split_ifs at hx with hk
    · refine ⟨.trailing q,x,?_,.refl x⟩
      simp only [slotAt,hk,hs,bind_some,← htrail]
      exact hx
    · exact ⟨.trailing q,x,hx,.refl x⟩

omit [LinearOrder E] in
theorem Seal.kept_answer {s : Seal E} {n m : ℕ} {failed : Bool} (hstage : s.stage=.flushing n failed) :
    Slot.Kept (.recorded s) (.recorded (s.answer m failed false)) := by
  refine ⟨rfl,rfl,by simp [answer],?_,fun hdone=>?_⟩
  · simp [answer,hstage,SealStage.hasFailed]
  · rw [hstage] at hdone
    cases hdone

theorem SealsKeep.cover {q : ℕ} (h : SealsKeep d d') (hok : d'.cover l q=.ok d'') :
    SealsKeep d d'' := by
  obtain ⟨writes,spans,window,kept,reads,told,rfl⟩:=cover_frame hok
  exact h.congr rfl rfl rfl

theorem SealsKeep.of_ended (hst : d.lineages.get l=some st)
    (hended : st.ended=true) (hlineages : d'.lineages=d.lineages)
    (hseals : ∀ k s,d'.seals.get k=some s → k.lineage ≠ l → d.seals.get k=some s)
    (hnext : d'.nextLineage=d.nextLineage) : SealsKeep d d' := by
  refine .of (fun k s hs hlive=>hseals k s hs ?_)
    (fun _ st hst hended=>.inl ⟨st,hlineages ▸ hst,hended,rfl,rfl,rfl⟩) hnext.ge
  rintro rfl
  obtain ⟨st',hst',hlive'⟩:=isLive_iff.mp hlive
  exact ne_of_ended hst hended (hlineages ▸ hst') hlive' rfl

theorem Quiet.sealsKeep {call : Call E T} (hquiet : Quiet d call d') : SealsKeep d d' := by
  cases hquiet.quieted with
  | places | tokens | relist=>exact .of_same rfl rfl rfl
  | joins held heldByEpoch hfrom hin =>
    obtain ⟨inFlightByEpoch,spans,window, -, -, -, -,rfl⟩:=inFlight_ok hin
    exact .of_same rfl rfl rfl
  | forget hf hresolved hok heq =>
    rw [heq,(releaseReach_frame _ _).choose_spec]
    exact .of_same rfl rfl rfl
  | mint =>
    refine .of (fun _ _ hs _=>hs) (fun l st hst hended=>?_) (Nat.le_succ _)
    rcases of_insert hst with ⟨hl,rfl⟩ | hst
    · exact .inr ⟨hl.ge,rfl⟩
    · exact .inl ⟨st,hst,hended,rfl,rfl,rfl⟩
  | @endPopped l st hst hended =>
    refine SealsKeep.retireIfDrained ?_ l
    refine .of (fun _ _ hs _=>hs) (fun k st' hst' hended'=>?_) le_rfl
    rcases of_insert hst' with ⟨-,rfl⟩ | hst'
    · rw [hended] at hended'
      cases hended'
    · exact .inl ⟨st',hst',hended',rfl,rfl,rfl⟩
  | retire hforget =>
    obtain ⟨window, -,rfl⟩:=forgetAbandoned_ok hforget
    exact .of (fun _ _ hs _=>hs) (fun k st' hst' hended' =>
      Or.inl ⟨st',get_of_erase hst',hended',rfl,rfl,rfl⟩) le_rfl

theorem resolved_same {items : List (FailureToken × Resolution)}
    (hfold : items.foldlM resolveOne (begin_ d)=.ok c) : c.core.seals=d.seals ∧
      c.core.lineages=d.lineages ∧ c.core.nextLineage=d.nextLineage ∧ c.core.spans=d.spans ∧
      c.core.sealDomains=d.sealDomains := by
  refine foldlM_invariant (fun s=>s.core.seals=d.seals ∧ s.core.lineages=d.lineages ∧
    s.core.nextLineage=d.nextLineage ∧ s.core.spans=d.spans ∧ s.core.sealDomains=d.sealDomains)
    (fun s item s' _ hs hone=>?_) ⟨rfl,rfl,rfl,rfl,rfl⟩ hfold
  obtain ⟨f, -, -,⟨-, -,hcore⟩ | ⟨-,mid,habandon, -,hcore⟩⟩:=resolveOne_ok hone
  · rw [hcore,(dropToken_frame _ item.1).choose_spec]
    exact hs
  · obtain ⟨window,abandoned,rfl⟩:=abandonEpochs_frame habandon
    rw [hcore,(dropToken_frame _ item.1).choose_spec]
    exact hs

theorem Prepared.sealsKeep {call : Call E T} (hinv : Inv d) (hprep : Prepared d call c) :
    SealsKeep d c.core ∨ (∃ l through,call=.sealThrough l through) ∨
      (∃ l through file fault,call=.flushed l through file (some fault) ∧ d.isLive l=true) ∨
      ∃ l q domain cause,call=.provided l q domain (some cause) ∧ d.isLive l=true := by
  cases hprep with
  | succeeded | strayFlush=>exact .inl (.of_same rfl rfl rfl)
  | @gone op end_ w mid reads told hw hstage hone hend =>
    obtain ⟨spans,window,kept, -, -, -,rfl⟩:=letGoOne_ok hw hone
    left
    unfold begin_
    simp only
    split_ifs
    · exact .of_same rfl rfl rfl
    · refine SealsKeep.retireIfDrained ?_ _
      exact .of_same rfl rfl rfl
  | emptySeal | recordedSeal=>exact .inr (.inl ⟨_,_,rfl⟩)
  | @endedFlush l through file result st q domains d₁ d₂ d₃ hst hended hans hgo hretain =>
    obtain ⟨s,n,failed,entry, -, -, -, -, -, -, -, -,rfl⟩:=answer_ok hans
    obtain ⟨spans,window,kept,rfl⟩:=letGo_ok hgo
    obtain ⟨window, -,rfl⟩:=retainSealing_ok hretain
    refine .inl (SealsKeep.retireIfDrained ?_ l)
    refine .of_ended hst hended rfl (fun k s' hs' hk=>?_) rfl
    have hget:=get_of_filter hs'
    rw [get_insert,if_neg] at hget
    · exact hget
    · rintro rfl
      exact hk rfl
  | flushOk hst hlive hans hcover =>
    obtain ⟨s,n,failed,entry,hmem, -,rfl,hstage, -, -, -, -,rfl⟩:=answer_ok hans
    refine .inl (SealsKeep.cover ?_ hcover)
    exact (SealsKeep.insert_seal (hinv.keys.mem_sealsOf.mp hmem) (Seal.kept_answer hstage) rfl).congr
      rfl rfl rfl
  | @flushFailed l through file fault st q domains d₁ id c₁ hst hlive hans hobserve =>
    exact .inr (.inr (.inl ⟨l,through,file,fault,rfl,isLive_iff.mpr ⟨st,hst,hlive⟩⟩))
  | domainOk hst hlive hs hstage hpart hans hcover =>
    refine .inl (SealsKeep.cover ?_ hcover)
    exact (SealsKeep.insert_seal hs (Seal.kept_answer hstage) rfl).congr rfl rfl rfl
  | @domainFailed l domain cause st s n failed part id c₁ hst hlive hs hstage hpart hans hobserve =>
    exact .inr (.inr (.inr ⟨l,s.seq,domain,cause,rfl,isLive_iff.mpr ⟨st,hst,hlive⟩⟩))
  | imported hobserve =>
    obtain ⟨slot,freeTokens,window,told, -, -, -, -, -,hcore, -⟩:=observe_ok hobserve
    rw [hcore]
    exact .inl (.of_same rfl rfl rfl)
  | @resolved items c₁ hinstance hfold =>
    obtain ⟨hseals,hlineages,hnext, -⟩:=resolved_same hfold
    exact .inl (.of_same hseals hlineages hnext)
  | @ended l st d₂ d₄ d₅ hst hlive hne hforget hgo hretain =>
    obtain ⟨window, -,rfl⟩:=forgetAbandoned_ok hforget
    obtain ⟨spans,window,kept,rfl⟩:=letGoEnded_ok hgo
    obtain ⟨window, -,rfl⟩:=retainSealing_ok hretain
    refine .inl (SealsKeep.retireIfDrained ?_ l)
    have hget : ∀ k st',(d.lineages.insert l st.finish).get k=some st' → st'.ended=false →
        k≠l ∧ d.lineages.get k=some st':=by
      intro k st' hst' hended
      rcases insert_cases hst' with ⟨-,rfl⟩ | ⟨hk,hst'⟩
      · cases hended
      · exact ⟨hk,hst'⟩
    refine .of (fun k s hs hlive'=>?_) (fun k st' hst' hended=>?_) le_rfl
    · obtain ⟨st',hst',hended⟩:=isLive_iff.mp hlive'
      have hk:=(hget k.lineage st' hst' hended).1
      have hs:=get_of_filter hs
      simp only [Table.get_map,map_eq_some_iff] at hs
      obtain ⟨s₀,hs₀,rfl⟩:=hs
      rw [Seal.untrail,if_neg hk]
      exact hs₀
    · exact .inl ⟨st',(hget k st' hst' hended).2,hended,rfl,rfl,rfl⟩

/-! ## Seals made -/

/-- A seal of `l` through `through` was made: its seals are those it had, and the new one. -/
structure SealMade (d : Durability E T I) (l : Key) (st : LineageState E) (through : E)
    (d' : Durability E T I) : Prop where
  lineage : d.lineages.get l = some st
  live : st.ended = false
  above : above st.sealedThrough through = true
  slot : ∀ k p x, d'.slotAt k p = some x → (∃ y, d.slotAt k p = some y ∧ y.Kept x) ∨
    k = l ∧ (x = .empty (Empty.new d.sealsMade through) ∨
      ∃ op, x = .recorded (Seal.waitingFor st.nextSeal d.sealsMade through op))
  lineages : ∀ k st', d'.lineages.get k = some st' → k = l ∧ st'.sealedThrough = some through ∧
    st'.nextSeal = st.nextSeal + 1 ∧ st'.ended = false ∨ k ≠ l ∧ d.lineages.get k = some st'
  nextLineage : d'.nextLineage = d.nextLineage

theorem sealMade_empty (hkeys : KeysOk d.writes d.held d.seals d.kept)
    (hst : d.lineages.get l=some st) (hlive : st.ended=false)
    (habove : above st.sealedThrough through=true) : SealMade d l st through
      (recordEmpty (begin_ (d.sealing l st through)) l (Empty.new d.sealsMade through)).core := by
  rcases recordEmpty_core (c:=begin_ (d.sealing l st through)) (Empty.new d.sealsMade through)
      (get_insert_self ..) with ⟨s,hlast,heq⟩ | ⟨-,heq⟩
  · rw [heq]
    have hs : d.seals.get ⟨l,s.seq⟩=some s:=hkeys.mem_sealsOf.mp (List.mem_of_getLast? hlast)
    refine ⟨hst,hlive,habove,fun k p x hx=>?_,fun k st' hst'=>?_,rfl⟩
    · cases p with
      | leading =>
        left
        refine ⟨x,?_,.refl x⟩
        simp only [begin_,slotAt,get_insert] at hx
        split_ifs at hx with hk
        · simpa [slotAt,hk,hst,LineageState.sealedTo] using hx
        · exact hx
      | recorded q =>
        left
        simp only [begin_,slotAt,get_insert] at hx
        split_ifs at hx with hk
        · cases hx
          exact ⟨.recorded s,by simp [slotAt,hk,hs],rfl,rfl,rfl,rfl,id⟩
        · exact ⟨x,hx,.refl x⟩
      | trailing q =>
        simp only [begin_,slotAt,get_insert] at hx
        split_ifs at hx with hk
        · cases hx
          exact .inr ⟨(SealKey.mk.inj hk).1,.inl rfl⟩
        · exact .inl ⟨x,hx,.refl x⟩
    · simp only [begin_,get_insert] at hst'
      split_ifs at hst' with hk
      · cases hst'
        exact .inl ⟨hk,rfl,rfl,hlive⟩
      · exact .inr ⟨hk,hst'⟩
  · rw [heq]
    refine ⟨hst,hlive,habove,fun k p x hx=>?_,fun k st' hst'=>?_,rfl⟩
    · cases p with
      | leading =>
        simp only [begin_,slotAt,get_insert] at hx
        split_ifs at hx with hk
        · cases hx
          exact .inr ⟨hk,.inl rfl⟩
        · exact .inl ⟨x,hx,.refl x⟩
      | recorded q | trailing q=>exact .inl ⟨x,hx,.refl x⟩
    · simp only [begin_,get_insert] at hst'
      split_ifs at hst' with hk
      · cases hst'
        exact .inl ⟨hk,rfl,rfl,hlive⟩
      · exact .inr ⟨hk,hst'⟩

theorem sealMade_recorded {op : OpId} {window : Window} (hst : d.lineages.get l=some st)
    (hlive : st.ended=false) (habove : above st.sealedThrough through=true) :
    SealMade d l st through (d.pinning l st through op window) := by
  refine ⟨hst,hlive,habove,fun k p x hx=>?_,fun k st' hst'=>?_,rfl⟩
  · cases p with
    | leading =>
      left
      refine ⟨x,?_,.refl x⟩
      simp only [slotAt,get_insert] at hx
      split_ifs at hx with hk
      · simpa [slotAt,hk,hst,LineageState.sealedTo] using hx
      · exact hx
    | recorded q =>
      simp only [slotAt,get_insert] at hx
      split_ifs at hx with hk
      · cases hx
        exact .inr ⟨(SealKey.mk.inj hk).1,.inr ⟨op,rfl⟩⟩
      · exact .inl ⟨x,hx,.refl x⟩
    | trailing q =>
      simp only [slotAt,get_insert] at hx
      split_ifs at hx with hk
      · cases hx
      · exact .inl ⟨x,hx,.refl x⟩
  · rcases insert_cases hst' with ⟨hk,rfl⟩ | ⟨hk,hst'⟩
    · exact .inl ⟨hk,rfl,rfl,hlive⟩
    · exact .inr ⟨hk,hst'⟩

theorem Prepared.sealMade (hinv : Inv d) (hprep : Prepared d (.sealThrough l through) c) :
    ∃ st,SealMade d l st through c.core := by
  cases hprep with
  | emptySeal hst hlive habove=>exact ⟨_,sealMade_empty hinv.keys hst hlive habove⟩
  | recordedSeal hst hlive habove=>exact ⟨_,sealMade_recorded hst hlive habove⟩

end WindowsThreadpoolSys.DurableIoring
