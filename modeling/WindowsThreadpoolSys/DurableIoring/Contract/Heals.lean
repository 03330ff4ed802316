import WindowsThreadpoolSys.DurableIoring.Contract.Answers

/-! A heal waits for the writes pushed before it. A lineage releases it with the first seal made after it
that reaches them all and finishes; a seal made later may finish before one whose commits are still
out, and releases the heal while they are. Where each seal is asked for only once the ones before it
have finished, a heal released leaves no such write undecided. -/
namespace WindowsThreadpoolSys.DurableIoring
open Library Durability List Table Option
open Relation (ReflTransGen)

variable {E T I : Type} [LinearOrder E] {d d' : Durability E T I} {c c' : Change E T I} {l : Key}
  {ticks : List (Tick E T I)} {at_ : HealAt}

/-! ## Releases -/

/-- Between `d` and `d'` live lineage `l` releases a heal made at `at_`. -/
structure Releases (d : Durability E T I) (l : Key) (at_ : HealAt) (d' : Durability E T I) : Prop where
  healing : ∃ f ∈ d.failures, f.standing = .healing at_
  pending : ∃ st, d.lineages.get l = some st ∧ st.ended = false ∧ ∀ r, st.released = some r → r < at_
  released : ∃ st r, d'.lineages.get l = some st ∧ st.ended = false ∧ st.released = some r ∧ at_ ≤ r

/-- A part of the seal is still to be issued or to be answered. -/
def Durability.partOut (d : Durability E T I) (l : Key) (s : Seal E) : Bool :=
  !s.stage.isDone && !d.hasAnswered l s

/-- Every write of `l` pushed before `at_` has completed, and none still recorded is unnamed or named
to a seal with a part out. -/
structure ReissueDecided (d : Durability E T I) (l : Key) (at_ : HealAt) : Prop where
  held : ∀ op h a, d.held.get op = some h → h.write = some a → a.lineage = l → at_.pushes ≤ op
  write : ∀ op w, d.writes.get op = some w → w.lineage = l → op < at_.pushes →
    ∃ q, w.stage = .named q ∧ ∀ s, d.seals.get ⟨l, q⟩ = some s → d.partOut l s = false

/-! ## Seals that stay -/

/-- The seals of live lineages in `d'` are those of `d`, and those finished are finished still. -/
def SealsStay (d d' : Durability E T I) : Prop :=
  ∀ l p' x', d'.isLive l = true → d'.slotAt l p' = some x' → d.isLive l = true ∧
    ∃ p x, d.slotAt l p = some x ∧ x'.through = x.through ∧ (x.finished = true → x'.finished = true)

omit [LinearOrder E] in
theorem Slot.Kept.finished {x x' : Slot E} (h : x.Kept x') (hfinished : x.finished=true) :
    x'.finished=true := by
  cases x with
  | empty e=>cases x' with
    | empty e'=>exact h.2.2 hfinished
    | recorded s'=>exact h.elim
  | recorded s=>cases x' with
    | empty e'=>exact h.elim
    | recorded s'=>exact h.2.2.2.2 hfinished

theorem SealsKeep.stay (h : SealsKeep d d') (hinv : Inv d) : SealsStay d d' := by
  intro l p' x' hlive hx'
  obtain ⟨p,x,hx,hkept⟩:=h.slot l p' x' hlive hx'
  obtain ⟨st',hst',hended⟩:=isLive_iff.mp hlive
  refine ⟨?_,p,x,hx,hkept.through,hkept.finished⟩
  rcases h.lineage l st' hst' hended with ⟨st,hst,hlive, -⟩ | hnew
  · exact isLive_iff.mpr ⟨st,hst,hlive⟩
  · exact absurd hx (hinv.unminted_slot hnew p x)

theorem SealsStay.of_flushing {k : SealKey} {s : Seal E} (s' : Seal E) {n : ℕ} {failed : Bool}
    (hs : d.seals.get k=some s) (hstage : s.stage=.flushing n failed)
    (hthrough : s'.through=s.through) (htrail : s'.trailing=s.trailing)
    (hseals : d'.seals=d.seals.insert k s') (hlineages : d'.lineages=d.lineages) :
    SealsStay d d' := by
  intro l p' x' hlive hx'
  have hlive : d.isLive l=true:=by
    unfold isLive live at hlive ⊢
    rw [← hlineages]
    exact hlive
  refine ⟨hlive,p',?_⟩
  cases p' with
  | leading =>
    refine ⟨x',?_,rfl,id⟩
    simpa only [slotAt,hlineages] using hx'
  | recorded q =>
    simp only [slotAt,hseals,get_insert] at hx'
    split_ifs at hx' with hk
    · cases hx'
      refine ⟨.recorded s,by simp [slotAt,hk,hs],hthrough,fun hdone=>?_⟩
      have hdone : s.stage.isDone=true:=hdone
      rw [hstage] at hdone
      cases hdone
    · exact ⟨x',hx',rfl,id⟩
  | trailing q =>
    refine ⟨x',?_,rfl,id⟩
    simp only [slotAt,hseals,get_insert] at hx'
    split_ifs at hx' with hk
    · simp only [slotAt,hk,hs,bind_some,← htrail]
      exact hx'
    · exact hx'

def OneOut (d : Durability E T I) : Prop :=
  ∀ l p p' x x', d.isLive l = true → d.slotAt l p = some x → d.slotAt l p' = some x' →
    x.through < x'.through → x.finished = true

theorem OneOut.stay (h : OneOut d) (hstay : SealsStay d d') : OneOut d' := by
  intro l p p' y y' hlive hy hy' hlt
  obtain ⟨hlive₀,q,x,hx,hthrough,hfinished⟩:=hstay l p y hlive hy
  obtain ⟨-,q',x',hx',hthrough', -⟩:=hstay l p' y' hlive hy'
  exact hfinished (h l q q' x x' hlive₀ hx hx' (by rw [← hthrough,← hthrough']; exact hlt))

variable {st : LineageState E} {through : E}

theorem OneOut.made (h : OneOut d) (hinv : Inv d) (hmade : SealMade d l st through d')
    (hfinished : ∀ p x,d.slotAt l p=some x → x.finished=true) : OneOut d' := by
  obtain ⟨hst,hended,habove,hslot,hlineage, -⟩:=hmade
  have hlives : ∀ k,d'.isLive k=true → d.isLive k=true:=by
    intro k hk
    obtain ⟨st',hst',hlive⟩:=isLive_iff.mp hk
    rcases hlineage k st' hst' with ⟨rfl, -⟩ | ⟨-,hst'⟩
    · exact isLive_iff.mpr ⟨st,hst,hended⟩
    · exact isLive_iff.mpr ⟨st',hst',hlive⟩
  -- No seal is above the one just made.
  have hbelow : ∀ p x,d.slotAt l p=some x → x.through < through:=by
    intro p x hx
    obtain ⟨sealed,hsealed,hle⟩ :=
      (hinv.marks l st hst hended).queue.le_sealed (hinv.slotAt_mem hst hx)
    rw [hsealed] at habove
    exact hle.trans_lt (above_some.mp habove)
  have hnew : ∀ k p x,d'.slotAt k p=some x →
      (∃ y,d.slotAt k p=some y ∧ y.Kept x) ∨ k=l ∧ x.through=through:=by
    intro k p x hx
    rcases hslot k p x hx with hold | ⟨rfl,rfl | ⟨op,rfl⟩⟩
    · exact .inl hold
    · exact .inr ⟨rfl,rfl⟩
    · exact .inr ⟨rfl,rfl⟩
  intro k p p' x x' hlive hx hx' hlt
  rcases hnew k p x hx with ⟨y,hy,hkept⟩ | ⟨rfl,hthrough⟩
  · rcases hnew k p' x' hx' with ⟨y',hy',hkept'⟩ | ⟨rfl,hthrough'⟩
    · refine hkept.finished (h k p p' y y' (hlives k hlive) hy hy' ?_)
      rw [← hkept.through,← hkept'.through]
      exact hlt
    · exact hkept.finished (hfinished p y hy)
  · rcases hnew k p' x' hx' with ⟨y',hy',hkept'⟩ | ⟨-,hthrough'⟩
    · have:=hbelow p' y' hy'
      rw [hkept'.through,hthrough] at hlt
      exact absurd hlt this.not_gt
    · rw [hthrough,hthrough'] at hlt
      exact absurd hlt (lt_irrefl _)

/-- A seal is asked for only once every seal of the lineage the mark has not passed has finished. -/
def SealsInTurn (t : Tick E T I) : Prop :=
  ∀ l through, t.call = .sealThrough l through → ∀ st, t.before.lineages.get l = some st →
    ∀ x ∈ slots st.leading (sealsOf t.before.seals l), x.finished = true

variable {call : Call E T}

theorem Prepared.oneOut (hinv : Inv d) (hprep : Prepared d call c) (h : OneOut d)
    (hturn : ∀ l through,call=.sealThrough l through → ∀ st,d.lineages.get l=some st →
      ∀ x ∈ slots st.leading (sealsOf d.seals l),x.finished=true) : OneOut c.core := by
  rcases hprep.sealsKeep hinv with hkeep | ⟨l,through,rfl⟩ |
      ⟨l,through,file,fault,rfl,hlive⟩ | ⟨l,q,domain,cause,rfl,hlive⟩
  · exact h.stay (hkeep.stay hinv)
  · obtain ⟨st,hmade⟩:=hprep.sealMade hinv
    exact h.made hinv hmade fun p x hx =>
      hturn l through rfl st hmade.lineage x (hinv.slotAt_mem hmade.lineage hx)
  · cases hprep with
    | strayFlush hst hended | endedFlush hst hended=>exact absurd hlive (not_isLive hst hended)
    | flushFailed hst hended hans hobserve =>
      obtain ⟨s,n,failed,entry,hmem, -,rfl,hstage, -, -, -, -,rfl⟩:=answer_ok hans
      obtain ⟨hseals,hlineages, -⟩:=observe_seals hobserve
      exact h.stay (.of_flushing (s.answer (n-1) failed true)
        (hinv.keys.mem_sealsOf.mp hmem) hstage rfl rfl hseals hlineages)
  · cases hprep with
    | @domainFailed _ _ _ st s n failed part id _ hst hended hs hstage hpart hans hobserve =>
      obtain ⟨hseals,hlineages, -⟩:=observe_seals hobserve
      exact h.stay (.of_flushing (s.answer n failed true) hs hstage rfl rfl hseals hlineages)

theorem AdvanceStep.sealsStay (hstep : AdvanceStep c c') (hinv : Inv c.core) :
    SealsStay c.core c'.core := by
  cases hstep with
  | progress l step=>exact step.sealsKeep.stay hinv
  | healed =>
    have hkeep : SealsKeep c.core (releaseHealed c).core:=.of_same rfl rfl rfl
    exact hkeep.stay hinv
  | mark l step =>
    cases step with
    | pass passes free hok=>exact (passSeal_sealsKeep hinv passes hok).stay hinv
    | @answer place through blocker live due blocked =>
      intro k p' x' hlive hx'
      obtain ⟨y,hy,hcases⟩:=slotAt_answerAt hx'
      refine ⟨((answerAt_relives c.core l place).isLive k).symm.trans hlive,p',y,hy,?_⟩
      rcases hcases with ⟨rfl,rfl,rfl⟩ | ⟨-,hkept⟩
      · cases y <;> exact ⟨rfl,id⟩
      · exact ⟨hkept.through,hkept.finished⟩

/-! ## A release -/

/-- Every write of `l` pushed before `pushes` is named to a seal that is done. -/
structure Decided (d : Durability E T I) (l : Key) (pushes : ℕ) : Prop where
  held : ∀ op h a, d.held.get op = some h → h.write = some a → a.lineage = l → pushes ≤ op
  write : ∀ op w, d.writes.get op = some w → w.lineage = l → op < pushes →
    ∃ q, w.stage = .named q ∧ ∀ s, d.seals.get ⟨l, q⟩ = some s → s.stage.isDone = true

theorem Decided.reissue (h : Decided d l at_.pushes) : ReissueDecided d l at_ := by
  refine ⟨h.held,fun op w hw hl hop=>?_⟩
  obtain ⟨q,hstage,hdone⟩:=h.write op w hw hl hop
  exact ⟨q,hstage,fun s hs=>by simp [partOut,hdone s hs]⟩

theorem later_mem {heals : List HealAt} {start : Option HealAt} {y : HealAt}
    (h : heals.foldl (fun a b => later a (some b)) start=some y) : start=some y ∨ y ∈ heals := by
  induction heals generalizing start with
  | nil=>exact .inl h
  | cons b rest ih =>
    rcases ih h with hfirst | hmem
    · cases start with
      | none =>
        cases hfirst
        exact .inr mem_cons_self
      | some a =>
        have hmax : max a b=y:=Option.some.inj hfirst
        rcases max_choice a b with ha | hb
        · exact .inl (by rw [← hmax,ha])
        · exact .inr (by rw [← hmax,hb]; exact mem_cons_self)
    · exact .inr (mem_cons_of_mem _ hmem)

theorem releaseHeals_released {made : ℕ} {k : Key} {st' : LineageState E}
    (hst' : (d.releaseHeals l made through).lineages.get k=some st') :
    ∃ st,d.lineages.get k=some st ∧ st'.ended=st.ended ∧ (st'.released=st.released ∨
      k=l ∧ ∃ y,st'.released=some y ∧ d.releases l made through y=true) := by
  unfold releaseHeals at hst'
  simp only [get_modify] at hst'
  split_ifs at hst' with hk
  · obtain ⟨st,hst,rfl⟩:=map_eq_some_iff.mp hst'
    refine ⟨st,hk ▸ hst,rfl,?_⟩
    simp only
    cases hlatest : ((d.failures.filterMap Failure.healingAt).filter fun at_ =>
        d.releases l made through at_).foldl (fun a b=>later a (some b)) none with
    | none =>
      left
      cases st.released <;> rfl
    | some y =>
      have hy : d.releases l made through y=true:=by
        rcases later_mem hlatest with hnone | hmem
        · cases hnone
        · exact (mem_filter.mp hmem).2
      cases st.released with
      | none=>exact .inr ⟨hk,y,rfl,hy⟩
      | some x =>
        rcases max_choice x y with hmax | hmax
        · exact .inl (congrArg some hmax)
        · exact .inr ⟨hk,y,congrArg some hmax,hy⟩
  · exact ⟨st',hst',rfl,.inl rfl⟩

theorem releases_reach {made : ℕ} (h : d.releases l made through at_=true) :
    ∀ e ∈ d.toCommit l at_.pushes,e ≤ through := by
  intro e he
  unfold releases healReach at h
  simp only [Bool.and_eq_true] at h
  cases hmax : (d.toCommit l at_.pushes).max? with
  | none=>simp [List.max?_eq_none_iff.mp hmax] at he
  | some m =>
    rw [hmax] at h
    exact ((List.max?_eq_some_iff.mp hmax).2 e he).trans (by simpa using h.2)

variable {pushes : ℕ}

theorem OneOut.named {place : Place} {y : Slot E} (h : OneOut d) (hinv : Inv d)
    (hst : d.lineages.get l=some st) (hlive : st.ended=false) (hy : d.slotAt l place=some y)
    (hwaits : ¬y.Waits) (hreach : ∀ e ∈ d.toCommit l pushes,e ≤ y.through) :
    (∀ op h a,d.held.get op=some h → h.write=some a → a.lineage=l → pushes ≤ op) ∧
      ∀ op w,d.writes.get op=some w → w.lineage=l → op < pushes → ∃ s,w.stage=.named s.seq ∧
        d.seals.get ⟨l,s.seq⟩=some s ∧ (s.stage.isDone=true ∨ y=.recorded s) := by
  have hisLive:=isLive_iff.mpr ⟨st,hst,hlive⟩
  have hl:=hinv.marks l st hst hlive
  have hymem:=hinv.slotAt_mem hst hy
  obtain ⟨sealed,hsealed,hle⟩:=hl.queue.le_sealed hymem
  -- The seal an epoch falls to is done, or it is the last one.
  have hcover : ∀ epoch s,epoch ≤ y.through →
      covering (slots st.leading (sealsOf d.seals l)) epoch=some (.recorded s) →
      d.seals.get ⟨l,s.seq⟩=some s ∧ (s.stage.isDone=true ∨ y=.recorded s):=by
    intro epoch s hepoch hcov
    have hmem:=covering_mem hcov
    have hs:=hinv.keys.mem_sealsOf.mp ((recorded_mem_slots _ _).mp hmem)
    have hplace : d.slotAt l (.recorded s.seq)=some (.recorded s):=by
      simp [slotAt,hs]
    refine ⟨hs,?_⟩
    rcases (covering_first hl.queue hcov hymem hepoch).lt_or_eq with hlt | heq
    · exact .inl (h l _ _ _ _ hisLive hplace hy hlt)
    · have:=hinv.place_unique hst hlive hplace hy heq
      subst this
      rw [hplace] at hy
      exact .inr (Option.some.inj hy).symm
  have hopen : ∀ epoch,epoch ≤ y.through →
      ¬OpenAt (slots st.leading (sealsOf d.seals l)) st.durableThrough st.sealedThrough epoch:=by
    rintro epoch hepoch ⟨-,hcov⟩
    obtain ⟨s,hcov,hstage⟩:=hcov (by
      rw [hsealed,above_some]
      exact (hepoch.trans hle).not_gt)
    rcases (hcover epoch s hepoch hcov).2 with hdone | rfl
    · rw [hstage] at hdone
      cases hdone
    · exact hwaits hstage
  constructor
  · intro op g a hg ha hal
    by_contra hop
    have hkey:=hinv.keys.held_key op g hg
    have hepoch : a.epoch ≤ y.through:=by
      refine hreach a.epoch (mem_append_right _ (List.mem_map.mpr ⟨a,?_,rfl⟩))
      refine mem_filter.mpr ⟨mem_filterMap.mpr ⟨g,?_,ha⟩,by simpa using hal⟩
      refine mem_filter.mpr ⟨mem_vals.mpr ⟨op,hg⟩,?_⟩
      simpa [hkey] using not_le.mp hop
    exact hopen a.epoch hepoch (hl.held_at op g a hg ha hal)
  · intro op w hw hwl hop
    have hkey:=hinv.keys.write_key op w hw
    have hepoch : w.epoch ≤ y.through:=by
      refine hreach w.epoch (mem_append_left _ (List.mem_map.mpr ⟨w,?_,rfl⟩))
      refine mem_filter.mpr ⟨mem_vals.mpr ⟨op,hw⟩,?_⟩
      simp [hwl,hkey,hop]
    have hat:=hl.write_at op w hw hwl
    cases hstage : w.stage with
    | inFlight | completed =>
      rw [hstage] at hat
      exact absurd hat (hopen w.epoch hepoch)
    | named q =>
      rw [hstage] at hat
      obtain ⟨-,s,hcov,rfl, -⟩:=hat
      exact ⟨s,rfl,hcover w.epoch s hepoch hcov⟩

/-- What a lineage released is what it had, or a heal whose writes are all decided. -/
def ReleasesDecided (d d' : Durability E T I) : Prop :=
  ∀ l st', d'.lineages.get l = some st' → st'.ended = false →
    ∃ st, d.lineages.get l = some st ∧ (st'.released = st.released ∨
      ∃ y : HealAt, st'.released = some y ∧ Decided d' l y.pushes)

theorem ReleasesDecided.of_same (h : d'.lineages=d.lineages) : ReleasesDecided d d' :=
  fun _ st hst _=>⟨st,h ▸ hst,.inl rfl⟩

theorem ReleasesDecided.of_insert (st' : LineageState E) (hst : d.lineages.get l=some st)
    (hreleased : st'.released=st.released) (h : d'.lineages=d.lineages.insert l st') :
    ReleasesDecided d d' := by
  intro k st₁ hst₁ _
  rw [h,get_insert] at hst₁
  split_ifs at hst₁ with hk
  · cases hst₁
    exact ⟨st,hk ▸ hst,.inl hreleased⟩
  · exact ⟨st₁,hst₁,.inl rfl⟩

theorem ProgressStep.releasesDecided (hstep : ProgressStep l c c') (hinv : Inv c.core)
    (hout : OneOut c.core) : ReleasesDecided c.core c'.core := by
  cases hstep with
  | start starts hok =>
    obtain ⟨n,sealDomains, -, -,rfl⟩:=startSeal_ok hok
    exact .of_same rfl
  | empties live =>
    obtain ⟨st,hst,hlive⟩:=isLive_iff.mp live
    have hemptied : ReleasesDecided c.core (c.core.emptied l st) :=
      .of_insert { st with
        leading:=st.leading.map (finishEmpty (c.core.oldestOutstanding l)) } hst rfl rfl
    rcases finishEmpties_cases hst with heq | ⟨e,hplace, -,heq⟩ <;> simp only [heq]
    · exact hemptied
    · intro k st' hst' hended
      obtain ⟨st₁,hst₁,hended₁,hreleased⟩:=releaseHeals_released hst'
      obtain ⟨st₀,hst₀,hsame⟩:=hemptied k st₁ hst₁ (hended₁ ▸ hended)
      refine ⟨st₀,hst₀,?_⟩
      rcases hreleased with heq' | ⟨rfl,y,hy,hreleases⟩
      · rcases hsame with hsame | ⟨y,hy,hdecided⟩
        · exact .inl (heq'.trans hsame)
        · exact .inr ⟨y,heq'.trans hy,hdecided.held,hdecided.write⟩
      · have hslot : ∃ place,c.core.slotAt k place=some (.empty e):=by
          rcases hplace with hlead | ⟨s,hs,htrail⟩
          · exact ⟨.leading,by simp [slotAt,hst,hlead]⟩
          · have hget:=hinv.keys.mem_sealsOf.mp ((takeWhile_sublist _).mem hs)
            exact ⟨.trailing s.seq,by simp [slotAt,hget,htrail]⟩
        obtain ⟨place,hslot⟩:=hslot
        obtain ⟨hheld,hwrite⟩:=hout.named hinv hst hlive hslot id (releases_reach hreleases)
        refine .inr ⟨y,hy,hheld,fun op w hw hl hop=>?_⟩
        obtain ⟨s,hstage,hs,hdone⟩:=hwrite op w hw hl hop
        refine ⟨s.seq,hstage,fun s' hs'=>?_⟩
        have hs' : (c.core.seals.map (c.core.finishTrailing k)).get ⟨k,s.seq⟩=some s':=hs'
        rw [Table.get_map,hs] at hs'
        cases hs'
        rcases hdone with hdone | hempty
        · unfold finishTrailing
          split_ifs <;> exact hdone
        · cases hempty
  | seals live =>
    obtain ⟨st,hst,hlive⟩:=isLive_iff.mp live
    rcases c.core.finishSeals_cases l with heq | ⟨s,hmem,hanswered, -,heq⟩ <;> simp only [heq]
    · exact .of_same rfl
    · intro k st' hst' hended
      obtain ⟨st₁,hst₁,hended₁,hreleased⟩:=releaseHeals_released hst'
      refine ⟨st₁,hst₁,hreleased.imp id ?_⟩
      rintro ⟨rfl,y,hy,hreleases⟩
      have hget:=hinv.keys.mem_sealsOf.mp hmem
      have hstage : ∃ n failed,s.stage=.flushing n failed:=by
        unfold hasAnswered at hanswered
        cases hstage : s.stage with
        | waiting | done ok=>rw [hstage] at hanswered; cases hanswered
        | flushing n failed=>exact ⟨n,failed,rfl⟩
      obtain ⟨n,failed,hstage⟩:=hstage
      have hwaits : ¬(Slot.recorded s).Waits:=by
        intro hwaits
        have hwaits : s.stage=.waiting:=hwaits
        rw [hstage] at hwaits
        cases hwaits
      have hslot : c.core.slotAt k (.recorded s.seq)=some (.recorded s):=by
        simp [slotAt,hget]
      obtain ⟨hheld,hwrite⟩:=hout.named hinv hst hlive hslot hwaits (releases_reach hreleases)
      refine ⟨y,hy,hheld,fun op w hw hl hop=>?_⟩
      obtain ⟨s₁,hstage₁,hs₁,hdone⟩:=hwrite op w hw hl hop
      refine ⟨s₁.seq,hstage₁,fun s' hs'=>?_⟩
      have hs' : (c.core.seals.map (c.core.finishSeal k)).get ⟨k,s₁.seq⟩=some s':=hs'
      rw [Table.get_map,hs₁] at hs'
      cases hs'
      unfold finishSeal
      rcases hdone with hdone | heq₁
      · split_ifs
        · exact (SealStage.finish_kept _).2 hdone
        · exact hdone
      · cases heq₁
        rw [if_pos ⟨rfl,hanswered⟩]
        simp [hstage,SealStage.finish,SealStage.isDone]

theorem AdvanceStep.releasesDecided (hstep : AdvanceStep c c') (hinv : Inv c.core)
    (hout : OneOut c.core) : ReleasesDecided c.core c'.core := by
  cases hstep with
  | progress l step=>exact step.releasesDecided hinv hout
  | healed=>exact .of_same rfl
  | mark l step =>
    cases step with
    | @pass c' st through recorded passes free hok =>
      obtain ⟨spans,taken,window,kept,abandoned,rfl⟩:=passSeal_eq hok
      exact .of_insert (st.passed through recorded) passes.lineage rfl rfl
    | @answer place through blocker live due blocked =>
      intro k st' hst' _
      cases place with
      | leading =>
        rw [answerAt,get_modify] at hst'
        split_ifs at hst' with hk
        · obtain ⟨st,hst,rfl⟩:=map_eq_some_iff.mp hst'
          exact ⟨st,hk ▸ hst,.inl rfl⟩
        · exact ⟨st',hst',.inl rfl⟩
      | recorded q | trailing q=>exact ⟨st',hst',.inl rfl⟩

/-! ## Decided writes stay so -/

theorem AdvanceStep.records (hstep : AdvanceStep c c') :
    (∀ op w',c'.core.writes.get op=some w' → ∃ w,c.core.writes.get op=some w ∧
      w'.lineage=w.lineage ∧ ∀ q,w.stage=.named q → w'.stage=.named q) ∧
    ∀ op h',c'.core.held.get op=some h' → ∃ h,c.core.held.get op=some h ∧ h'.write=h.write := by
  have hsame : ∀ {d' : Durability E T I},d'.writes=c.core.writes → d'.held=c.core.held →
      (∀ op w',d'.writes.get op=some w' → ∃ w,c.core.writes.get op=some w ∧
        w'.lineage=w.lineage ∧ ∀ q,w.stage=.named q → w'.stage=.named q) ∧
      ∀ op h',d'.held.get op=some h' → ∃ h,c.core.held.get op=some h ∧ h'.write=h.write :=
    fun hw hh=>⟨fun _ w' hw'=>⟨w',hw ▸ hw',rfl,fun _ h=>h⟩,
      fun _ h' hh'=>⟨h',hh ▸ hh',rfl⟩⟩
  cases hstep with
  | progress l step =>
    cases step with
    | start starts hok =>
      obtain ⟨n,sealDomains, -, -,rfl⟩:=startSeal_ok hok
      refine ⟨fun op w' hw'=>?_,fun _ h' hh'=>⟨h',hh',rfl⟩⟩
      simp only [Table.get_map] at hw'
      obtain ⟨w,hw,rfl⟩:=map_eq_some_iff.mp hw'
      refine ⟨w,hw,?_⟩
      unfold Write.named
      split_ifs with hnamed
      · refine ⟨rfl,fun q hq=>?_⟩
        simp [isNamedBy,hq] at hnamed
      · exact ⟨rfl,fun _ hq=>hq⟩
    | empties live =>
      obtain ⟨st,hst, -⟩:=isLive_iff.mp live
      rcases finishEmpties_cases hst with heq | ⟨e, -, -,heq⟩ <;> simp only [heq] <;>
        exact hsame rfl rfl
    | seals live =>
      rcases c.core.finishSeals_cases l with heq | ⟨s, -, -, -,heq⟩ <;> simp only [heq] <;>
        exact hsame rfl rfl
  | healed=>exact hsame rfl rfl
  | mark l step =>
    cases step with
    | @pass c' st through recorded passes free hok =>
      obtain ⟨spans,taken,window,kept,abandoned,rfl⟩:=passSeal_eq hok
      refine ⟨fun op w' hw'=>⟨w',get_of_filter hw',rfl,fun _ h=>h⟩,fun op h' hh'=>?_⟩
      simp only [releaseThrough,Table.get_map] at hh'
      obtain ⟨h,hh,rfl⟩:=map_eq_some_iff.mp hh'
      refine ⟨h,hh,?_⟩
      split_ifs <;> rfl
    | @answer place through blocker live due blocked=>cases place <;> exact hsame rfl rfl

theorem AdvanceStep.seal_back {q : ℕ} {s' : Seal E} (hstep : AdvanceStep c c') (hinv : Inv c.core)
    (hlive : c'.core.isLive l=true) (hs' : c'.core.seals.get ⟨l,q⟩=some s') :
    ∃ s,c.core.seals.get ⟨l,q⟩=some s ∧ (s.stage.isDone=true → s'.stage.isDone=true) := by
  have hslot' : c'.core.slotAt l (.recorded q)=some (.recorded s'):=by
    simp [slotAt,hs']
  have hseq' : s'.seq=q:=(hstep.inv hinv).keys.seal_key _ s' hs'
  have hkeep : SealsKeep c.core c'.core → ∃ s,c.core.seals.get ⟨l,q⟩=some s ∧
      (s.stage.isDone=true → s'.stage.isDone=true):=by
    intro hkeep
    obtain ⟨p,x,hx,hkept⟩:=hkeep.slot l _ _ hlive hslot'
    cases x with
    | empty e=>exact hkept.elim
    | recorded s =>
      cases p with
      | leading =>
        obtain ⟨st, -,hlead⟩:=bind_eq_some_iff.mp hx
        obtain ⟨e, -,he⟩:=map_eq_some_iff.mp hlead
        cases he
      | trailing q₀ =>
        obtain ⟨s₀, -,htrail⟩:=bind_eq_some_iff.mp hx
        obtain ⟨e, -,he⟩:=map_eq_some_iff.mp htrail
        cases he
      | recorded q₀ =>
        obtain ⟨s₀,hs₀,heq⟩:=map_eq_some_iff.mp hx
        cases heq
        have hseq : s.seq=q₀:=hinv.keys.seal_key _ s hs₀
        have hq : q₀=q:=by rw [← hseq,← hseq',hkept.1]
        exact ⟨s,hq ▸ hs₀,hkept.finished⟩
  cases hstep with
  | progress k step=>exact hkeep step.sealsKeep
  | healed=>exact hkeep (.of_same rfl rfl rfl)
  | mark k step =>
    cases step with
    | pass passes free hok=>exact hkeep (passSeal_sealsKeep hinv passes hok)
    | answer live due blocked =>
      obtain ⟨y,hy,hcases⟩:=slotAt_answerAt hslot'
      obtain ⟨s,hs,rfl⟩:=map_eq_some_iff.mp hy
      refine ⟨s,hs,?_⟩
      rcases hcases with ⟨-, -,heq⟩ | ⟨-,hkept⟩
      · cases heq
        exact id
      · exact hkept.finished

theorem Decided.step (h : Decided c.core l pushes) (hinv : Inv c.core) (hstep : AdvanceStep c c')
    (hlive : c'.core.isLive l=true) : Decided c'.core l pushes := by
  obtain ⟨hwrites,hheld⟩:=hstep.records
  refine ⟨fun op g a hg ha hl=>?_,fun op w' hw' hl hop=>?_⟩
  · obtain ⟨g₀,hg₀,heq⟩:=hheld op g hg
    exact h.held op g₀ a hg₀ (heq ▸ ha) hl
  · obtain ⟨w,hw,hlineage,hnamed⟩:=hwrites op w' hw'
    obtain ⟨q,hq,hdone⟩:=h.write op w hw (hlineage ▸ hl) hop
    refine ⟨q,hnamed q hq,fun s' hs'=>?_⟩
    obtain ⟨s,hs,hkept⟩:=hstep.seal_back hinv hlive hs'
    exact hkept (hdone s hs)

theorem advance_releasesDecided {c₁ : Change E T I} (hinv : Inv c₁.core) (hout : OneOut c₁.core)
    (hok : advance c₁=.ok c) : OneOut c.core ∧ ReleasesDecided c₁.core c.core := by
  have hall : Inv c.core ∧ OneOut c.core ∧ ReleasesDecided c₁.core c.core:=by
    refine steps_invariant (P:=fun s=>Inv s.core ∧ OneOut s.core ∧ ReleasesDecided c₁.core s.core)
      (advance_steps hinv hok).1 ⟨hinv,hout,.of_same rfl⟩ fun s s' hstep ⟨hs,hone,hrel⟩=>?_
    refine ⟨hstep.inv hs,hone.stay (hstep.sealsStay hs),fun l st' hst' hended=>?_⟩
    obtain ⟨st,hst,hreleased⟩:=hstep.releasesDecided hs hone l st' hst' hended
    obtain ⟨st₁,hst₁,hended₁, -⟩:=(hstep.descends hs).lineage l st' hst' hended
    rw [hst] at hst₁
    cases hst₁
    obtain ⟨st₀,hst₀,hrel⟩:=hrel l st hst hended₁
    refine ⟨st₀,hst₀,?_⟩
    rcases hreleased with heq | hnew
    · rcases hrel with hsame | ⟨y,hy,hdecided⟩
      · exact .inl (heq.trans hsame)
      · exact .inr ⟨y,heq.trans hy,hdecided.step hs hstep (isLive_iff.mpr ⟨st',hst',hended⟩)⟩
    · exact .inr hnew
  exact hall.2

theorem Run.oneOut (run : Run ticks d) (hturn : ∀ t ∈ ticks,SealsInTurn t) : OneOut d := by
  induction run using Run.steps with
  | new hinit =>
    cases hinit
    intro l p p' x x' _ hx
    exact (new_slotAt _ _ _ _ _ p x hx).elim
  | @step ticks d call change run hinv hpromised hcall ih =>
    have hout:=ih fun t ht=>hturn t (mem_cons_of_mem _ ht)
    rcases call_calls hinv hcall with ⟨d',rfl,hquiet⟩ | ⟨c₁,hprep,hadvance⟩
    · exact hout.stay (hquiet.sealsKeep.stay hinv)
    · exact (advance_releasesDecided (hprep.inv hinv hpromised)
        (hprep.oneOut hinv hout (hturn _ mem_cons_self)) hadvance).1

theorem HealAt.pushes_mono {a b : HealAt} (h : a ≤ b) : a.pushes ≤ b.pushes := by
  have hle : toLex (a.pushes,a.seals) ≤ toLex (b.pushes,b.seals):=h
  rcases Prod.Lex.le_iff.mp hle with hlt | ⟨heq, -⟩
  · exact hlt.le
  · exact heq.le

theorem Decided.mono {pushes' : ℕ} (h : Decided d l pushes) (hle : pushes' ≤ pushes) :
    Decided d l pushes' :=
  ⟨fun op g a hg ha hl=>hle.trans (h.held op g a hg ha hl),
    fun op w hw hl hop=>h.write op w hw hl (hop.trans_le hle)⟩

/-- In every run whose seals are asked for in turn, a step that releases a heal leaves no write pushed
before the heal in flight, held, unnamed or named to a seal with a part out. -/
theorem heal_released_decided (run : Run ticks d) (hturn : ∀ t ∈ ticks, SealsInTurn t) :
    ∀ t ∈ ticks, ∀ l at_, Releases t.before l at_ t.after → ReissueDecided t.after l at_ := by
  induction run using Run.steps with
  | new=>exact fun t ht=>(by cases ht)
  | @step ticks d call change run hinv hpromised hcall ih =>
    intro t ht l at_ hreleases
    rcases mem_cons.mp ht with rfl | ht
    swap
    · exact ih (fun t ht=>hturn t (mem_cons_of_mem _ ht)) t ht l at_ hreleases
    have hout:=Run.oneOut run fun t ht=>hturn t (mem_cons_of_mem _ ht)
    obtain ⟨-,⟨st,hst,hlive,hpending⟩,st',r,hst',hlive',hr,hle⟩:=hreleases
    have hkept : ∀ st₀,d.lineages.get l=some st₀ → some r≠st₀.released:=by
      intro st₀ hst₀ heq
      have hst : d.lineages.get l=some st:=hst
      rw [hst] at hst₀
      cases hst₀
      exact absurd hle (hpending r heq.symm).not_ge
    rcases call_calls hinv hcall with ⟨d',rfl,hquiet⟩ | ⟨c₁,hprep,hadvance⟩
    · rcases (hquiet.descends (R:=Eq) hinv hpromised).lineage l st' hst' hlive' with
        ⟨st₀,hst₀, -, -,heq⟩ | hnew
      · exact absurd (hr.symm.trans heq.symm) (hkept st₀ hst₀)
      · exact absurd (hinv.clocks.lineage_clock l st hst) hnew.not_gt
    · have hinv₁:=hprep.inv hinv hpromised
      obtain ⟨st₁,hst₁,hreleased⟩:=(advance_releasesDecided hinv₁
        (hprep.oneOut hinv hout (hturn _ mem_cons_self)) hadvance).2 l st' hst' hlive'
      rcases hreleased with heq | ⟨y,hy,hdecided⟩
      · obtain ⟨st₂,hst₂,hlive₂, -⟩:=(advance_descends hinv₁ hadvance).lineage l st' hst' hlive'
        rw [hst₁] at hst₂
        cases hst₂
        obtain ⟨st₀,hst₀, -, -,heq₀⟩:=(hprep.descends (R:=Eq) hinv).lineage l st₁ hst₁ hlive₂
        exact absurd (hr.symm.trans (heq.trans heq₀.symm)) (hkept st₀ hst₀)
      · rw [hr] at hy
        cases hy
        exact (hdecided.mono (HealAt.pushes_mono hle)).reissue

/-! ## Runs that decide it -/

def Tick.sealsInTurn (t : Tick E T I) : Bool :=
  match t.call with
  | .sealThrough l _ => (t.before.lineages.get l).all fun st =>
    (slots st.leading (sealsOf t.before.seals l)).all Slot.finished
  | _ => true

theorem Tick.inTurn_of_check {t : Tick E T I} (h : t.sealsInTurn=true) : SealsInTurn t := by
  intro l through hcall st hst x hx
  simp only [sealsInTurn,hcall,hst,all_some,List.all_eq_true] at h
  exact h x hx

def Tick.releases (t : Tick E T I) (l : Key) (at_ : HealAt) : Bool :=
  (t.before.failures.any fun f => decide (f.standing = .healing at_)) &&
    ((t.before.lineages.get l).any fun st => !st.ended && st.released.all fun r => decide (r < at_)) &&
    (t.after.lineages.get l).any fun st => !st.ended && st.released.any fun r => decide (at_ ≤ r)

theorem Tick.releases_of_check {t : Tick E T I} (h : t.releases l at_=true) :
    Releases t.before l at_ t.after := by
  simp only [releases,Bool.and_eq_true,List.any_eq_true,Option.any_eq_true,
    decide_eq_true_eq,Bool.not_eq_true'] at h
  obtain ⟨⟨hhealing,st,hst,hlive,hpending⟩,st',hst',hlive',r,hr,hle⟩:=h
  refine ⟨hhealing,⟨st,hst,hlive,fun r hr=>?_⟩,st',r,hst',hlive',hr,hle⟩
  simpa [hr] using hpending

def Durability.undecided (d : Durability E T I) (l : Key) (at_ : HealAt) : Bool :=
  d.writes.entries.any fun e => decide (e.2.lineage = l) && decide (e.1 < at_.pushes) &&
    match e.2.stage with
    | .named q => (d.seals.get ⟨l, q⟩).any (d.partOut l)
    | _ => true

theorem Durability.undecided_of_check (h : d.undecided l at_=true) : ¬ReissueDecided d l at_ := by
  intro hdecided
  obtain ⟨⟨op,w⟩,hmem,hcheck⟩:=List.any_eq_true.mp h
  simp only [Bool.and_eq_true,decide_eq_true_eq] at hcheck
  obtain ⟨⟨hl,hop⟩,hstage⟩:=hcheck
  obtain ⟨q,hq,hout⟩:=hdecided.write op w (mem_entries.mp hmem) hl hop
  rw [hq] at hstage
  obtain ⟨s,hs,hpart⟩:=(Option.any_eq_true _ _).mp hstage
  rw [hout s hs] at hpart
  cases hpart

/-- Epoch 1's flush fails. Its write is issued again at epoch 2 and the failure healed, and then the
re-issue is sealed. -/
def healedThenSealed : List (Call ℕ Unit) :=
  [.admit_ 0, .pushed (plainWrite 0 0 1 0), .completed 0 .succeeded, .popped 0, .sealThrough 0 1,
    .flushed 0 1 0 (some deviceFault), .admit_ 1, .pushed (plainWrite 1 0 2 0),
    .completed 1 .succeeded, .popped 1, .resolve [(⟨⟨0, 0⟩, 0⟩, .heal)], .sealThrough 0 2]

/-- The seal of the re-issue is answered, and the heal is released with its write decided. -/
theorem heal_released_decided_in_turn :
    ∃ (ticks : List (Tick ℕ Unit ℕ)) (d : Durability ℕ Unit ℕ), Run ticks d ∧
      (∀ t ∈ ticks, SealsInTurn t) ∧ (∃ t ∈ ticks, Releases t.before 0 ⟨2, 1⟩ t.after) ∧
      ∀ t ∈ ticks, ∀ l at_, Releases t.before l at_ t.after → ReissueDecided t.after l at_ := by
  obtain ⟨ticks,d,run,hcheck⟩:=(smallCore_run List.Pairwise.nil).play make
    makes_of_make (healedThenSealed++[.flushed 0 2 0 none])
    (fun ticks _=>ticks.all Tick.sealsInTurn && ticks.any fun t=>Tick.releases t 0 ⟨2,1⟩)
    (by decide +kernel)
  rw [Bool.and_eq_true,List.all_eq_true,List.any_eq_true] at hcheck
  obtain ⟨hturn,t,ht,hreleases⟩:=hcheck
  have hinTurn : ∀ t ∈ ticks,SealsInTurn t:=fun t ht=>Tick.inTurn_of_check (hturn t ht)
  exact ⟨ticks,d,run,hinTurn,⟨t,ht,Tick.releases_of_check hreleases⟩,
    heal_released_decided run hinTurn⟩

/-- A later seal, of a write to another file, is answered first, and releases the heal while the
re-issue's flush is out. -/
theorem heal_released_undecided :
    ∃ (ticks : List (Tick ℕ Unit ℕ)) (d : Durability ℕ Unit ℕ), Run ticks d ∧
      ∃ t ∈ ticks, ∃ l at_, Releases t.before l at_ t.after ∧ ¬ReissueDecided t.after l at_ := by
  obtain ⟨ticks,d,run,hcheck⟩:=(smallCore_run List.Pairwise.nil).play make
    makes_of_make (healedThenSealed++[.admit_ 2,.pushed (plainWrite 2 0 3 1),.completed 2 .succeeded,
      .popped 2,.sealThrough 0 3,.flushed 0 3 1 none])
    (fun ticks _=>ticks.any fun t=>Tick.releases t 0 ⟨2,1⟩ && t.after.undecided 0 ⟨2,1⟩)
    (by decide +kernel)
  obtain ⟨t,ht,hcheck⟩:=List.any_eq_true.mp hcheck
  rw [Bool.and_eq_true] at hcheck
  exact ⟨ticks,d,run,t,ht,0,⟨2,1⟩,Tick.releases_of_check hcheck.1,undecided_of_check hcheck.2⟩

end WindowsThreadpoolSys.DurableIoring
