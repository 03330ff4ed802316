import WindowsThreadpoolSys.DurableIoring.Proof.Settled

/-! A lineage's mark stands when its first seal is unfinished or a failure holds it, and every finished
seal a failure holds has been answered. Advancing a lineage's mark brings it to stand, and advancing
another's leaves it: letting writes go takes nothing from what a failure suspects. -/
namespace WindowsThreadpoolSys.DurableIoring
open Library Durability List Table Option
open Relation (ReflTransGen)

variable {E T I : Type} [LinearOrder E] {d d' : Durability E T I} {c c' : Change E T I} {l : Key}

/-! ## What a failure suspects, as writes go -/

section Suspects

variable {lineages : Table Key (LineageState E)} {seals : Seals E} {sealDomains : SealDomains}

theorem InvBeside.suspects_letGoOne {op : OpId} {w : Write E T} {st : LineageState E}
    (h : InvBeside lineages seals sealDomains d) (hw : d.writes.get op=some w)
    (hst : lineages.get w.lineage=some st) (hlive : st.ended=false)
    (hone : d.letGoOne op=.ok d') {f : Failure I} (hf : f ∈ d.failures) (x : Suspect E) :
    x ∈ d'.suspects f ↔ x ∈ d.suspects f := by
  have hop : w.op=op:=h.tables.keys.write_key op w hw
  have hnamed:=h.tables.suspects.write_named f hf op w st hw hst (.inl hlive)
  have hclock:=(h.tables.suspects.clock f hf).1
  obtain ⟨spans,window,kept, -,hrelease,hkept,rfl⟩:=letGoOne_ok hw hone
  rw [hop] at hrelease hkept
  have hsuspected : window.suspected op=true ↔ ∃ f ∈ d.failures,op ∈ f.listed:=by
    rw [Window.suspected_iff,← h.window.suspect_pos op,Window.release_level hrelease op .suspect]
    simp
  -- the record kept in the write's place is named by the same failures
  have hgone : (w.gone d.nextFailure).namedBy d.lists f=w.namedBy d.lists f:=gone_namedBy hclock
  rw [mem_suspects,mem_suspects]
  constructor
  · rintro (⟨op',w',hw',hnamed',rfl⟩ | ⟨op',g,hg,hnamed',rfl⟩)
    · exact .inl ⟨op',w',get_of_erase hw',hnamed',rfl⟩
    · rcases hkept with ⟨-, -,rfl⟩ | ⟨-,rfl⟩
      · rcases of_insert hg with ⟨-,rfl⟩ | hg
        · exact .inl ⟨op,w,hw,hgone ▸ hnamed',rfl⟩
        · exact .inr ⟨op',g,hg,hnamed',rfl⟩
      · exact .inr ⟨op',g,hg,hnamed',rfl⟩
  · rintro (⟨op',w',hw',hnamed',rfl⟩ | ⟨op',g,hg,hnamed',rfl⟩)
    · by_cases hsame : op'=op
      · subst hsame
        rw [hw] at hw'
        cases hw'
        have hlisted : ∃ f ∈ d.failures,op' ∈ f.listed:=⟨f,hf,hnamed.mp hnamed'⟩
        rcases hkept with ⟨-, -,rfl⟩ | ⟨hnot, -⟩
        · exact .inr ⟨op',w.gone d.nextFailure,get_insert_self _ _ _,hgone.trans hnamed',rfl⟩
        · rw [hsuspected.mpr hlisted] at hnot
          cases hnot
      · exact .inl ⟨op',w',by rw [get_erase,if_neg hsame,hw'],hnamed',rfl⟩
    · refine .inr ⟨op',g,?_,hnamed',rfl⟩
      rcases hkept with ⟨-, -,rfl⟩ | ⟨-,rfl⟩
      · rw [get_insert_of_ne,hg]
        rintro rfl
        rw [h.tables.keys.kept_not_write op' g hg] at hw
        cases hw
      · exact hg

theorem InvBeside.suspects_letGo {leaves : Write E T → Bool}
    (h : InvBeside lineages seals sealDomains d)
    (hleaves : ∀ op w,d.writes.get op=some w → leaves w=true →
      (w.stage ≠ .inFlight ∧ Leaves lineages d.spans sealDomains d.lists w) ∧
        ∃ st,lineages.get w.lineage=some st ∧ st.ended=false)
    (hgo : d.letGo leaves=.ok d') {f : Failure I} (hf : f ∈ d.failures) (x : Suspect E) :
    x ∈ d'.suspects f ↔ x ∈ d.suspects f := by
  refine (letGo_induction (fun s=>InvBeside lineages seals sealDomains s ∧ s.failures=d.failures ∧
      (∀ op w,s.writes.get op=some w → leaves w=true →
        (w.stage≠.inFlight ∧ Leaves lineages s.spans sealDomains s.lists w) ∧
          ∃ st,lineages.get w.lineage=some st ∧ st.ended=false) ∧
      (x ∈ s.suspects f ↔ x ∈ d.suspects f))
    (fun s s' op w hs hw hpick hone=>?_) ⟨h,rfl,hleaves,Iff.rfl⟩ hgo).2.2.2
  obtain ⟨hs,hfailures,hrest,hx⟩:=hs
  obtain ⟨⟨hstage,hleave⟩,st,hst,hlive⟩:=hrest op w hw hpick
  have hsame:=hs.suspects_letGoOne hw hst hlive hone (hfailures ▸ hf) x
  have hnext:=hs.letGoOne hw hleave (hs.tables.counts.erase hw hstage) hone
  obtain ⟨spans,window,kept,hleft, -, -,rfl⟩:=letGoOne_ok hw hone
  refine ⟨hnext,hfailures,fun op' w' hw' hpick'=>?_,hsame.trans hx⟩
  obtain ⟨⟨hstage',hleave'⟩,hlive'⟩:=hrest op' w' (get_of_erase hw') hpick'
  exact ⟨⟨hstage',hleave'.of_leave hleft⟩,hlive'⟩

end Suspects

variable {through : E} {st : LineageState E} {f : Failure I} {recorded : Option (Seal E)}

theorem passSeal_suspects (hinv : Inv c.core) (passes : Passes c.core l st through recorded)
    (hok : passSeal c l st through recorded=.ok c') (hf : f ∈ c.core.failures) (x : Suspect E) :
    x ∈ c'.core.suspects f ↔ x ∈ c.core.suspects f := by
  obtain ⟨window,d₂,d₃,hunpin,hgo,hforget,rfl⟩:=passSeal_ok hok
  have ht:=hinv.toTablesOk
  have htaken : InvBeside c.core.lineages c.core.seals c.core.sealDomains
      (c.core.taken l st through recorded window) :=
    ⟨{ ht with },hinv.window.unpin (fun s hs=>(passes.recorded_get ht.keys hs).1) hunpin⟩
  have hsame:=htaken.suspects_letGo (fun op w hw hbelow=>by
    simp only [Write.isBelow,Bool.and_eq_true,decide_eq_true_eq] at hbelow
    exact ⟨passes.leaves ht hw hbelow.1 hbelow.2,st,hbelow.1 ▸ passes.lineage,passes.live⟩)
    hgo hf x
  obtain ⟨window₃, -,rfl⟩:=forgetAbandoned_ok hforget
  exact hsame

/-! ## Who holds a lineage -/

theorem any_congr_mem {α : Type} {xs ys : List α} {p : α → Bool}
    (h : ∀ x,p x=true → (x ∈ xs ↔ x ∈ ys)) : xs.any p=ys.any p := by
  rw [Bool.eq_iff_iff,List.any_eq_true,List.any_eq_true]
  constructor
  · rintro ⟨x,hx,hp⟩
    exact ⟨x,(h x hp).mp hx,hp⟩
  · rintro ⟨x,hx,hp⟩
    exact ⟨x,(h x hp).mpr hx,hp⟩

theorem holdsWithin_congr {covers : E → Bool} (hpending : d'.pendingOn f l=d.pendingOn f l)
    (hsuspects : ∀ x,x.lineage=l → (x ∈ d'.suspects f ↔ x ∈ d.suspects f)) :
    d'.holdsWithin f l covers=d.holdsWithin f l covers := by
  unfold holdsWithin
  rw [hpending,any_congr_mem fun x hx=>?_]
  simp only [Bool.and_eq_true,decide_eq_true_eq] at hx
  exact hsuspects x hx.1

variable {l' : Key}

theorem pendingOn_congr (h : ∀ st',d'.lineages.get l'=some st' → ∃ st,d.lineages.get l'=some st ∧
      st'.ended=st.ended ∧ st'.released=st.released)
    (hnone : d'.lineages.get l'=none → d.lineages.get l'=none) :
    d'.pendingOn f l'=d.pendingOn f l' := by
  unfold pendingOn
  cases f.standing with
  | «open» | resolved=>rfl
  | healing at_ =>
    cases hst' : d'.lineages.get l' with
    | none=>simp only [hnone hst']
    | some st' =>
      obtain ⟨st,hst,hended,hreleased⟩:=h st' hst'
      simp only [hst,hended,hreleased]

variable {st' : LineageState E}

theorem blocking_congr (hfailures : d'.failures=d.failures) (hst : d.lineages.get l=some st)
    (hst' : d'.lineages.get l=some st') (hdurable : st'.durableThrough=st.durableThrough)
    (hended : st'.ended=st.ended) (hreleased : st'.released=st.released)
    (hsuspects : ∀ f ∈ d.failures,∀ x,x.lineage=l → (x ∈ d'.suspects f ↔ x ∈ d.suspects f)) :
    d'.blocking l through=d.blocking l through := by
  unfold blocking
  simp only [hst,hst',hdurable,hfailures]
  split_ifs
  · congr 1
    refine List.find?_congr fun f hf=>?_
    refine holdsWithin_congr (pendingOn_congr (fun st₁ hst₁=>?_) fun hnone=>?_) (hsuspects f hf)
    · rw [hst'] at hst₁
      cases hst₁
      exact ⟨st,hst,hended,hreleased⟩
    · rw [hst'] at hnone
      cases hnone
  · rfl

/-! ## Marks that stand -/

/-- `l`'s mark can pass no seal, and every finished seal a failure holds has been answered. -/
structure Stands (d : Durability E T I) (l : Key) : Prop where
  held : ∀ st through recorded, d.lineages.get l = some st →
    d.nextFinished l st = some (through, recorded) → (d.blocking l through).isSome = true
  answered : ∀ place through, d.answerable l place = some through → d.blocking l through = none

theorem Stands.congr (h : Stands d l) (hlineage : d'.lineages.get l=d.lineages.get l)
    (hseals : ∀ q,d'.seals.get ⟨l,q⟩=d.seals.get ⟨l,q⟩)
    (hqueue : sealsOf d'.seals l=sealsOf d.seals l)
    (hblocking : ∀ st,d.lineages.get l=some st → ∀ through,
      d'.blocking l through=d.blocking l through) : Stands d' l := by
  refine ⟨fun st through recorded hst hnext=>?_,fun place through hdue=>?_⟩
  · rw [hlineage] at hst
    rw [hblocking st hst]
    refine h.held st through recorded hst ?_
    unfold nextFinished at hnext ⊢
    rwa [hqueue] at hnext
  · unfold answerable at hdue
    rw [hlineage] at hdue
    cases hst : d.lineages.get l with
    | none =>
      rw [hst] at hdue
      cases hdue
    | some st =>
      rw [hblocking st hst]
      refine h.answered place through ?_
      unfold answerable
      rw [hst] at hdue ⊢
      simpa only [hseals] using hdue

theorem answerAt_blocking (place : Place) (hst : d.lineages.get l=some st) (through : E) :
    (d.answerAt l' place).blocking l through=d.blocking l through := by
  cases place with
  | leading =>
    have hget : (d.answerAt l' .leading).lineages.get l=some (if l=l' then
        { st with leading:=st.leading.map fun e=>{ e with answered:=true } } else st):=by
      unfold answerAt
      simp only
      rw [get_modify,hst]
      split_ifs <;> rfl
    refine blocking_congr rfl hst hget ?_ ?_ ?_ fun _ _ _ _=>Iff.rfl
    all_goals split_ifs <;> rfl
  | recorded q | trailing q=>exact blocking_congr rfl hst hst rfl rfl rfl fun _ _ _ _=>Iff.rfl

theorem passSeal_blocking {through through' : E} (hinv : Inv c.core)
    (passes : Passes c.core l' st' through recorded)
    (hok : passSeal c l' st' through recorded=.ok c') (hne : l ≠ l')
    (hst : c.core.lineages.get l=some st) :
    c'.core.blocking l through'=c.core.blocking l through' := by
  obtain ⟨-, -, -, -, -,hlineages,hfailures, -⟩:=passSeal_queue hok
  refine blocking_congr hfailures hst ?_ rfl rfl rfl
    fun f hf x _=>passSeal_suspects hinv passes hok hf x
  rw [hlineages,get_insert_of_ne _ _ hne,hst]

theorem MarkStep.stands (hstep : MarkStep l' c c') (hinv : Inv c.core) (h : Stands c.core l) :
    Stands c'.core l := by
  cases hstep with
  | @pass c' st through recorded passes free hok =>
    by_cases hl : l=l'
    · subst hl
      have hheld:=h.held st through recorded passes.lineage passes.next
      rw [free] at hheld
      cases hheld
    · obtain ⟨-, -, -,hseals, -,hlineages, -, -⟩:=passSeal_queue hok
      refine h.congr ?_ (fun q=>?_) ?_ fun st₁ hst₁ through' =>
        passSeal_blocking hinv passes hok hl hst₁
      · rw [hlineages,get_insert_of_ne _ _ hl]
      · rw [hseals]
        cases recorded with
        | none=>rfl
        | some s =>
          rw [sealsWithout,get_erase,if_neg]
          rintro hk
          exact hl (SealKey.mk.inj hk).1
      · rw [hseals]
        cases recorded with
        | none=>rfl
        | some s=>exact select_erase_of_not (by simpa using Ne.symm hl)
  | @answer place through blocker live due blocked =>
    by_cases hl : l=l'
    · subst hl
      rw [h.answered place through due] at blocked
      cases blocked
    · refine h.congr ?_ (fun q=>?_) ?_ fun st hst through'=>answerAt_blocking place hst through'
      · cases place with
        | leading =>
          unfold answerAt
          simp only
          rw [get_modify,if_neg hl]
        | recorded q | trailing q=>rfl
      · cases place with
        | leading=>rfl
        | recorded q' | trailing q' =>
          unfold answerAt
          simp only
          rw [get_modify,if_neg]
          rintro hk
          exact hl (SealKey.mk.inj hk).1
      · have hmodify : ∀ (q : ℕ) (g : Seal E → Seal E),
            sealsOf (c.core.seals.modify ⟨l',q⟩ g) l=sealsOf c.core.seals l:=by
          intro q g
          rw [modify_eq_map]
          refine sealsOf_map_of_eq fun k s _ hk=>if_neg ?_
          rintro rfl
          exact hl hk.symm
        cases place with
        | leading=>rfl
        | recorded q | trailing q=>exact hmodify q _

/-! ## Advancing a mark -/

theorem passSeals_steps {fuel : ℕ} (hinv : Inv c.core) (hst : c.core.lineages.get l=some st)
    (hlive : st.ended=false) (hfuel : (slots st.leading (sealsOf c.core.seals l)).length ≤ fuel)
    (hok : passSeals l fuel c=.ok c') :
    ReflTransGen (MarkStep l) c c' ∧ ∀ st' through recorded,c'.core.lineages.get l=some st' →
      c'.core.nextFinished l st'=some (through,recorded) →
      (c'.core.blocking l through).isSome=true := by
  induction fuel generalizing c st with
  | zero =>
    cases hok
    refine ⟨.refl,fun st' through recorded hst' hnext=>?_⟩
    rw [hst] at hst'
    cases hst'
    obtain ⟨x,hslots, -⟩:=Passes.slots_eq ⟨hst,hlive,hnext⟩ hinv.keys
    rw [hslots] at hfuel
    cases hfuel
  | succ fuel ih =>
    unfold passSeals at hok
    simp only [hst] at hok
    cases hnext : c.core.nextFinished l st with
    | none =>
      simp only [hnext] at hok
      cases hok
      refine ⟨.refl,fun st' through recorded hst' hnext'=>?_⟩
      rw [hst] at hst'
      cases hst'
      rw [hnext] at hnext'
      cases hnext'
    | some found =>
      obtain ⟨through,recorded⟩:=found
      simp only [hnext] at hok
      split_ifs at hok with hblocked
      · cases hok
        refine ⟨.refl,fun st' through' recorded' hst' hnext'=>?_⟩
        rw [hst] at hst'
        cases hst'
        rw [hnext] at hnext'
        cases hnext'
        exact hblocked
      · rw [bind_eq_ok] at hok
        obtain ⟨c₁,hpass,hrest⟩:=hok
        have passes : Passes c.core l st through recorded:=⟨hst,hlive,hnext⟩
        have hstep : MarkStep l c c₁:=.pass passes (by simpa using hblocked) hpass
        obtain ⟨-, -, -,hseals, -,hlineages, -, -⟩:=passSeal_queue hpass
        have hst₁ : c₁.core.lineages.get l=some (st.passed through recorded):=by
          rw [hlineages,get_insert_self]
        obtain ⟨x,hslots, -⟩:=passes.slots_eq hinv.keys
        obtain ⟨hsteps,hend⟩:=ih (hstep.inv hinv) hst₁ hlive (by
          rw [hseals]
          rw [hslots,length_cons] at hfuel
          exact Nat.le_of_succ_le_succ hfuel) hrest
        exact ⟨.head hstep hsteps,hend⟩

variable {place : Place}

theorem answerable_answerAt {place' : Place}
    (h : (d.answerAt l place).answerable l place'=some through) :
    place' ≠ place ∧ d.answerable l place'=some through := by
  unfold answerable at h
  have hempty : ∀ e : Empty E,Empty.answerable { e with answered:=true }=none:=by
    intro e
    simp [Empty.answerable]
  cases place with
  | leading =>
    unfold answerAt at h
    simp only at h
    rw [get_modify,if_pos rfl] at h
    cases hst : d.lineages.get l with
    | none =>
      rw [hst] at h
      cases h
    | some st =>
      rw [hst] at h
      unfold answerable
      rw [hst]
      cases place' with
      | leading =>
        exfalso
        simp only [map_some] at h
        obtain ⟨e',he',hdue⟩:=bind_eq_some_iff.mp h
        obtain ⟨e, -,rfl⟩:=map_eq_some_iff.mp he'
        rw [hempty] at hdue
        cases hdue
      | recorded q | trailing q=>exact ⟨by simp,h⟩
  | recorded q =>
    unfold answerAt at h
    unfold answerable
    cases hst : d.lineages.get l with
    | none =>
      simp only [hst] at h
      cases h
    | some st =>
      simp only [hst] at h
      cases place' with
      | leading=>exact ⟨by simp,h⟩
      | recorded q' =>
        rcases bind_modify h with ⟨hk,h⟩ | ⟨s, -,hdue⟩
        · exact ⟨fun hsame=>hk (by cases hsame; rfl),h⟩
        · simp at hdue
      | trailing q' =>
        refine ⟨by simp,?_⟩
        rcases bind_modify h with ⟨-,h⟩ | ⟨s,hs,hdue⟩
        · exact h
        · exact bind_eq_some_iff.mpr ⟨s,hs,hdue⟩
  | trailing q =>
    unfold answerAt at h
    unfold answerable
    cases hst : d.lineages.get l with
    | none =>
      simp only [hst] at h
      cases h
    | some st =>
      simp only [hst] at h
      cases place' with
      | leading=>exact ⟨by simp,h⟩
      | recorded q' =>
        refine ⟨by simp,?_⟩
        rcases bind_modify h with ⟨-,h⟩ | ⟨s,hs,hdue⟩
        · exact h
        · exact bind_eq_some_iff.mpr ⟨s,hs,hdue⟩
      | trailing q' =>
        rcases bind_modify h with ⟨hk,h⟩ | ⟨s, -,hdue⟩
        · exact ⟨fun hsame=>hk (by cases hsame; rfl),h⟩
        · obtain ⟨e',he',hdue⟩:=bind_eq_some_iff.mp hdue
          obtain ⟨e, -,rfl⟩:=map_eq_some_iff.mp he'
          rw [hempty] at hdue
          cases hdue

theorem nextFinished_answerAt (hst' : (d.answerAt l place).lineages.get l=some st')
    (h : (d.answerAt l place).nextFinished l st'=some (through,recorded)) :
    ∃ st recorded',d.lineages.get l=some st ∧ d.nextFinished l st=some (through,recorded') := by
  have hseals : ∀ (q : ℕ) (g : Seal E → Seal E),
      (∀ s,(g s).through=s.through ∧ (g s).stage=s.stage) →
      List.Forall₂ (fun s s'=>s'.through=s.through ∧ s'.stage=s.stage) (sealsOf d.seals l)
        (sealsOf (d.seals.modify ⟨l,q⟩ g) l):=by
    intro q g hg
    rw [modify_eq_map]
    refine sealsOf_map fun k s _ _=>?_
    split_ifs
    · exact hg s
    · exact ⟨rfl,rfl⟩
  -- the first seal as it was, of seals answered in place
  have hfirst : ∀ {st : LineageState E} {seals : Seals E},
      List.Forall₂ (fun s s'=>s'.through=s.through ∧ s'.stage=s.stage) (sealsOf d.seals l)
        (sealsOf seals l) →
      nextFinished { d with seals:=seals } l st=some (through,recorded) →
      ∃ recorded',d.nextFinished l st=some (through,recorded'):=by
    intro st seals hmoved hnext
    unfold nextFinished at hnext ⊢
    cases hleading : st.leading with
    | some e =>
      simp only [hleading] at hnext ⊢
      exact ⟨recorded,hnext⟩
    | none =>
      simp only [hleading] at hnext ⊢
      cases hbefore : sealsOf d.seals l with
      | nil =>
        rw [hbefore] at hmoved
        rw [List.forall₂_nil_left_iff.mp hmoved] at hnext
        cases hnext
      | cons s rest =>
        rw [hbefore] at hmoved
        cases hafter : sealsOf seals l with
        | nil =>
          rw [hafter] at hnext
          cases hnext
        | cons s' rest' =>
          rw [hafter] at hmoved hnext
          obtain ⟨⟨hthrough,hstage⟩, -⟩:=List.forall₂_cons.mp hmoved
          simp only [hthrough,hstage] at hnext ⊢
          split_ifs at hnext ⊢ with hdone
          cases hnext
          exact ⟨_,rfl⟩
  cases place with
  | leading =>
    unfold answerAt at hst' h
    simp only at hst'
    rw [get_modify,if_pos rfl] at hst'
    obtain ⟨st,hst,rfl⟩:=map_eq_some_iff.mp hst'
    unfold nextFinished at h ⊢
    cases hleading : st.leading with
    | some e =>
      simp only [hleading,map_some] at h
      refine ⟨st,recorded,hst,?_⟩
      simpa only [hleading] using h
    | none =>
      simp only [hleading,map_none] at h
      refine ⟨st,recorded,hst,?_⟩
      simpa only [hleading] using h
  | recorded q =>
    have hmoved:=hseals q (fun s=>{ s with answered:=true }) fun _=>⟨rfl,rfl⟩
    obtain ⟨recorded',hnext⟩:=hfirst hmoved h
    exact ⟨st',recorded',hst',hnext⟩
  | trailing q =>
    have hmoved:=hseals q
      (fun s=>{ s with trailing:=s.trailing.map fun e=>{ e with answered:=true } })
      fun _=>⟨rfl,rfl⟩
    obtain ⟨recorded',hnext⟩:=hfirst hmoved h
    exact ⟨st',recorded',hst',hnext⟩

theorem answerAll_steps (places : List Place) (hlive : c.core.isLive l=true) :
    ReflTransGen (MarkStep l) c (places.foldl (answerBlocked l) c) ∧
      (∀ through,(places.foldl (answerBlocked l) c).core.blocking l through =
        c.core.blocking l through) ∧ (∀ place through,
        (places.foldl (answerBlocked l) c).core.answerable l place=some through →
        c.core.answerable l place=some through ∧
          (place ∈ places → c.core.blocking l through=none)) ∧ ∀ st' through recorded,
        (places.foldl (answerBlocked l) c).core.lineages.get l=some st' →
        (places.foldl (answerBlocked l) c).core.nextFinished l st' = some (through,recorded) →
        ∃ st recorded',c.core.lineages.get l=some st ∧
          c.core.nextFinished l st=some (through,recorded') := by
  induction places generalizing c with
  | nil =>
    exact ⟨.refl,fun _=>rfl,fun place through hdue=>⟨hdue,fun hmem=>(by cases hmem)⟩,
      fun st' through recorded hst' hnext=>⟨st',recorded,hst',hnext⟩⟩
  | cons place places ih =>
    rw [foldl_cons]
    obtain ⟨st,hst,hended⟩:=isLive_iff.mp hlive
    -- the place is answered, or needs no answer
    have hone : answerBlocked l c place=c ∧
          (∀ through,c.core.answerable l place=some through → c.core.blocking l through=none) ∨
        ∃ through blocker,c.core.answerable l place=some through ∧
          c.core.blocking l through=some blocker ∧
          answerBlocked l c place =
            { core:=c.core.answerAt l place
              due:={ c.due with events:=c.due.events++[.blocked l through blocker] } }:=by
      unfold answerBlocked
      cases hdue : c.core.answerable l place with
      | none=>exact .inl ⟨rfl,fun through hsome=>(by cases hsome)⟩
      | some through =>
        cases hblocking : c.core.blocking l through with
        | none =>
          refine .inl ⟨by simp only [hblocking],fun through' hsome=>?_⟩
          cases hsome
          exact hblocking
        | some blocker=>exact .inr ⟨through,blocker,rfl,hblocking,by simp only [hblocking]⟩
    rcases hone with ⟨heq,hfree⟩ | ⟨through₀,blocker,hdue₀,hblocked₀,heq⟩
    · rw [heq]
      obtain ⟨hsteps,hblocking,hanswerable,hnext⟩:=ih hlive
      refine ⟨hsteps,hblocking,fun place' through hdue=>?_,hnext⟩
      obtain ⟨hdue',hplaces⟩:=hanswerable place' through hdue
      refine ⟨hdue',fun hmem=>?_⟩
      rcases mem_cons.mp hmem with rfl | hmem
      · exact hfree through hdue'
      · exact hplaces hmem
    · have hstep : MarkStep l c (answerBlocked l c place):=by
        rw [heq]
        exact .answer hlive hdue₀ hblocked₀
      have hlive₁:=(hstep.relives.isLive l).trans hlive
      obtain ⟨hsteps,hblocking,hanswerable,hnext⟩:=ih hlive₁
      have hblocking₁ : ∀ through,(answerBlocked l c place).core.blocking l through =
          c.core.blocking l through:=by
        intro through
        rw [heq]
        exact answerAt_blocking place hst through
      refine ⟨.head hstep hsteps,fun through=>(hblocking through).trans (hblocking₁ through),
        fun place' through hdue=>?_,fun st' through recorded hst' hnext'=>?_⟩
      · obtain ⟨hdue',hplaces⟩:=hanswerable place' through hdue
        rw [heq] at hdue'
        obtain ⟨hne,hbefore⟩:=answerable_answerAt hdue'
        refine ⟨hbefore,fun hmem=>?_⟩
        rw [← hblocking₁]
        exact hplaces ((mem_cons.mp hmem).resolve_left hne)
      · obtain ⟨st₁,recorded₁,hst₁,hnext₁⟩:=hnext st' through recorded hst' hnext'
        rw [heq] at hst₁ hnext₁
        exact nextFinished_answerAt hst₁ hnext₁

theorem answerable_mem_places (hkeys : KeysOk d.writes d.held d.seals d.kept)
    (h : d.answerable l place=some through) : place ∈ places d.seals l := by
  unfold answerable at h
  cases hst : d.lineages.get l with
  | none =>
    rw [hst] at h
    cases h
  | some st =>
    rw [hst] at h
    unfold places
    cases place with
    | leading=>exact mem_cons_self
    | recorded q | trailing q =>
      obtain ⟨s,hs, -⟩:=bind_eq_some_iff.mp h
      refine mem_cons_of_mem _ (mem_flatMap.mpr ⟨s,mem_sealsOf.mpr ⟨_,rfl,hs⟩,?_⟩)
      simp [hkeys.seal_key _ s hs]

omit [LinearOrder E] in
theorem slots_length_le (leading : Option (Empty E)) (recorded : List (Seal E)) :
    (slots leading recorded).length≤2*recorded.length+1 := by
  have hempty : ∀ o : Option (Empty E),(o.toList.map (Slot.empty (E:=E))).length≤1:=by
    rintro (_ | e) <;> simp
  unfold slots
  rw [length_append]
  have hrest : (recorded.flatMap fun s=>Slot.recorded s::s.trailing.toList.map .empty).length ≤
      2*recorded.length:=by
    induction recorded with
    | nil=>simp
    | cons s rest ih =>
      rw [flatMap_cons,length_append,length_cons,length_cons]
      have:=hempty s.trailing
      omega
  have:=hempty leading
  omega

theorem advanceMark_steps (hinv : Inv c.core) (hlive : c.core.isLive l=true)
    (hok : advanceMark c l=.ok c') : ReflTransGen (MarkStep l) c c' ∧ Stands c'.core l := by
  obtain ⟨st,hst,hended⟩:=isLive_iff.mp hlive
  unfold advanceMark at hok
  rw [bind_eq_ok] at hok
  obtain ⟨c₁,hpass,hok⟩:=hok
  cases hok
  obtain ⟨hsteps,hheld⟩:=passSeals_steps hinv hst hended (slots_length_le _ _) hpass
  have hinv₁ : Inv c₁.core:=steps_invariant (P:=fun c=>Inv c.core) hsteps hinv
    fun _ _ hstep hc=>hstep.inv hc
  have hlive₁ : c₁.core.isLive l=true:=steps_invariant (P:=fun c=>c.core.isLive l=true)
    hsteps hlive fun _ _ hstep hc=>(hstep.relives.isLive l).trans hc
  obtain ⟨hanswers,hblocking,hanswerable,hnext⟩:=answerAll_steps (places c₁.core.seals l) hlive₁
  refine ⟨hsteps.trans hanswers,⟨fun st' through recorded hst' hnext'=>?_,
    fun place through hdue=>?_⟩⟩
  · obtain ⟨st₁,recorded₁,hst₁,hnext₁⟩:=hnext st' through recorded hst' hnext'
    rw [hblocking]
    exact hheld st₁ through recorded₁ hst₁ hnext₁
  · obtain ⟨hdue₁,hplaces⟩:=hanswerable place through hdue
    rw [hblocking]
    exact hplaces (answerable_mem_places hinv₁.keys hdue₁)

end WindowsThreadpoolSys.DurableIoring
