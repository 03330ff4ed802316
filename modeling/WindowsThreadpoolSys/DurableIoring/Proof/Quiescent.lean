import WindowsThreadpoolSys.DurableIoring.Proof.Stands

/-! The core is quiescent when an advance has nothing to do: no seal can start or finish, no heal waits
only to be reported, and every mark stands. An advance is a sequence of steps that ends there. -/
namespace WindowsThreadpoolSys.DurableIoring
open Library Durability List Table
open Relation (ReflTransGen)

variable {E T I : Type} [LinearOrder E] {d d' : Durability E T I} {c c' : Change E T I} {l : Key}

structure Quiescent (d : Durability E T I) : Prop where
  settled : ∀ l, d.isLive l = true → Settled d l
  stands : ∀ l, d.isLive l = true → Stands d l
  healed : ∀ f ∈ d.failures, d.isHealed f = false

/-! ## Healed failures -/

theorem isHealed_congr {f : Failure I} (hpending : ∀ l,d'.pendingOn f l=d.pendingOn f l)
    (hsuspects : ∀ x,x ∈ d'.suspects f ↔ x ∈ d.suspects f) : d'.isHealed f=d.isHealed f := by
  unfold isHealed
  simp only [hpending]
  rw [any_congr_mem fun x _=>hsuspects x]

theorem isHealed_resolved (f : Failure I) : d.isHealed { f with standing := .resolved }=false := by
  simp [isHealed,Failure.healingAt]

theorem releaseHealed_healed {f : Failure I} (hf : f ∈ (releaseHealed c).core.failures) :
    (releaseHealed c).core.isHealed f=false := by
  obtain ⟨f₀, -,rfl⟩:=mem_map.mp hf
  have hsame : ∀ g : Failure I,(releaseHealed c).core.isHealed g=c.core.isHealed g :=
    fun g=>isHealed_congr (fun _=>rfl) fun _=>Iff.rfl
  rw [hsame]
  split_ifs with hhealed
  · exact isHealed_resolved f₀
  · simpa using hhealed

theorem MarkStep.isHealed (hstep : MarkStep l c c') (hinv : Inv c.core) :
    c'.core.failures=c.core.failures ∧
      ∀ f ∈ c.core.failures,c'.core.isHealed f=c.core.isHealed f := by
  cases hstep with
  | @pass c' st through recorded passes free hok =>
    obtain ⟨-, -, -, -, -,hlineages,hfailures, -⟩:=passSeal_queue hok
    refine ⟨hfailures,fun f hf=>isHealed_congr (fun l'=>?_)
      fun x=>passSeal_suspects hinv passes hok hf x⟩
    refine pendingOn_congr (fun st' hst'=>?_) fun hnone=>?_
    · rw [hlineages,get_insert] at hst'
      split_ifs at hst' with hl
      · cases hst'
        exact ⟨st,hl ▸ passes.lineage,rfl,rfl⟩
      · exact ⟨st',hst',rfl,rfl⟩
    · rw [hlineages,get_insert] at hnone
      split_ifs at hnone with hl
      exact hnone
  | @answer place through blocker live due blocked =>
    cases place with
    | leading =>
      refine ⟨rfl,fun f hf=>isHealed_congr (fun l'=>?_) fun x=>Iff.rfl⟩
      refine pendingOn_congr (fun st' hst'=>?_) fun hnone=>?_
      · unfold answerAt at hst'
        simp only at hst'
        rw [get_modify] at hst'
        split_ifs at hst' with hl
        · obtain ⟨st,hst,rfl⟩:=Option.map_eq_some_iff.mp hst'
          exact ⟨st,hst,rfl,rfl⟩
        · exact ⟨st',hst',rfl,rfl⟩
      · unfold answerAt at hnone
        simp only at hnone
        rw [get_modify] at hnone
        split_ifs at hnone with hl
        · exact Option.map_eq_none_iff.mp hnone
        · exact hnone
    | recorded q | trailing q=>exact ⟨rfl,fun f _=>rfl⟩

theorem Durability.mem_liveLineages : l ∈ d.liveLineages ↔ d.isLive l=true := by
  rw [isLive_iff]
  unfold liveLineages
  simp only [mem_map,mem_filter,Prod.exists,exists_and_right,exists_eq_right,
    mem_entries,Bool.not_eq_true']

theorem foldlM_reaches {R : Key → Change E T I → Change E T I → Prop}
    {f : Change E T I → Key → Except Inconsistency (Change E T I)}
    {P : Durability E T I → Key → Prop}
    (hrelives : ∀ l c c',R l c c' → Relives c.core.lineages c'.core.lineages)
    (hinv : ∀ l c c',R l c c' → Inv c.core → Inv c'.core)
    (hkeep : ∀ l l' c c',R l' c c' → Inv c.core → P c.core l → P c'.core l)
    (hreach : ∀ l c c',Inv c.core → c.core.isLive l=true → f c l=.ok c' →
      ReflTransGen (R l) c c' ∧ P c'.core l)
    {ls : List Key} (hc : Inv c.core) (hlive : ∀ l ∈ ls,c.core.isLive l=true)
    (hok : ls.foldlM f c=.ok c') :
    ReflTransGen (fun a b => ∃ l,R l a b) c c' ∧ ∀ l ∈ ls,P c'.core l := by
  induction ls generalizing c with
  | nil =>
    cases hok
    exact ⟨.refl,by simp⟩
  | cons l ls ih =>
    rw [foldlM_cons,bind_eq_ok] at hok
    obtain ⟨c₁,hone,hrest⟩:=hok
    obtain ⟨hsteps,hreached⟩:=hreach l c c₁ hc (hlive l mem_cons_self) hone
    have hsteps' : ReflTransGen (fun a b=>∃ l,R l a b) c c₁ :=
      ReflTransGen.mono (fun _ _ hstep=>⟨l,hstep⟩) _ _ hsteps
    have hc₁ : Inv c₁.core:=steps_invariant (P:=fun c=>Inv c.core) hsteps hc (hinv l)
    obtain ⟨hlast,hothers⟩:=ih hc₁ (fun l' hl'=>steps_invariant
      (P:=fun c=>c.core.isLive l'=true) hsteps (hlive l' (mem_cons_of_mem _ hl'))
      fun a b hstep ha=>((hrelives l a b hstep).isLive l').trans ha) hrest
    refine ⟨hsteps'.trans hlast,fun l' hl'=>?_⟩
    rcases mem_cons.mp hl' with rfl | hl'
    · exact (steps_invariant (P:=fun c=>Inv c.core ∧ P c.core l') hlast ⟨hc₁,hreached⟩
        fun a b ⟨k,hstep⟩ ha=>⟨hinv k a b hstep ha.1,hkeep l' k a b hstep ha.1 ha.2⟩).2
    · exact hothers l' hl'

theorem advance_steps (hinv : Inv c.core) (hok : advance c=.ok c') :
    ReflTransGen AdvanceStep c c' ∧ Quiescent c'.core := by
  unfold Durability.advance at hok
  rw [bind_eq_ok] at hok
  obtain ⟨c₁,hprogress,hmark⟩:=hok
  obtain ⟨hsteps,hsettled⟩:=foldlM_reaches (R:=ProgressStep) (P:=Settled)
    (fun _ _ _ hstep=>hstep.relives) (fun _ _ _ hstep=>hstep.inv)
    (fun _ _ _ _ hstep=>hstep.settled) (fun _ _ _=>progress_steps) hinv
    (fun l hl=>mem_liveLineages.mp hl) hprogress
  have hadvance : ReflTransGen AdvanceStep c (releaseHealed c₁) :=
    (ReflTransGen.mono (fun _ _ ⟨l,hstep⟩=>AdvanceStep.progress l hstep) _ _ hsteps).tail
      (.healed c₁)
  have hkept:=steps_invariant (P:=fun a=>Inv a.core ∧ ∀ l,a.core.isLive l=c.core.isLive l)
    hadvance ⟨hinv,fun _=>rfl⟩ fun a b hstep ha =>
      ⟨hstep.inv ha.1,fun l=>(hstep.relives.isLive l).trans (ha.2 l)⟩
  obtain ⟨hmarks,hstands⟩:=foldlM_reaches (R:=MarkStep) (P:=Stands)
    (fun _ _ _ hstep=>hstep.relives) (fun _ _ _ hstep=>hstep.inv)
    (fun _ _ _ _ hstep=>hstep.stands) (fun _ _ _=>advanceMark_steps) hkept.1
    (fun l hl=>(hkept.2 l).trans (mem_liveLineages.mp hl)) hmark
  -- the marks keep what settled and what healed
  have hlast:=steps_invariant
    (P:=fun a=>Inv a.core ∧ (∀ l,a.core.isLive l=c.core.isLive l) ∧
      (∀ l,c.core.isLive l=true → Settled a.core l) ∧
      ∀ f ∈ a.core.failures,a.core.isHealed f=false)
    hmarks ⟨hkept.1,hkept.2,fun l hl=>(AdvanceStep.healed c₁).settled
      (steps_invariant (P:=fun a=>Inv a.core) hsteps hinv fun a b ⟨k,hstep⟩=>hstep.inv)
      (hsettled l (mem_liveLineages.mpr hl)),fun f hf=>releaseHealed_healed hf⟩
    fun a b ⟨k,hstep⟩ ⟨ha,hlive,hset,hhealed⟩=>by
      obtain ⟨hfailures,hsame⟩:=hstep.isHealed ha
      refine ⟨hstep.inv ha,fun l=>(hstep.relives.isLive l).trans (hlive l),
        fun l hl=>hstep.settled ha (hset l hl),fun f hf=>?_⟩
      rw [hfailures] at hf
      exact (hsame f hf).trans (hhealed f hf)
  refine ⟨hadvance.trans (ReflTransGen.mono (fun _ _ ⟨l,hstep⟩=>AdvanceStep.mark l hstep) _ _
    hmarks),?_,?_,hlast.2.2.2⟩
  · intro l hl
    exact hlast.2.2.1 l ((hlast.2.1 l).symm.trans hl)
  · intro l hl
    exact hstands l (mem_liveLineages.mpr ((hlast.2.1 l).symm.trans hl))

theorem Inv.advance (hinv : Inv c.core) (hok : advance c=.ok c') : Inv c'.core :=
  steps_invariant (P:=fun c=>Inv c.core) (advance_steps hinv hok).1 hinv
    fun _ _ hstep=>hstep.inv

end WindowsThreadpoolSys.DurableIoring
