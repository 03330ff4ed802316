import Mathlib.Logic.Relation
import WindowsThreadpoolSys.DurableIoring.Proof.Pass

/-! An advance is a sequence of small steps: seals of one lineage starting and finishing, heals taking
effect, and one lineage's mark passing a seal or a seal being answered as blocked. What each step
keeps, the advance keeps. -/
namespace WindowsThreadpoolSys.DurableIoring
open Library Durability List
open Relation (ReflTransGen)

variable {E T I : Type} [LinearOrder E] {c c' : Change E T I} {l : Key}

inductive ProgressStep (l : Key) : Change E T I → Change E T I → Prop where
  | start {c c' : Change E T I} {st : LineageState E} {s : Seal E} (starts : Starts c.core l st s)
      (hok : startSeal c l s = .ok c') : ProgressStep l c c'
  | empties {c : Change E T I} (live : c.core.isLive l = true) :
      ProgressStep l c { c with core := c.core.finishEmpties l }
  | seals {c : Change E T I} (live : c.core.isLive l = true) :
      ProgressStep l c { c with core := c.core.finishSeals l }

/-- Lineage `l`'s mark passes its first seal, or one of its seals is answered as blocked. -/
inductive MarkStep (l : Key) : Change E T I → Change E T I → Prop where
  | pass {c c' : Change E T I} {st : LineageState E} {through : E} {recorded : Option (Seal E)}
      (passes : Passes c.core l st through recorded) (free : c.core.blocking l through = none)
      (hok : passSeal c l st through recorded = .ok c') : MarkStep l c c'
  | answer {c : Change E T I} {place : Place} {through : E} {blocker : FailureId}
      (live : c.core.isLive l = true) (due : c.core.answerable l place = some through)
      (blocked : c.core.blocking l through = some blocker) :
      MarkStep l c
        { core := c.core.answerAt l place
          due := { c.due with events := c.due.events ++ [.blocked l through blocker] } }

inductive AdvanceStep : Change E T I → Change E T I → Prop where
  | progress {c c' : Change E T I} (l : Key) (step : ProgressStep l c c') : AdvanceStep c c'
  | healed (c : Change E T I) : AdvanceStep c (releaseHealed c)
  | mark {c c' : Change E T I} (l : Key) (step : MarkStep l c c') : AdvanceStep c c'

/-! ## What a step keeps -/

theorem Durability.releaseHeals_relives (d : Durability E T I) (l : Key) (made : ℕ) (through : E) :
    Relives d.lineages (d.releaseHeals l made through).lineages := by
  unfold releaseHeals
  simp only
  exact Relives.modify fun _=>⟨rfl,rfl⟩

theorem Durability.finishEmpties_relives {d : Durability E T I} {st : LineageState E}
    (hst : d.lineages.get l=some st) : Relives d.lineages (d.finishEmpties l).lineages := by
  have hemptied : Relives d.lineages (d.emptied l st).lineages:=Relives.insert hst rfl le_rfl
  rcases finishEmpties_cases hst with heq | ⟨e, -, -,heq⟩ <;> rw [heq]
  · exact hemptied
  · exact hemptied.trans (releaseHeals_relives _ _ _ _)

theorem Durability.finishSeals_relives (d : Durability E T I) (l : Key) :
    Relives d.lineages (d.finishSeals l).lineages := by
  rcases d.finishSeals_cases l with heq | ⟨s, -, -, -,heq⟩ <;> rw [heq]
  · exact Relives.refl _
  · exact releaseHeals_relives (d.done l) _ _ _

theorem Durability.answerAt_relives (d : Durability E T I) (l : Key) (place : Place) :
    Relives d.lineages (d.answerAt l place).lineages := by
  cases place with
  | leading =>
    unfold answerAt
    simp only
    exact Relives.modify fun _=>⟨rfl,rfl⟩
  | recorded q | trailing q=>exact Relives.refl _

theorem ProgressStep.relives (h : ProgressStep l c c') :
    Relives c.core.lineages c'.core.lineages := by
  cases h with
  | start starts hok =>
    obtain ⟨n,sealDomains, -, -,rfl⟩:=startSeal_ok hok
    exact Relives.refl _
  | empties live =>
    obtain ⟨st,hst, -⟩:=isLive_iff.mp live
    exact finishEmpties_relives hst
  | seals=>exact finishSeals_relives _ _

theorem MarkStep.relives (h : MarkStep l c c') : Relives c.core.lineages c'.core.lineages := by
  cases h with
  | pass passes free hok =>
    obtain ⟨spans,taken,window,kept,abandoned,rfl⟩:=passSeal_eq hok
    exact Relives.insert passes.lineage rfl le_rfl
  | answer=>exact answerAt_relives _ _ _

theorem AdvanceStep.relives (h : AdvanceStep c c') : Relives c.core.lineages c'.core.lineages := by
  cases h with
  | progress l step | mark l step=>exact step.relives
  | healed=>exact Relives.refl _

theorem Relives.isLive {d d' : Durability E T I} (h : Relives d.lineages d'.lineages) (l : Key) :
    d'.isLive l=d.isLive l := by
  rw [Bool.eq_iff_iff,isLive_iff,isLive_iff]
  constructor
  · rintro ⟨st',hst',hlive⟩
    obtain ⟨st,hst,heq⟩:=h.back l st' hst'
    exact ⟨st,hst,heq.symm.trans hlive⟩
  · rintro ⟨st,hst,hlive⟩
    obtain ⟨st',hst',heq, -⟩:=h.forth l st hst
    exact ⟨st',hst',heq.trans hlive⟩

theorem ProgressStep.inv (h : ProgressStep l c c') (hinv : Inv c.core) : Inv c'.core := by
  cases h with
  | start starts hok=>exact hinv.startSeal starts hok
  | empties live =>
    obtain ⟨st,hst,hlive⟩:=isLive_iff.mp live
    exact hinv.finishEmpties hst hlive
  | seals live =>
    obtain ⟨st,hst,hlive⟩:=isLive_iff.mp live
    exact hinv.finishSeals hst hlive

theorem MarkStep.inv (h : MarkStep l c c') (hinv : Inv c.core) : Inv c'.core := by
  cases h with
  | pass passes free hok=>exact hinv.passSeal passes hok
  | answer live due blocked =>
    obtain ⟨st,hst,hlive⟩:=isLive_iff.mp live
    exact hinv.answerAt hst hlive _

theorem AdvanceStep.inv (h : AdvanceStep c c') (hinv : Inv c.core) : Inv c'.core := by
  cases h with
  | progress l step | mark l step=>exact step.inv hinv
  | healed=>exact hinv.releaseHealed

theorem steps_invariant {step : Change E T I → Change E T I → Prop} {P : Change E T I → Prop}
    (hsteps : ReflTransGen step c c') (hP : P c)
    (hstep : ∀ c c',step c c' → P c → P c') : P c' := by
  induction hsteps with
  | refl=>exact hP
  | tail _ hlast ih=>exact hstep _ _ hlast ih

/-! ## Starting a lineage's seals -/

theorem sealsOf_stage {d : Durability E T I} (hkeys : KeysOk d.writes d.held d.seals d.kept)
    {s : Seal E} {before after : List (Seal E)} (hseals : sealsOf d.seals l=before++s::after)
    (stage : SealStage) : sealsOf (d.seals.insert ⟨l,s.seq⟩ { s with stage := stage }) l =
      before++{ s with stage := stage }::after := by
  have hmem : s ∈ sealsOf d.seals l:=by
    rw [hseals]
    exact mem_append_right _ mem_cons_self
  have hsorted:=hkeys.sealsOf_sorted l
  rw [hseals,pairwise_append,pairwise_cons] at hsorted
  obtain ⟨-,⟨hafter, -⟩,hbefore⟩:=hsorted
  rw [insert_seal _ (hkeys.mem_sealsOf.mp hmem),sealsOf_map_eq
    (g:=fun v=>if v.seq=s.seq then { s with stage:=stage } else v),hseals,map_append,
    map_cons,if_pos rfl]
  · have hleft : before.map (fun v=>if v.seq=s.seq then { s with stage:=stage } else v) =
        before:=by
      refine (map_congr_left fun v hv=>?_).trans (map_id _)
      exact if_neg (hbefore v hv s mem_cons_self).ne
    have hright : after.map (fun v=>if v.seq=s.seq then { s with stage:=stage } else v) =
        after:=by
      refine (map_congr_left fun v hv=>?_).trans (map_id _)
      exact if_neg (hafter v hv).ne'
    rw [hleft,hright]
  · rintro ⟨kl,kq⟩ v hv rfl
    have hseq:=hkeys.seal_key _ v hv
    simp only at hseq
    simp [hseq]

theorem startSealsFrom_steps {rest : List (Seal E)} (before : List (Seal E)) {st : LineageState E}
    (hinv : Inv c.core) (hst : c.core.lineages.get l=some st) (hlive : st.ended=false)
    (hseals : sealsOf c.core.seals l=before++rest) (hbefore : ∀ s ∈ before,s.stage ≠ .waiting)
    (hok : startSealsFrom l (c.core.oldestOutstanding l) rest c=.ok c') :
    ReflTransGen (ProgressStep l) c c' ∧ ∀ s ∈ sealsOf c'.core.seals l,s.stage=.waiting →
        ∃ o,c'.core.oldestOutstanding l=some o ∧ o ≤ s.through := by
  induction rest generalizing c before with
  | nil =>
    cases hok
    refine ⟨.refl,fun s hs hwaits=>absurd hwaits (hbefore s ?_)⟩
    rw [hseals,append_nil] at hs
    exact hs
  | cons s rest ih =>
    unfold startSealsFrom at hok
    have hskip : s.stage≠.waiting →
        startSealsFrom l (c.core.oldestOutstanding l) rest c=.ok c' →
        ReflTransGen (ProgressStep l) c c' ∧
          ∀ s ∈ sealsOf c'.core.seals l,s.stage=.waiting →
            ∃ o,c'.core.oldestOutstanding l=some o ∧ o ≤ s.through:=by
      intro hstarted hrest
      refine ih (before++[s]) hinv hst (by rw [hseals]; simp) (fun s' hs'=>?_) hrest
      rcases mem_append.mp hs' with hs' | hs'
      · exact hbefore s' hs'
      · rw [mem_singleton.mp hs']
        exact hstarted
    cases hstage : s.stage with
    | flushing n failed | done ok =>
      simp only [hstage] at hok
      exact hskip (by simp [hstage]) hok
    | waiting =>
      simp only [hstage] at hok
      split_ifs at hok with hwaits
      · -- a seal with a write outstanding at or below it stops the rest
        cases hok
        refine ⟨.refl,fun s' hs' hwaits'=>?_⟩
        rw [Option.any_eq_true] at hwaits
        obtain ⟨o,ho,hle⟩:=hwaits
        refine ⟨o,ho,(of_decide_eq_true hle).trans ?_⟩
        rw [hseals,mem_append] at hs'
        have hordered:=(hinv.marks l st hst hlive).queue.recorded_ordered
        rw [hseals,pairwise_append,pairwise_cons] at hordered
        rcases hs' with hs' | hs'
        · exact absurd hwaits' (hbefore s' hs')
        · rcases mem_cons.mp hs' with rfl | hs'
          · exact le_rfl
          · exact (hordered.2.1.1 s' hs').1.le
      · rw [bind_eq_ok] at hok
        obtain ⟨c₁,hstart,hrest⟩:=hok
        have hmem : s ∈ sealsOf c.core.seals l:=by
          rw [hseals]
          exact mem_append_right _ mem_cons_self
        have hsorted:=hinv.keys.sealsOf_sorted l
        rw [hseals,pairwise_append,pairwise_cons] at hsorted
        have hstarts : Starts c.core l st s :=
          { lineage:=hst
            live:=hlive
            queued:=hinv.keys.mem_sealsOf.mp hmem
            waits:=hstage
            first:=fun s' hs' hlt=>by
              rw [hseals,mem_append] at hs'
              rcases hs' with hs' | hs'
              · exact hbefore s' hs'
              · rcases mem_cons.mp hs' with rfl | hs'
                · exact absurd hlt (lt_irrefl _)
                · exact absurd hlt (hsorted.2.1.1 s' hs').not_gt
            outstanding:=fun o ho=>by
              simpa [ho] using hwaits }
        have hinv₁:=hinv.startSeal hstarts hstart
        have hstep : ProgressStep l c c₁:=.start hstarts hstart
        obtain ⟨n,sealDomains, -, -,rfl⟩:=startSeal_ok hstart
        obtain ⟨hsteps,hquiet⟩:=ih (before++[_]) hinv₁ hst
          (by rw [append_assoc]; exact sealsOf_stage hinv.keys hseals _)
          (fun s' hs'=>by
            rcases mem_append.mp hs' with hs' | hs'
            · exact hbefore s' hs'
            · rw [mem_singleton.mp hs']
              simp) hrest
        exact ⟨.head hstep hsteps,hquiet⟩

end WindowsThreadpoolSys.DurableIoring
