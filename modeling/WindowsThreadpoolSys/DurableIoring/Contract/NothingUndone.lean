import WindowsThreadpoolSys.DurableIoring.Proof.Runs
import WindowsThreadpoolSys.DurableIoring.Durability.Play

/-! An advance of a quiescent core makes nothing due and changes nothing. Every call of a run leaves the
core quiescent, so between calls no seal that could start is waiting, no finished seal that no
failure holds is unpassed, no heal that took effect is unreported, and no operation whose gate the
mark has reached is held for it. -/
namespace WindowsThreadpoolSys.DurableIoring
open Library Durability List

variable {E T I : Type} [LinearOrder E] {d : Durability E T I} {c : Change E T I} {l : Key}

/-! ## Starting and finishing -/

theorem startSealsFrom_settled {seals : List (Seal E)} {oldest : Option E}
    (hwaiting : ∀ s ∈ seals,s.stage=.waiting → ∃ o,oldest=some o ∧ o ≤ s.through) :
    startSealsFrom l oldest seals c=.ok c := by
  induction seals with
  | nil=>rfl
  | cons s rest ih =>
    have hrest:=ih fun s' hs'=>hwaiting s' (mem_cons_of_mem _ hs')
    unfold startSealsFrom
    cases hstage : s.stage with
    | flushing n failed | done ok=>exact hrest
    | waiting =>
      obtain ⟨o,ho,hle⟩:=hwaiting s mem_cons_self hstage
      simp [ho,hle]

theorem finishEmpty_settled {oldest : Option E} {e : Empty E}
    (h : e.finished=false → ∃ o,oldest=some o ∧ o ≤ e.through) : finishesEmpty oldest e=false := by
  unfold finishesEmpty
  cases hfinished : e.finished with
  | true=>rfl
  | false =>
    obtain ⟨o,ho,hle⟩:=h hfinished
    simp [ho,hle]

theorem map_finishEmpty_settled {oldest : Option E} {e : Option (Empty E)}
    (h : ∀ x,e=some x → finishesEmpty oldest x=false) : e.map (finishEmpty oldest)=e := by
  cases e with
  | none=>rfl
  | some x =>
    have hx:=h x rfl
    simp [finishEmpty,hx]

theorem Table.map_eq_self {κ α : Type} [LinearOrder κ] {t : Table κ α} {f : κ → α → α}
    (h : ∀ k v,t.get k=some v → f k v=v) : t.map f=t := by
  refine Table.ext_get fun k=>?_
  rw [Table.get_map]
  cases hget : t.get k with
  | none=>rfl
  | some v=>simp [h k v hget]

theorem Table.insert_eq_self {κ α : Type} [LinearOrder κ] {t : Table κ α} {k : κ} {v : α}
    (h : t.get k=some v) : t.insert k v=t := by
  refine Table.ext_get fun k'=>?_
  rw [Table.get_insert]
  split_ifs with hk
  · rw [hk,h]
  · rfl

theorem finishEmpties_settled {st : LineageState E} (h : Settled d l)
    (hst : d.lineages.get l=some st) : d.finishEmpties l=d := by
  have hfinishes : ∀ e,HasEmpty d l e →
      finishesEmpty (d.oldestOutstanding l) e=false :=
    fun e he=>finishEmpty_settled (h.empty e he)
  have hleading : st.leading.map (finishEmpty (d.oldestOutstanding l))=st.leading :=
    map_finishEmpty_settled fun e he=>hfinishes e (.inl ⟨st,hst,he⟩)
  have hlineages : d.lineages.insert l
      { st with leading:=st.leading.map (finishEmpty (d.oldestOutstanding l)) } =
      d.lineages:=by
    rw [hleading]
    exact Table.insert_eq_self hst
  have hseals : (d.seals.map fun k s =>
      if k.lineage=l ∧ k.seq ∈ ((sealsOf d.seals l).takeWhile
          fun s=>!s.stage.isWaiting).map Seal.seq then
        { s with trailing:=s.trailing.map (finishEmpty (d.oldestOutstanding l)) }
      else s)=d.seals:=by
    refine Table.map_eq_self fun k s hs=>?_
    split_ifs with hstarted
    · have hmem : s ∈ sealsOf d.seals l:=mem_sealsOf.mpr ⟨k,hstarted.1,hs⟩
      rw [map_finishEmpty_settled fun e he=>hfinishes e (.inr ⟨s,hmem,he⟩)]
    · rfl
  have hnone : ((st.leading.toList++((sealsOf d.seals l).takeWhile
      fun s=>!s.stage.isWaiting).flatMap fun s=>s.trailing.toList).filter
        (finishesEmpty (d.oldestOutstanding l)))=[]:=by
    refine filter_eq_nil_iff.mpr fun e he=>?_
    rw [Bool.not_eq_true]
    rcases mem_append.mp he with he | he
    · exact hfinishes e (.inl ⟨st,hst,Option.mem_toList.mp he⟩)
    · obtain ⟨s,hs,he⟩:=mem_flatMap.mp he
      exact hfinishes e (.inr ⟨s,(takeWhile_sublist _).subset hs,Option.mem_toList.mp he⟩)
  unfold finishEmpties
  simp only [hst,hnone,List.getLast?_nil,hlineages,hseals]

theorem finishSeals_settled (h : Settled d l) : d.finishSeals l=d := by
  have hnone : (sealsOf d.seals l).filter (d.hasAnswered l)=[] :=
    filter_eq_nil_iff.mpr fun s hs=>by rw [h.flushing s hs]; exact Bool.false_ne_true
  have hseals : (d.seals.map fun k s =>
      if k.lineage=l ∧ d.hasAnswered l s=true then { s with stage:=s.stage.finish } else s) =
      d.seals:=by
    refine Table.map_eq_self fun k s hs=>if_neg ?_
    rintro ⟨hk,hans⟩
    rw [h.flushing s (mem_sealsOf.mpr ⟨k,hk,hs⟩)] at hans
    cases hans
  unfold finishSeals
  simp only [hnone,filter_nil,List.getLast?_nil,hseals]

theorem progress_settled (h : Settled c.core l) (hlive : c.core.isLive l=true) :
    progress c l=.ok c := by
  obtain ⟨st,hst, -⟩:=isLive_iff.mp hlive
  unfold progress startSeals
  rw [startSealsFrom_settled h.waiting]
  show Except.ok { c with core:=(c.core.finishEmpties l).finishSeals l }=.ok c
  rw [finishEmpties_settled h hst,finishSeals_settled h]

/-! ## Marks and heals -/

theorem releaseHealed_quiescent (h : ∀ f ∈ c.core.failures,c.core.isHealed f=false) :
    releaseHealed c=c := by
  have hmap : (c.core.failures.map fun f =>
      if c.core.isHealed f then { f with standing:=.resolved } else f)=c.core.failures:=by
    refine (map_congr_left fun f hf=>?_).trans (map_id _)
    rw [h f hf]
    rfl
  have hnone : c.core.failures.filter c.core.isHealed=[] :=
    filter_eq_nil_iff.mpr fun f hf=>by rw [h f hf]; exact Bool.false_ne_true
  unfold releaseHealed
  simp only [hmap,hnone,map_nil,append_nil]

theorem passSeals_stands (h : Stands c.core l) (fuel : ℕ) : passSeals l fuel c=.ok c := by
  cases fuel with
  | zero=>rfl
  | succ fuel =>
    unfold passSeals
    cases hst : c.core.lineages.get l with
    | none=>rfl
    | some st =>
      simp only
      cases hnext : c.core.nextFinished l st with
      | none=>rfl
      | some found =>
        obtain ⟨through,recorded⟩:=found
        simp only [h.held st through recorded hst hnext,if_true]

theorem answerBlocked_stands (h : Stands c.core l) (place : Place) : answerBlocked l c place=c := by
  unfold answerBlocked
  cases hdue : c.core.answerable l place with
  | none=>rfl
  | some through=>simp only [h.answered place through hdue]

theorem advanceMark_stands (h : Stands c.core l) : advanceMark c l=.ok c := by
  have hanswers : ∀ places : List Place,places.foldl (answerBlocked l) c=c:=by
    intro places
    induction places with
    | nil=>rfl
    | cons place rest ih=>rw [foldl_cons,answerBlocked_stands h,ih]
  unfold advanceMark
  rw [passSeals_stands h]
  show Except.ok ((places c.core.seals l).foldl (answerBlocked l) c)=.ok c
  rw [hanswers]

theorem foldlM_self {α σ ε : Type} {f : σ → α → Except ε σ} {s : σ} {xs : List α}
    (h : ∀ x ∈ xs,f s x=.ok s) : xs.foldlM f s=.ok s := by
  induction xs with
  | nil=>rfl
  | cons x rest ih =>
    rw [foldlM_cons,h x mem_cons_self]
    exact ih fun y hy=>h y (mem_cons_of_mem _ hy)

theorem advance_quiescent (h : Quiescent c.core) : advance c=.ok c := by
  unfold Durability.advance
  simp only
  rw [foldlM_self fun l hl=>progress_settled (h.settled l (mem_liveLineages.mp hl))
    (mem_liveLineages.mp hl)]
  show c.core.liveLineages.foldlM advanceMark (releaseHealed c)=.ok c
  rw [releaseHealed_quiescent h.healed]
  exact foldlM_self fun l hl=>advanceMark_stands (h.stands l (mem_liveLineages.mp hl))

/-! ## Between calls -/

/-- A seal of `l` waiting with nothing of the lineage outstanding at or below it. -/
def CanStart (d : Durability E T I) (l : Key) (s : Seal E) : Prop :=
  s ∈ sealsOf d.seals l ∧ s.stage = .waiting ∧
    (d.oldestOutstanding l).all (fun o => decide (s.through < o)) = true

/-- Whenever a call of a run has returned, advancing again makes nothing due and changes nothing. -/
theorem nothing_left_undone {ticks : List (Tick E T I)} (run : Run ticks d) :
    (∀ due : Due E T I, Durability.advance ⟨d, due⟩ = .ok ⟨d, due⟩) ∧
      (∀ l s, d.isLive l = true → ¬CanStart d l s) ∧
      (∀ l st through recorded, d.live l = some st →
        d.nextFinished l st = some (through, recorded) → (d.blocking l through).isSome = true) ∧
      (∀ f ∈ d.failures, ∀ at_, f.standing = .healing at_ →
        ∃ x ∈ d.suspects f, d.pendingOn f x.lineage = true) ∧
      ∀ op g, d.held.get op = some g → g.ready = false →
        ∃ st, d.live g.gate.lineage = some st ∧ above st.durableThrough g.gate.epoch = true := by
  obtain ⟨hinv,hq⟩:=run.keeps
  refine ⟨fun due=>advance_quiescent hq,fun l s hlive hstart=>?_,
    fun l st through recorded hst hnext=>?_,fun f hf at_ hstanding=>?_,
    fun op g hg hready=>?_⟩
  · obtain ⟨hmem,hwaits,hfree⟩:=hstart
    obtain ⟨o,ho,hle⟩:=(hq.settled l hlive).waiting s hmem hwaits
    rw [ho] at hfree
    exact absurd hle (not_le.mpr (of_decide_eq_true hfree))
  · obtain ⟨hget,hended⟩:=live_eq_some.mp hst
    exact (hq.stands l (isLive_iff.mpr ⟨st,hget,hended⟩)).held st through recorded hget
      hnext
  · have hhealed:=hq.healed f hf
    simpa [isHealed,Failure.healingAt,hstanding] using hhealed
  · obtain ⟨st,hst,hended,habove⟩:=hinv.ends.gate_lineage op g hg hready
    exact ⟨st,live_eq_some.mpr ⟨hst,hended⟩,habove⟩

/-- A run whose failure holds a finished seal: advancing again still does nothing. -/
theorem nothing_left_undone_held :
    ∃ (ticks : List (Tick ℕ Unit ℕ)) (d : Durability ℕ Unit ℕ), Run ticks d ∧
      (d.blocking 0 2).isSome = true ∧
      ∀ due : Due ℕ Unit ℕ, Durability.advance ⟨d, due⟩ = .ok ⟨d, due⟩ := by
  obtain ⟨ticks,d,run,hcheck⟩:=(smallCore_run List.Pairwise.nil).play make
    makes_of_make flushedThenFailed (fun _ d=>(d.blocking 0 2).isSome) (by decide +kernel)
  exact ⟨ticks,d,run,hcheck,(nothing_left_undone run).1⟩

/-- The counters by epoch, the gated table and the span entries count the records. A seal's stage counts
its parts that are out, and a write is recorded only while a part of it is to succeed. A place of the
window is held once for each record that keeps it. -/
theorem records_exact {ticks : List (Tick E T I)} (run : Run ticks d) :
    CountsOk d.writes d.held d.inFlightByEpoch d.heldByEpoch d.gated ∧ SpansOk d.writes d.spans ∧
      PartsOk d.lineages d.seals d.spans d.sealDomains d.writes d.lists d.served ∧
      CoverOk d.lineages d.spans d.sealDomains d.writes d.lists d.served ∧
      WindowOk d.window d.writes d.held d.kept d.failures d.seals d.abandoned d.capacity.operations := by
  have h:=run.keeps.1
  exact ⟨h.counts,h.spans,h.parts,h.cover,h.window⟩

theorem records_exact_failed : ∃ (ticks : List (Tick ℕ Unit ℕ)) (d : Durability ℕ Unit ℕ),
    Run ticks d ∧ d.failures.length = 1 ∧
      CountsOk d.writes d.held d.inFlightByEpoch d.heldByEpoch d.gated ∧ SpansOk d.writes d.spans ∧
      PartsOk d.lineages d.seals d.spans d.sealDomains d.writes d.lists d.served ∧
      CoverOk d.lineages d.spans d.sealDomains d.writes d.lists d.served ∧
      WindowOk d.window d.writes d.held d.kept d.failures d.seals d.abandoned d.capacity.operations := by
  obtain ⟨ticks,d,run,h⟩:=(smallCore_run List.Pairwise.nil).play make makes_of_make flushedThenFailed
    (fun _ d=>decide (d.failures.length=1)) (by decide +kernel)
  exact ⟨ticks,d,run,of_decide_eq_true h,records_exact run⟩

end WindowsThreadpoolSys.DurableIoring
