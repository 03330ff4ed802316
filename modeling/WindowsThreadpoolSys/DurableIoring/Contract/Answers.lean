import WindowsThreadpoolSys.DurableIoring.Proof.Places
import WindowsThreadpoolSys.DurableIoring.Contract.Prefix
import WindowsThreadpoolSys.DurableIoring.Contract.SuspectSets

/-! A seal is answered by the failure of one of its own parts, or by one `Blocked` entry, and by one of
them only. The entries told so far are counted beside the core: each seal of a live lineage has been
told `Blocked` once if it is answered and no part of it failed, and not at all otherwise. -/
namespace WindowsThreadpoolSys.DurableIoring
open Library Durability List Table Option
open Relation (ReflTransGen)

variable {E T I : Type} [LinearOrder E] {d d' : Durability E T I} {c c' : Change E T I} {l : Key}
  {events past : List (Event E I)} {ticks : List (Tick E T I)} {parts : Key → ℕ → Prop}

/-! ## Blocked entries -/

def Event.isBlocked (l : Key) (through : E) : Event E I → Bool
  | .blocked l' through' _ => decide (l' = l) && decide (through' = through)
  | _ => false

def blocks (l : Key) (through : E) (events : List (Event E I)) : ℕ :=
  events.countP (Event.isBlocked l through)

theorem blocks_append (l : Key) (through : E) (xs ys : List (Event E I)) :
    blocks l through (xs++ys)=blocks l through xs+blocks l through ys := countP_append

theorem blocks_of_no_mark (h : ∀ e ∈ events,e.isMark=false) (l : Key) (through : E) :
    blocks l through events=0 := by
  refine countP_eq_zero.mpr fun e he=>?_
  have hmark:=h e he
  cases e <;> first | exact Bool.false_ne_true | cases hmark

/-! ## Answers told -/

/-- How a seal stands with what it was told: `failed` says a part of it failed. -/
def SlotTold (failed : ℕ → Prop) (told : ℕ) : Slot E → Prop
  | .empty e => told = if e.answered then 1 else 0
  | .recorded s => (s.stage.hasFailed = true ↔ failed s.seq) ∧
      (told = if s.stage.hasFailed then 0 else if s.answered then 1 else 0) ∧
      (s.answered = true → s.stage.hasFailed = true ∨ s.stage.isDone = true)

/-- The answers told so far. `parts l q` says a part of `l`'s seal `q` failed. -/
structure AnswersTold (parts : Key → ℕ → Prop) (events : List (Event E I)) (d : Durability E T I) :
    Prop where
  slot : ∀ l p x, d.isLive l = true → d.slotAt l p = some x →
    SlotTold (parts l) (blocks l x.through events) x
  beyond : ∀ l st, d.lineages.get l = some st → st.ended = false → ∀ through,
    above st.sealedThrough through = true → blocks l through events = 0
  fresh : ∀ l st, d.lineages.get l = some st → st.ended = false → ∀ q, st.nextSeal ≤ q → ¬parts l q
  unminted : ∀ l, d.nextLineage ≤ l → (∀ through, blocks l through events = 0) ∧ ∀ q, ¬parts l q
  once : ∀ l through, blocks l through events ≤ 1

omit [LinearOrder E] in
theorem SlotTold.kept {failed : ℕ → Prop} {told : ℕ} {x x' : Slot E} (h : SlotTold failed told x)
    (hkept : x.Kept x') : SlotTold failed told x' := by
  cases x with
  | empty e =>
    cases x' with
    | empty e' =>
      have h : told=if e.answered then 1 else 0:=h
      rw [← hkept.2.1] at h
      exact h
    | recorded s'=>exact hkept.elim
  | recorded s =>
    cases x' with
    | empty e'=>exact hkept.elim
    | recorded s' =>
      obtain ⟨hseq, -,hanswered,hfailed,hdone⟩:=hkept
      obtain ⟨hparts,htold,hstood⟩:=h
      refine ⟨by rw [hfailed,hseq]; exact hparts,by rw [hfailed,hanswered]; exact htold,?_⟩
      intro hans
      rw [hfailed]
      exact (hstood (hanswered ▸ hans)).imp id hdone

theorem AnswersTold.keep (h : AnswersTold parts events d) (hinv : Inv d) (hkeep : SealsKeep d d') :
    AnswersTold parts events d' := by
  refine ⟨fun l p x hlive hx=>?_,fun l st' hst' hended through habove=>?_,
    fun l st' hst' hended q hq=>?_,fun l hl=>h.unminted l (hkeep.nextLineage.trans hl),h.once⟩
  · obtain ⟨p₀,x₀,hx₀,hkept⟩:=hkeep.slot l p x hlive hx
    obtain ⟨st',hst',hended⟩:=isLive_iff.mp hlive
    have hlive₀ : d.isLive l=true:=by
      rcases hkeep.lineage l st' hst' hended with ⟨st,hst,hlive, -⟩ | hnew
      · exact isLive_iff.mpr ⟨st,hst,hlive⟩
      · exact absurd hx₀ (hinv.unminted_slot hnew p₀ x₀)
    rw [hkept.through]
    exact (h.slot l p₀ x₀ hlive₀ hx₀).kept hkept
  · rcases hkeep.lineage l st' hst' hended with ⟨st,hst,hlive,hsealed, -⟩ | hnew
    · exact h.beyond l st hst hlive through (hsealed ▸ habove)
    · exact (h.unminted l hnew).1 through
  · rcases hkeep.lineage l st' hst' hended with ⟨st,hst,hlive, -,hseq⟩ | hnew
    · exact h.fresh l st hst hlive q (hseq ▸ hq)
    · exact (h.unminted l hnew).2 q

theorem AnswersTold.congr {parts' : Key → ℕ → Prop} {more : List (Event E I)}
    (h : AnswersTold parts events d) (hparts : ∀ l q,parts' l q ↔ parts l q)
    (hevents : ∀ l through,blocks l through more=blocks l through events) :
    AnswersTold parts' more d := by
  have hfun : parts'=parts:=funext fun l=>funext fun q=>propext (hparts l q)
  subst hfun
  refine ⟨fun l p x hlive hx=>?_,fun l st hst hended through habove=>?_,h.fresh,
    fun l hl=>⟨fun through=>?_,(h.unminted l hl).2⟩,fun l through=>?_⟩
  · rw [hevents]
    exact h.slot l p x hlive hx
  · rw [hevents]
    exact h.beyond l st hst hended through habove
  · rw [hevents]
    exact (h.unminted l hl).1 through
  · rw [hevents]
    exact h.once l through

def Slot.answer : Slot E → Slot E
  | .empty e => .empty { e with answered := true }
  | .recorded s => .recorded { s with answered := true }

variable {through : E} {place : Place}

theorem Durability.answerable_slot (h : d.answerable l place=some through) :
    ∃ x,d.slotAt l place=some x ∧ x.through=through ∧ x.answered=false ∧
      x.finished=true ∧ ∀ s,x=.recorded s → s.stage=.done true := by
  unfold answerable at h
  cases hst : d.lineages.get l with
  | none =>
    rw [hst] at h
    cases h
  | some st =>
    simp only [hst] at h
    have hempty : ∀ e : Empty E,e.answerable=some through →
        e.through=through ∧ e.answered=false ∧ e.finished=true:=by
      intro e he
      unfold Empty.answerable at he
      split_ifs at he with hcond
      simp only [Bool.and_eq_true,Bool.not_eq_true'] at hcond
      exact ⟨Option.some.inj he,hcond.2,hcond.1⟩
    cases place with
    | leading =>
      obtain ⟨e,he,hans⟩:=bind_eq_some_iff.mp h
      obtain ⟨hthrough,hanswered,hfinished⟩:=hempty e hans
      exact ⟨.empty e,by simp [slotAt,hst,he],hthrough,hanswered,hfinished,
        fun s hs=>(by cases hs)⟩
    | recorded q =>
      obtain ⟨s,hs,hans⟩:=bind_eq_some_iff.mp h
      split_ifs at hans with hcond
      simp only [Bool.and_eq_true,Bool.not_eq_true',decide_eq_true_eq] at hcond
      refine ⟨.recorded s,by simp [slotAt,hs],Option.some.inj hans,hcond.1,?_,?_⟩
      · simp [Slot.finished,hcond.2,SealStage.isDone]
      · rintro s' heq
        cases heq
        exact hcond.2
    | trailing q =>
      obtain ⟨s,hs,hans⟩:=bind_eq_some_iff.mp h
      obtain ⟨e,he,hans⟩:=bind_eq_some_iff.mp hans
      obtain ⟨hthrough,hanswered,hfinished⟩:=hempty e hans
      exact ⟨.empty e,by simp [slotAt,hs,he],hthrough,hanswered,hfinished,
        fun s hs=>(by cases hs)⟩

theorem Durability.slotAt_answerAt {k : Key} {p : Place} {x' : Slot E}
    (hx' : (d.answerAt l place).slotAt k p=some x') : ∃ x,d.slotAt k p=some x ∧
      (k=l ∧ p=place ∧ x'=x.answer ∨ ¬(k=l ∧ p=place) ∧ x.Kept x') := by
  cases place with
  | leading =>
    cases p with
    | leading =>
      simp only [slotAt,answerAt,get_modify] at hx'
      split_ifs at hx' with hk
      · subst hk
        cases hst : d.lineages.get k with
        | none =>
          rw [hst] at hx'
          cases hx'
        | some st =>
          rw [hst] at hx'
          cases hlead : st.leading with
          | none=>simp [hlead] at hx'
          | some e =>
            simp only [map_some,bind_some,hlead,some.injEq] at hx'
            exact ⟨.empty e,by simp [slotAt,hst,hlead],.inl ⟨rfl,rfl,hx'.symm⟩⟩
      · exact ⟨x',hx',.inr ⟨fun h=>hk h.1,.refl x'⟩⟩
    | recorded q | trailing q=>exact ⟨x',hx',.inr ⟨fun h=>(by cases h.2),.refl x'⟩⟩
  | recorded q =>
    cases p with
    | leading=>exact ⟨x',hx',.inr ⟨fun h=>(by cases h.2),.refl x'⟩⟩
    | recorded q' =>
      simp only [slotAt,answerAt,get_modify] at hx'
      split_ifs at hx' with hk
      · cases hk
        cases hs : d.seals.get ⟨l,q⟩ with
        | none =>
          rw [hs] at hx'
          cases hx'
        | some s =>
          rw [hs] at hx'
          cases hx'
          exact ⟨.recorded s,by simp [slotAt,hs],.inl ⟨rfl,rfl,rfl⟩⟩
      · refine ⟨x',hx',.inr ⟨fun h=>hk ?_,.refl x'⟩⟩
        rw [h.1]
        cases h.2
        rfl
    | trailing q' =>
      simp only [slotAt,answerAt,get_modify] at hx'
      refine ⟨x',?_,.inr ⟨fun h=>(by cases h.2),.refl x'⟩⟩
      split_ifs at hx' with hk
      · cases hs : d.seals.get ⟨k,q'⟩ with
        | none =>
          rw [hs] at hx'
          cases hx'
        | some s =>
          rw [hs] at hx'
          simp only [slotAt,hs,bind_some]
          exact hx'
      · exact hx'
  | trailing q =>
    cases p with
    | leading=>exact ⟨x',hx',.inr ⟨fun h=>(by cases h.2),.refl x'⟩⟩
    | recorded q' =>
      simp only [slotAt,answerAt,get_modify] at hx'
      split_ifs at hx' with hk
      · cases hs : d.seals.get ⟨k,q'⟩ with
        | none =>
          rw [hs] at hx'
          cases hx'
        | some s =>
          rw [hs] at hx'
          cases hx'
          exact ⟨.recorded s,by simp [slotAt,hs],
            Or.inr ⟨fun h=>(by cases h.2),rfl,rfl,rfl,rfl,id⟩⟩
      · exact ⟨x',hx',.inr ⟨fun h=>(by cases h.2),.refl x'⟩⟩
    | trailing q' =>
      simp only [slotAt,answerAt,get_modify] at hx'
      split_ifs at hx' with hk
      · cases hk
        cases hs : d.seals.get ⟨l,q⟩ with
        | none =>
          rw [hs] at hx'
          cases hx'
        | some s =>
          rw [hs] at hx'
          cases htrail : s.trailing with
          | none=>simp [htrail] at hx'
          | some e =>
            simp only [map_some,bind_some,htrail,some.injEq] at hx'
            exact ⟨.empty e,by simp [slotAt,hs,htrail],.inl ⟨rfl,rfl,hx'.symm⟩⟩
      · refine ⟨x',hx',.inr ⟨fun h=>hk ?_,.refl x'⟩⟩
        rw [h.1]
        cases h.2
        rfl

theorem answerAt_lineage {k : Key} {st' : LineageState E}
    (hst' : (d.answerAt l place).lineages.get k=some st') :
    ∃ st,d.lineages.get k=some st ∧ st'.ended=st.ended ∧
      st'.sealedThrough=st.sealedThrough ∧ st'.nextSeal=st.nextSeal := by
  cases place with
  | leading =>
    simp only [answerAt,get_modify] at hst'
    split_ifs at hst' with hk
    · obtain ⟨st,hst,rfl⟩:=map_eq_some_iff.mp hst'
      exact ⟨st,hk ▸ hst,rfl,rfl,rfl⟩
    · exact ⟨st',hst',rfl,rfl,rfl⟩
  | recorded q | trailing q=>exact ⟨st',hst',rfl,rfl,rfl⟩

theorem AnswersTold.answer {blocker : FailureId} (h : AnswersTold parts events d) (hinv : Inv d)
    (hlive : d.isLive l=true) (hdue : d.answerable l place=some through) :
    AnswersTold parts (events++[.blocked l through blocker]) (d.answerAt l place) := by
  obtain ⟨st,hst,hended⟩:=isLive_iff.mp hlive
  obtain ⟨x,hx,hthrough,hans,hfinished,hdone⟩:=answerable_slot hdue
  have htold:=h.slot l place x hlive hx
  have hzero : blocks l through events=0:=by
    rw [hthrough] at htold
    cases x with
    | empty e =>
      have hans : e.answered=false:=hans
      simpa [SlotTold,hans] using htold
    | recorded s =>
      have hans : s.answered=false:=hans
      have hstage:=hdone s rfl
      simpa [SlotTold,hans,hstage,SealStage.hasFailed] using htold.2.1
  have hblocks : ∀ k th,blocks k th (events++[Event.blocked l through blocker]) =
      blocks k th events+if l=k ∧ through=th then 1 else 0:=by
    intro k th
    rw [blocks_append]
    congr 1
    by_cases hk : l=k <;> by_cases hth : through=th <;>
      simp [blocks,Event.isBlocked,hk,hth]
  have hsame : ∀ k th,¬(l=k ∧ through=th) →
      blocks k th (events++[Event.blocked l through blocker])=blocks k th events:=by
    intro k th hne
    rw [hblocks,if_neg hne,Nat.add_zero]
  have habove : ¬above st.sealedThrough through=true:=by
    have hmem:=hinv.slotAt_mem hst hx
    have hle:=(hinv.marks l st hst hended).queue.le_sealed hmem
    obtain ⟨sealed,hsealed,hle⟩:=hle
    rw [hsealed,above_some,← hthrough]
    exact hle.not_gt
  refine ⟨fun k p x' hlive' hx'=>?_,fun k st' hst' hended' th hth=>?_,
    fun k st' hst' hended' q hq=>?_,fun k hk=>?_,fun k th=>?_⟩
  · obtain ⟨y,hy,⟨rfl,rfl,rfl⟩ | ⟨hne,hkept⟩⟩:=slotAt_answerAt hx'
    · rw [hx] at hy
      cases hy
      cases x with
      | empty e =>
        have hth : e.through=through:=hthrough
        show blocks k e.through _=if true then 1 else 0
        rw [hth,hblocks,if_pos ⟨rfl,rfl⟩,hzero]
        rfl
      | recorded s =>
        have hth : s.through=through:=hthrough
        have hstage:=hdone s rfl
        refine ⟨htold.1,?_,fun _=>.inr hfinished⟩
        show blocks k s.through _=_
        rw [hth,hblocks,if_pos ⟨rfl,rfl⟩,hzero]
        simp [hstage,SealStage.hasFailed]
    · have hlivek : d.isLive k=true :=
        ((answerAt_relives d l place).isLive k).symm.trans hlive'
      rw [hkept.through,hsame k y.through]
      · exact (h.slot k p y hlivek hy).kept hkept
      · rintro ⟨rfl,hth⟩
        exact hne ⟨rfl,hinv.place_unique hst hended hy hx (by rw [hthrough,hth])⟩
  · obtain ⟨st₀,hst₀,heq,hsealed, -⟩:=answerAt_lineage hst'
    rw [hsealed] at hth
    rw [hsame k th]
    · exact h.beyond k st₀ hst₀ (heq ▸ hended') th hth
    · rintro ⟨rfl,rfl⟩
      rw [hst] at hst₀
      cases hst₀
      exact habove hth
  · obtain ⟨st₀,hst₀,heq, -,hseq⟩:=answerAt_lineage hst'
    exact h.fresh k st₀ hst₀ (heq ▸ hended') q (hseq ▸ hq)
  · have hk : d.nextLineage ≤ k:=by
      cases place <;> exact hk
    refine ⟨fun th=>?_,(h.unminted k hk).2⟩
    rw [hsame k th]
    · exact (h.unminted k hk).1 th
    · rintro ⟨rfl, -⟩
      exact absurd (hinv.clocks.lineage_clock l st hst) (not_lt.mpr hk)
  · rw [hblocks]
    split_ifs with hk
    · rw [← hk.1,← hk.2,hzero]
    · exact h.once k th

theorem AdvanceStep.answersTold (hstep : AdvanceStep c c') (hinv : Inv c.core)
    (h : AnswersTold parts (past++c.due.events) c.core) :
    AnswersTold parts (past++c'.due.events) c'.core := by
  cases hstep with
  | progress l step =>
    have hevents : c'.due.events=c.due.events:=by
      cases step with
      | start starts hok =>
        obtain ⟨n,sealDomains, -, -,rfl⟩:=startSeal_ok hok
        rfl
      | empties | seals=>rfl
    rw [hevents]
    exact h.keep hinv step.sealsKeep
  | healed =>
    have hkeep : SealsKeep c.core (releaseHealed c).core:=.of_same rfl rfl rfl
    refine (h.keep hinv hkeep).congr (fun _ _=>Iff.rfl) fun l through=>?_
    unfold releaseHealed
    have hnone : ∀ e ∈ (c.core.failures.filter c.core.isHealed).map fun f =>
        (Event.healed f.id : Event E I),e.isMark=false:=by
      intro e he
      obtain ⟨f, -,rfl⟩:=List.mem_map.mp he
      rfl
    rw [← append_assoc,blocks_append,blocks_of_no_mark hnone,Nat.add_zero]
  | mark l step =>
    cases step with
    | pass passes free hok =>
      have hkeep:=passSeal_sealsKeep hinv passes hok
      obtain ⟨window,d₂,d₃, -, -, -,rfl⟩:=passSeal_ok hok
      refine (h.keep hinv hkeep).congr (fun _ _=>Iff.rfl) fun k th=>?_
      show blocks k th (past++(c.due.events++[Event.durable _ _]))=_
      rw [← append_assoc,blocks_append]
      rfl
    | answer live due blocked =>
      simp only
      rw [← append_assoc]
      exact h.answer hinv live due

theorem advance_answersTold (hinv : Inv c.core) (h : AnswersTold parts (past++c.due.events) c.core)
    (hok : advance c=.ok c') : AnswersTold parts (past++c'.due.events) c'.core := by
  have hall : Inv c'.core ∧ AnswersTold parts (past++c'.due.events) c'.core :=
    steps_invariant (P:=fun s=>Inv s.core ∧ AnswersTold parts (past++s.due.events) s.core)
      (advance_steps hinv hok).1 ⟨hinv,h⟩
      fun _ _ hstep hs=>⟨hstep.inv hs.1,hstep.answersTold hs.1 hs.2⟩
  exact hall.2

/-! ## Seals made -/

theorem AnswersTold.append {more : List (Event E I)} (h : AnswersTold parts events d)
    (hmore : ∀ e ∈ more,e.isMark=false) : AnswersTold parts (events++more) d :=
  h.congr (fun _ _=>Iff.rfl) fun l through=>by
    rw [blocks_append,blocks_of_no_mark hmore,Nat.add_zero]

variable {st : LineageState E}

theorem AnswersTold.made (h : AnswersTold parts events d) (hmade : SealMade d l st through d') :
    AnswersTold parts events d' := by
  obtain ⟨hst,hlive,habove,hslot,hlineage,hnext⟩:=hmade
  have hsealed : UpTo st.sealedThrough (some through):=by
    intro s hs
    rw [hs] at habove
    exact ⟨through,rfl,(above_some.mp habove).le⟩
  have hlives : ∀ k,d'.isLive k=true → d.isLive k=true:=by
    intro k hk
    obtain ⟨st',hst',hended⟩:=isLive_iff.mp hk
    rcases hlineage k st' hst' with ⟨rfl, -⟩ | ⟨-,hst'⟩
    · exact isLive_iff.mpr ⟨st,hst,hlive⟩
    · exact isLive_iff.mpr ⟨st',hst',hended⟩
  refine ⟨fun k p x hk hx=>?_,fun k st' hst' hended th hth=>?_,
    fun k st' hst' hended q hq=>?_,fun k hk=>h.unminted k (hnext ▸ hk),h.once⟩
  · rcases hslot k p x hx with ⟨y,hy,hkept⟩ | ⟨rfl,rfl | ⟨op,rfl⟩⟩
    · rw [hkept.through]
      exact (h.slot k p y (hlives k hk) hy).kept hkept
    · exact h.beyond k st hst hlive through habove
    · refine ⟨⟨fun hfailed=>(by cases hfailed),fun hfailed=>?_⟩,
        h.beyond k st hst hlive through habove,fun hans=>(by cases hans)⟩
      exact absurd hfailed (h.fresh k st hst hlive _ le_rfl)
  · rcases hlineage k st' hst' with ⟨rfl,hsealed', -, -⟩ | ⟨-,hst'⟩
    · refine h.beyond k st hst hlive th (above_iff.mpr fun s hs=>?_)
      obtain ⟨y,hy,hle⟩:=hsealed s hs
      cases hy
      rw [hsealed'] at hth
      exact hle.trans_lt (above_some.mp hth)
    · exact h.beyond k st' hst' hended th hth
  · rcases hlineage k st' hst' with ⟨rfl, -,hseq, -⟩ | ⟨-,hst'⟩
    · exact h.fresh k st hst hlive q (by omega)
    · exact h.fresh k st' hst' hended q hq

/-! ## Parts failed -/

theorem AnswersTold.partFailed {s : Seal E} (s' : Seal E) {n : ℕ} {failed : Bool}
    (h : AnswersTold parts events d) (hinv : Inv d) (hlive : d.isLive l=true)
    (hs : d.seals.get ⟨l,s.seq⟩=some s) (hstage : s.stage=.flushing n failed)
    (hseq : s'.seq=s.seq) (hthrough : s'.through=s.through) (htrail : s'.trailing=s.trailing)
    (hfailed : s'.stage.hasFailed=true) (hseals : d'.seals=d.seals.insert ⟨l,s.seq⟩ s')
    (hlineages : d'.lineages=d.lineages) (hnext : d'.nextLineage=d.nextLineage) :
    AnswersTold (fun k q => parts k q ∨ k=l ∧ q=s.seq) events d' := by
  obtain ⟨st,hst,hended⟩:=isLive_iff.mp hlive
  have hlives : ∀ k,d'.isLive k=d.isLive k:=by
    intro k
    unfold isLive live
    rw [hlineages]
  have hfresh : s.seq < st.nextSeal:=by
    obtain ⟨st',hst',hlt⟩:=hinv.lives.seal_lineage _ s hs
    rw [hst] at hst'
    cases hst'
    exact hlt
  refine ⟨fun k p x hlivek hx=>?_,fun k st' hst'=>h.beyond k st' (hlineages ▸ hst'),
    fun k st' hst' hended' q hq=>?_,fun k hk=>?_,h.once⟩
  · rw [hlives] at hlivek
    cases p with
    | leading =>
      have hx : d.slotAt k .leading=some x:=by
        simpa only [slotAt,hlineages] using hx
      obtain ⟨st', -,hlead⟩:=bind_eq_some_iff.mp hx
      obtain ⟨e, -,rfl⟩:=map_eq_some_iff.mp hlead
      exact h.slot k .leading _ hlivek hx
    | recorded q =>
      simp only [slotAt,hseals,get_insert] at hx
      split_ifs at hx with hk
      · cases hk
        cases hx
        have htold:=h.slot l (.recorded s.seq) (.recorded s) hlive
          (by simp [slotAt,hs])
        obtain ⟨-,htold,hstood⟩:=htold
        have hzero : blocks l s.through events=0:=by
          have hthr : (Slot.recorded s).through=s.through:=rfl
          rw [← hthr,htold]
          rcases Bool.eq_false_or_eq_true s.stage.hasFailed with hf | hf
          · rw [if_pos hf]
          · rw [if_neg (by rw [hf]; exact Bool.false_ne_true),if_neg]
            intro hans
            rcases hstood hans with hf' | hdone
            · rw [hf] at hf'
              cases hf'
            · rw [hstage] at hdone
              cases hdone
        have hthr : (Slot.recorded s').through=s'.through:=rfl
        refine ⟨⟨fun _=>.inr ⟨rfl,hseq⟩,fun _=>hfailed⟩,?_,fun _=>.inl hfailed⟩
        rw [if_pos hfailed,hthr,hthrough,hzero]
      · have hx : d.slotAt k (.recorded q)=some x:=hx
        obtain ⟨s₀,hs₀,rfl⟩:=map_eq_some_iff.mp hx
        obtain ⟨hparts,htold⟩:=h.slot k _ _ hlivek hx
        refine ⟨hparts.trans ⟨.inl,?_⟩,htold⟩
        rintro (hpart | ⟨rfl,hq⟩)
        · exact hpart
        · have hq₀ : s₀.seq=q:=hinv.keys.seal_key _ s₀ hs₀
          exact absurd (by rw [← hq₀,hq]) hk
    | trailing q =>
      have hx : d.slotAt k (.trailing q)=some x:=by
        simp only [slotAt,hseals,get_insert] at hx
        split_ifs at hx with hk
        · simp only [slotAt,hk,hs,bind_some,← htrail]
          exact hx
        · exact hx
      obtain ⟨s₀, -,htr⟩:=bind_eq_some_iff.mp hx
      obtain ⟨e, -,rfl⟩:=map_eq_some_iff.mp htr
      exact h.slot k _ _ hlivek hx
  · rw [hlineages] at hst'
    rintro (hpart | ⟨rfl,rfl⟩)
    · exact h.fresh k st' hst' hended' q hq hpart
    · rw [hst] at hst'
      cases hst'
      omega
  · refine ⟨(h.unminted k (hnext ▸ hk)).1,fun q=>?_⟩
    rintro (hpart | ⟨rfl, -⟩)
    · exact (h.unminted k (hnext ▸ hk)).2 q hpart
    · exact absurd (hinv.clocks.lineage_clock k st hst) (not_lt.mpr (hnext ▸ hk))

/-- The call tells that a part of seal `q` of a live lineage failed, for `cause`. -/
def FailingCall (d : Durability E T I) (call : Call E T) (l : Key) (q : ℕ) (cause : FailureCause) :
    Prop :=
  d.isLive l = true ∧
    ((∃ s file fault, d.seals.get ⟨l, q⟩ = some s ∧ call = .flushed l s.through file (some fault) ∧
        cause = .commit file fault) ∨
      ∃ domain, call = .provided l q domain (some cause))

variable {call : Call E T}

theorem AnswersTold.unfailed {d₀ : Durability E T I} (h : AnswersTold parts events d)
    (hno : ∀ k q cause,¬FailingCall d₀ call k q cause) :
    AnswersTold (fun k q => parts k q ∨ ∃ cause,FailingCall d₀ call k q cause) events d :=
  h.congr (fun k q=>or_iff_left fun ⟨cause,hf⟩=>hno k q cause hf) fun _ _=>rfl

variable {id : FailureId}

theorem observe_seals {cause : FailureCause} {reach : Reach} {only : Option Key}
    (hok : observe (begin_ d) cause reach only=.ok (id,c)) :
    c.core.seals=d.seals ∧ c.core.lineages=d.lineages ∧ c.core.nextLineage=d.nextLineage := by
  obtain ⟨slot,freeTokens,window,told, -, -, -, -, -,hcore, -⟩:=observe_ok hok
  rw [hcore]
  exact ⟨rfl,rfl,rfl⟩

theorem Prepared.failing {q : ℕ} {cause : FailureCause} (hprep : Prepared d call c)
    (hf : FailingCall d call l q cause) : ∃ e,Event.failed e ∈ c.due.events ∧ e.cause=cause := by
  obtain ⟨hlive,⟨s,file,fault,hs,rfl,rfl⟩ | ⟨domain,rfl⟩⟩:=hf
  · cases hprep with
    | strayFlush hst hended | endedFlush hst hended=>exact absurd hlive (not_isLive hst hended)
    | flushFailed hst hlive hans hobserve =>
      obtain ⟨slot,freeTokens,window,told, -, -, -, -, -, -,hdue⟩:=observe_ok hobserve
      rw [hdue]
      exact ⟨_,mem_append_right _ (mem_singleton.mpr rfl),rfl⟩
  · cases hprep with
    | domainFailed hst hlive hs hstage hpart hans hobserve =>
      obtain ⟨slot,freeTokens,window,told, -, -, -, -, -, -,hdue⟩:=observe_ok hobserve
      rw [hdue]
      exact ⟨_,mem_append_right _ (mem_singleton.mpr rfl),rfl⟩

theorem Prepared.answersTold (hinv : Inv d) (hprep : Prepared d call c)
    (h : AnswersTold parts past d) :
    AnswersTold (fun k q => parts k q ∨ ∃ cause,FailingCall d call k q cause)
      (past++c.due.events) c.core := by
  refine AnswersTold.append ?_ hprep.no_mark
  by_cases hfails : ∃ l q cause,FailingCall d call l q cause
  · obtain ⟨l,q,cause,hlive,⟨s,file,fault,hs,rfl,rfl⟩ | ⟨domain,rfl⟩⟩:=hfails
    · cases hprep with
      | strayFlush hst hended | endedFlush hst hended=>exact absurd hlive (not_isLive hst hended)
      | flushFailed hst hended hans hobserve =>
        obtain ⟨s',n,failed,entry,hmem,hthrough,rfl,hstage, -, -, -, -,rfl⟩:=answer_ok hans
        obtain ⟨hseals,hlineages,hnext⟩:=observe_seals hobserve
        have hs':=hinv.keys.mem_sealsOf.mp hmem
        have hunique : ∀ q₁ s₁,d.seals.get ⟨l,q₁⟩=some s₁ → s₁.through=s'.through →
            q₁=s'.seq:=by
          intro q₁ s₁ hs₁ heq
          have hslot : d.slotAt l (.recorded q₁)=some (.recorded s₁):=by
            simp [slotAt,hs₁]
          have hslot' : d.slotAt l (.recorded s'.seq)=some (.recorded s'):=by
            simp [slotAt,hs']
          cases hinv.place_unique hst hended hslot hslot' heq
          rfl
        refine (h.partFailed (s'.answer (n-1) failed true) hinv hlive hs' hstage rfl rfl rfl
          (Bool.or_true _) hseals hlineages hnext).congr
          (fun k q'=>or_congr_right ?_) fun _ _=>rfl
        constructor
        · rintro ⟨cause, -,⟨s₁,file',fault',hs₁,hcall, -⟩ | ⟨domain',hcall⟩⟩
          · obtain ⟨rfl,heq, -⟩:=Call.flushed.inj hcall
            exact ⟨rfl,hunique q' s₁ hs₁ (heq.symm.trans hthrough.symm)⟩
          · cases hcall
        · rintro ⟨rfl,rfl⟩
          exact ⟨_,hlive,.inl ⟨s',file,fault,hs',by rw [hthrough],rfl⟩⟩
    · cases hprep with
      | @domainFailed _ _ _ st s n failed part id _ hst hended hs hstage hpart hans hobserve =>
        obtain ⟨hseals,hlineages,hnext⟩:=observe_seals hobserve
        refine (h.partFailed (s.answer n failed true) hinv hlive hs hstage rfl rfl rfl
          (Bool.or_true _) hseals hlineages hnext).congr
          (fun k q'=>or_congr_right ?_) fun _ _=>rfl
        constructor
        · rintro ⟨cause', -,⟨s',file',fault',hs',hcall, -⟩ | ⟨domain',hcall⟩⟩ <;> cases hcall
          exact ⟨rfl,rfl⟩
        · rintro ⟨rfl,rfl⟩
          exact ⟨cause,hlive,.inr ⟨domain,rfl⟩⟩
  · refine AnswersTold.unfailed ?_ fun k q cause hf=>hfails ⟨k,q,cause,hf⟩
    rcases hprep.sealsKeep hinv with hkeep | ⟨l,through,rfl⟩ |
        ⟨l,through,file,fault,rfl,hlive⟩ | ⟨l,q,domain,cause,rfl,hlive⟩
    · exact h.keep hinv hkeep
    · obtain ⟨st,hmade⟩:=hprep.sealMade hinv
      exact h.made hmade
    · cases hprep with
      | strayFlush hst hended | endedFlush hst hended=>exact absurd hlive (not_isLive hst hended)
      | flushFailed hst hended hans hobserve =>
        obtain ⟨s,n,failed,entry,hmem,rfl,rfl, -⟩:=answer_ok hans
        exact absurd ⟨l,s.seq,_,hlive,.inl ⟨s,file,fault,hinv.keys.mem_sealsOf.mp hmem,
          rfl,rfl⟩⟩ hfails
    · exact absurd ⟨l,q,cause,hlive,.inr ⟨domain,rfl⟩⟩ hfails

def PartFails (t : Tick E T I) (l : Key) (q : ℕ) : Prop :=
  ∃ e, Event.failed e ∈ t.events ∧ FailingCall t.before t.call l q e.cause

theorem Durability.new_slotAt (instance_ : InstanceId) (clock : ℕ → I) (capacity : Capacity)
    (served : List DomainId) (observed : Bool) (p : Place) (x : Slot E) :
    (new (T := T) instance_ clock capacity served observed).slotAt l p ≠ some x := by
  intro hx
  cases p with
  | leading =>
    obtain ⟨st,hst,hlead⟩:=bind_eq_some_iff.mp hx
    simp only [new,get_insert] at hst
    split_ifs at hst
    · cases hst
      cases hlead
    · cases hst
  | recorded q | trailing q=>cases hx

theorem Run.answersTold (run : Run ticks d) :
    AnswersTold (fun l q => ∃ t ∈ ticks,PartFails t l q) (history ticks) d := by
  induction run using Run.steps with
  | new hinit =>
    cases hinit
    refine ⟨fun l p x _ hx=>new_slotAt _ _ _ _ _ p x hx |>.elim,fun _ _ _ _ _ _=>rfl,
      fun _ _ _ _ q _ ⟨t,ht,_⟩=>(by cases ht),fun _ _=>⟨fun _=>rfl,
      fun q ⟨t,ht,_⟩=>(by cases ht)⟩,fun _ _=>Nat.zero_le _⟩
  | @step ticks d call change run hinv hpromised hcall ih =>
    rw [history_cons]
    have hcons : ∀ l q,(∃ t ∈ (⟨d,⟨call,change⟩,change.core⟩ : Tick E T I)::ticks,PartFails t l q) ↔
        (∃ t ∈ ticks,PartFails t l q) ∨ PartFails ⟨d,⟨call,change⟩,change.core⟩ l q:=by
      intro l q
      rw [exists_mem_cons_iff,or_comm]
    rcases call_calls hinv hcall with ⟨d',rfl,hquiet⟩ | ⟨c₁,hprep,hadvance⟩
    · refine (ih.keep hinv hquiet.sealsKeep).congr (fun l q=>(hcons l q).trans ?_) fun l th=>?_
      · exact or_iff_left fun ⟨e,he,_⟩=>(by cases he)
      · exact congrArg (blocks l th) (append_nil _)
    · have hinv₁:=hprep.inv hinv hpromised
      refine (advance_answersTold hinv₁ (hprep.answersTold hinv ih) hadvance).congr
        (fun l q=>(hcons l q).trans (or_congr_right ?_)) fun _ _=>rfl
      constructor
      · rintro ⟨e, -,hf⟩
        exact ⟨e.cause,hf⟩
      · rintro ⟨cause,hf⟩
        obtain ⟨e,he,rfl⟩:=hprep.failing hf
        exact ⟨e,advance_events_subset hinv₁ hadvance _ he,hf⟩

/-! ## What a Blocked entry names -/

/-- Failure `id` is unresolved, not released in `l`, and holds an epoch of `l` above the mark and at
or below `through`. -/
def HoldsBack (d : Durability E T I) (l : Key) (through : E) (id : FailureId) : Prop :=
  ∃ f ∈ d.failures, f.id = id ∧ f.standing ≠ .resolved ∧ d.pendingOn f l = true ∧
    ∃ st, d.lineages.get l = some st ∧ ∃ x ∈ d.suspects f, x.lineage = l ∧
      above st.durableThrough x.epoch = true ∧ x.epoch ≤ through

/-- The core passed through `c` while it acted on the call of `t`. -/
def Within (t : Tick E T I) (c : Change E T I) : Prop :=
  ∃ c₁, Prepared t.before t.call c₁ ∧ ReflTransGen AdvanceStep c₁ c ∧
    ReflTransGen AdvanceStep c t.change

/-- The core stood at `c` while it acted on the call of `t`, and its next step appended `entry`. -/
def Appends (t : Tick E T I) (c : Change E T I) (entry : Event E I) : Prop :=
  ∃ c₁ c₂, Prepared t.before t.call c₁ ∧ ReflTransGen AdvanceStep c₁ c ∧ AdvanceStep c c₂ ∧
    c₂.due.events = c.due.events ++ [entry] ∧ ReflTransGen AdvanceStep c₂ t.change

theorem blocking_holdsBack (h : d.blocking l through=some id) : HoldsBack d l through id := by
  unfold blocking at h
  split at h
  · cases h
  · next st hst =>
    split_ifs at h
    obtain ⟨f,hfind,rfl⟩:=map_eq_some_iff.mp h
    have hholds:=List.find?_some hfind
    unfold holdsWithin at hholds
    simp only [Bool.and_eq_true,List.any_eq_true,decide_eq_true_eq] at hholds
    obtain ⟨hpending,x,hx,hlineage,habove,hle⟩:=hholds
    refine ⟨f,List.mem_of_find?_eq_some hfind,rfl,fun hresolved=>?_,hpending,st,hst,x,hx,hlineage,
      habove,hle⟩
    unfold pendingOn at hpending
    rw [hresolved] at hpending
    cases hpending

theorem AdvanceStep.blocked_mem (hstep : AdvanceStep c c')
    (hmem : Event.blocked l through id ∈ c'.due.events) :
    Event.blocked l through id ∈ c.due.events ∨
      c'.due.events=c.due.events++[.blocked l through id] ∧ HoldsBack c.core l through id := by
  cases hstep with
  | progress k step =>
    left
    cases step with
    | start starts hok =>
      obtain ⟨n,sealDomains, -, -,rfl⟩:=startSeal_ok hok
      exact hmem
    | empties | seals=>exact hmem
  | healed =>
    left
    rcases mem_append.mp hmem with hmem | hmem
    · exact hmem
    · obtain ⟨f, -,hf⟩:=List.mem_map.mp hmem
      cases hf
  | mark k step =>
    cases step with
    | pass passes free hok =>
      left
      obtain ⟨window,d₂,d₃, -, -, -,rfl⟩:=passSeal_ok hok
      rcases mem_append.mp hmem with hmem | hmem
      · exact hmem
      · cases mem_singleton.mp hmem
    | answer live due blocked =>
      rcases mem_append.mp hmem with hmem | hmem
      · exact .inl hmem
      · cases mem_singleton.mp hmem
        exact .inr ⟨rfl,blocking_holdsBack blocked⟩

theorem steps_blocked (hsteps : ReflTransGen AdvanceStep c c')
    (hmem : Event.blocked l through id ∈ c'.due.events) :
    Event.blocked l through id ∈ c.due.events ∨ ∃ c₂ c₃,ReflTransGen AdvanceStep c c₂ ∧
      AdvanceStep c₂ c₃ ∧ c₃.due.events=c₂.due.events++[.blocked l through id] ∧
      ReflTransGen AdvanceStep c₃ c' ∧ HoldsBack c₂.core l through id := by
  induction hsteps with
  | refl=>exact .inl hmem
  | tail hsteps hstep ih =>
    rcases hstep.blocked_mem hmem with hmem | ⟨happends,hholds⟩
    · rcases ih hmem with hmem | ⟨c₂,c₃,hto,hat,happends,hfrom,hholds⟩
      · exact .inl hmem
      · exact .inr ⟨c₂,c₃,hto,hat,happends,hfrom.tail hstep,hholds⟩
    · exact .inr ⟨_,_,hsteps,hstep,happends,.refl,hholds⟩

theorem Run.blocked_held (run : Run ticks d) : ∀ t ∈ ticks,∀ l through id,
    Event.blocked l through id ∈ t.events →
      ∃ c,Appends t c (.blocked l through id) ∧ HoldsBack c.core l through id := by
  induction run using Run.steps with
  | new=>exact fun t ht=>(by cases ht)
  | @step ticks d call change run hinv hpromised hcall ih =>
    intro t ht l through id hmem
    rcases mem_cons.mp ht with rfl | ht
    · rcases call_calls hinv hcall with ⟨d',rfl,hquiet⟩ | ⟨c₁,hprep,hadvance⟩
      · cases hmem
      · have hsteps:=(advance_steps (hprep.inv hinv hpromised) hadvance).1
        rcases steps_blocked hsteps hmem with hmem | ⟨c₂,c₃,hto,hat,happends,hfrom,hholds⟩
        · exact (by cases hprep.no_mark _ hmem)
        · exact ⟨c₂,⟨c₁,c₃,hprep,hto,hat,happends,hfrom⟩,hholds⟩
    · exact ih t ht l through id hmem

theorem blocking_mono {lower through : E} (hle : lower ≤ through)
    (h : (d.blocking l lower).isSome=true) : (d.blocking l through).isSome=true := by
  unfold blocking at h ⊢
  split at h
  · cases h
  · next st hst =>
    by_cases habove : above st.durableThrough lower=true
    swap
    · rw [if_neg habove] at h
      cases h
    rw [if_pos habove] at h
    have hup : above st.durableThrough through=true :=
      above_iff.mpr fun m hm=>(above_iff.mp habove m hm).trans_le hle
    simp only [if_pos hup,isSome_map,List.find?_isSome] at h ⊢
    obtain ⟨f,hf,hholds⟩:=h
    refine ⟨f,hf,?_⟩
    unfold holdsWithin at hholds ⊢
    simp only [Bool.and_eq_true,List.any_eq_true,decide_eq_true_eq] at hholds ⊢
    obtain ⟨hpending,x,hx,hlineage,hmark,hlower⟩:=hholds
    exact ⟨hpending,x,hx,hlineage,hmark,hlower.trans hle⟩

theorem Stands.finished_answered {x : Slot E} {front rest : List (Slot E)} (h : Stands d l)
    (hinv : Inv d) (hst : d.lineages.get l=some st) (hlive : st.ended=false)
    (hqueue : slots st.leading (sealsOf d.seals l)=front++x::rest)
    (hfront : ∀ y ∈ front,y.finished=true) (hfinished : x.finished=true) : x.answered=true := by
  have hmem : x ∈ slots st.leading (sealsOf d.seals l):=by
    rw [hqueue]
    exact mem_append_right _ mem_cons_self
  obtain ⟨place, -,hx⟩:=mem_filterMap.mp (slots_eq_filterMap hinv.keys hst ▸ hmem)
  by_contra hans
  rw [Bool.not_eq_true] at hans
  have hdue : d.answerable l place=some x.through:=by
    cases place with
    | leading =>
      obtain ⟨st',hst',hlead⟩:=bind_eq_some_iff.mp hx
      obtain ⟨e,he,rfl⟩:=map_eq_some_iff.mp hlead
      have hfinished : e.finished=true:=hfinished
      have hans : e.answered=false:=hans
      simp [answerable,hst',he,Empty.answerable,hfinished,hans,Slot.through]
    | recorded q =>
      obtain ⟨s,hs,rfl⟩:=map_eq_some_iff.mp hx
      have hfinished : s.stage.isDone=true:=hfinished
      have hans : s.answered=false:=hans
      have hstage : s.stage=.done true:=by
        cases hstage : s.stage with
        | waiting | flushing n failed=>simp [hstage,SealStage.isDone] at hfinished
        | done ok =>
          cases ok with
          | true=>rfl
          | false =>
            have:=hinv.parts.failed_answered _ s hs (by rw [hstage]; rfl)
            rw [hans] at this
            cases this
      simp [answerable,hst,hs,hans,hstage,Slot.through]
    | trailing q =>
      obtain ⟨s,hs,htrail⟩:=bind_eq_some_iff.mp hx
      obtain ⟨e,he,rfl⟩:=map_eq_some_iff.mp htrail
      have hfinished : e.finished=true:=hfinished
      have hans : e.answered=false:=hans
      simp [answerable,hst,hs,he,Empty.answerable,hfinished,hans,Slot.through]
  have hfree:=h.answered place x.through hdue
  -- The first seal is finished too, and what holds the mark below it holds it below `x`.
  have hfirst : ∃ y,(slots st.leading (sealsOf d.seals l)).head? = some y ∧ y.finished=true ∧
      y.through ≤ x.through:=by
    have hordered:=(hinv.marks l st hst hlive).queue.ordered
    rw [hqueue] at hordered ⊢
    cases front with
    | nil=>exact ⟨x,rfl,hfinished,le_rfl⟩
    | cons y ys =>
      have hlt:=(pairwise_cons.mp hordered).1 x (by simp)
      exact ⟨y,rfl,hfront y mem_cons_self,hlt.1.le⟩
  obtain ⟨y,hhead,hdone,hle⟩:=hfirst
  have hnext : ∃ recorded,d.nextFinished l st=some (y.through,recorded):=by
    unfold nextFinished
    cases hlead : st.leading with
    | some e =>
      rw [hlead,slots_leading] at hhead
      cases hhead
      exact ⟨none,if_pos hdone⟩
    | none =>
      cases hseals : sealsOf d.seals l with
      | nil =>
        rw [hlead,hseals] at hhead
        cases hhead
      | cons s rest =>
        rw [hlead,hseals] at hhead
        cases hhead
        exact ⟨some s,if_pos hdone⟩
  obtain ⟨recorded,hnext⟩:=hnext
  have hsome:=blocking_mono hle (h.held st y.through recorded hst hnext)
  rw [hfree] at hsome
  cases hsome

def PartFailed (ticks : List (Tick E T I)) (l : Key) : Slot E → Prop
  | .empty _ => False
  | .recorded s => ∃ t ∈ ticks, PartFails t l s.seq

/-- A finished seal behind finished seals only has been answered once: by the failure of a part of
its own, or by one `Blocked` entry. The failure an entry names held the seal in the state the entry
was appended from. -/
theorem every_request_answered (run : Run ticks d) :
    (∀ l st front x rest, d.lineages.get l = some st → st.ended = false →
      slots st.leading (sealsOf d.seals l) = front ++ x :: rest →
      (∀ y ∈ front, y.finished = true) → x.finished = true →
      x.answered = true ∧
        (PartFailed ticks l x ∧ blocks l x.through (history ticks) = 0 ∨
          ¬PartFailed ticks l x ∧ blocks l x.through (history ticks) = 1)) ∧
      (∀ l through, blocks l through (history ticks) ≤ 1) ∧
      ∀ t ∈ ticks, ∀ l through id, Event.blocked l through id ∈ t.events →
        ∃ c, Appends t c (.blocked l through id) ∧ HoldsBack c.core l through id := by
  obtain ⟨hinv,hq⟩:=run.keeps
  have htold:=run.answersTold
  refine ⟨fun l st front x rest hst hlive hqueue hfront hfinished=>?_,htold.once,
    run.blocked_held⟩
  have hisLive:=isLive_iff.mpr ⟨st,hst,hlive⟩
  have hans:=(hq.stands l hisLive).finished_answered hinv hst hlive hqueue hfront hfinished
  have hmem : x ∈ slots st.leading (sealsOf d.seals l):=by
    rw [hqueue]
    exact mem_append_right _ mem_cons_self
  obtain ⟨place, -,hx⟩:=mem_filterMap.mp (slots_eq_filterMap hinv.keys hst ▸ hmem)
  have hslot:=htold.slot l place x hisLive hx
  refine ⟨hans,?_⟩
  cases x with
  | empty e =>
    have hans : e.answered=true:=hans
    refine .inr ⟨id,?_⟩
    simpa [SlotTold,hans] using hslot
  | recorded s =>
    have hans : s.answered=true:=hans
    obtain ⟨hparts,hblocks, -⟩:=hslot
    rw [hans] at hblocks
    rcases Bool.eq_false_or_eq_true s.stage.hasFailed with hf | hf
    · rw [hf] at hblocks hparts
      exact .inl ⟨hparts.mp rfl,hblocks⟩
    · rw [hf] at hblocks hparts
      exact .inr ⟨fun hpart=>(by cases hparts.mpr hpart),hblocks⟩

/-- A run with a seal whose flush failed, and a later one answered by a `Blocked` entry. -/
theorem every_request_answered_behind_failure :
    ∃ (ticks : List (Tick ℕ Unit ℕ)) (d : Durability ℕ Unit ℕ), Run ticks d ∧
      (blocks 0 2 (history ticks) = 0 ∧ blocks 0 3 (history ticks) = 1 ∧
        (d.lineages.get 0).map (fun st => (slots st.leading (sealsOf d.seals 0)).map fun x =>
          (x.through, x.finished)) = some [(2, true), (3, true)]) ∧
      (∀ l st front x rest, d.lineages.get l = some st → st.ended = false →
        slots st.leading (sealsOf d.seals l) = front ++ x :: rest →
        (∀ y ∈ front, y.finished = true) → x.finished = true →
        x.answered = true ∧
          (PartFailed ticks l x ∧ blocks l x.through (history ticks) = 0 ∨
            ¬PartFailed ticks l x ∧ blocks l x.through (history ticks) = 1)) ∧
      (∀ l through, blocks l through (history ticks) ≤ 1) ∧
      ∀ t ∈ ticks, ∀ l through id, Event.blocked l through id ∈ t.events →
        ∃ c, Appends t c (.blocked l through id) ∧ HoldsBack c.core l through id := by
  obtain ⟨ticks,d,run,hcheck⟩:=(smallCore_run List.Pairwise.nil).play make
    makes_of_make (flushedThenFailed++[.admit_ 2,.pushed (plainWrite 2 0 3 0),.completed 2 .succeeded,
      .popped 2,.sealThrough 0 3,.flushed 0 3 0 none])
    (fun ticks d=>decide (blocks 0 2 (history ticks)=0 ∧ blocks 0 3 (history ticks)=1 ∧
        (d.lineages.get 0).map (fun st=>(slots st.leading (sealsOf d.seals 0)).map fun x =>
          (x.through,x.finished))=some [(2,true),(3,true)])) (by decide +kernel)
  exact ⟨ticks,d,run,of_decide_eq_true hcheck,every_request_answered run⟩

end WindowsThreadpoolSys.DurableIoring
