import WindowsThreadpoolSys.DurableIoring.Proof.Start

/-! A seal finishes once its parts have all answered, and an empty one once what is at or below it is out
of flight and every seal before it has started. Finishing and answering change seals where they
stand. -/
namespace WindowsThreadpoolSys.DurableIoring
open Library Durability List Table EmptyStays SealStage

variable {E T I : Type} [LinearOrder E] {d : Durability E T I} {l : Key}

/-! ## Seals changed in place -/

variable {f : SealKey → Seal E → Seal E}

theorem Inv.requeue (h : Inv d) {lineages : Table Key (LineageState E)}
    (hrelives : Relives d.lineages lineages)
    (hdurable : ∀ l st st',d.lineages.get l=some st → lineages.get l=some st' →
      st'.durableThrough=st.durableThrough)
    (hmarks : MarksOk lineages (d.seals.map f) d.writes d.held d.sealsMade)
    (hstays : ∀ k s,d.seals.get k=some s → SealStays s (f k s))
    (hparts : PartsOk d.lineages (d.seals.map f) d.spans d.sealDomains d.writes d.lists d.served)
    (hended : ∀ k s st,d.seals.get k=some s → d.lineages.get k.lineage=some st →
      st.ended=true → f k s=s) :
    Inv { d with lineages := lineages,seals := d.seals.map f } := { h with
  keys:=h.keys.reseal hstays
  clocks:=hrelives.clocks h.clocks
  lives:=hrelives.lives (h.lives.reseal hstays)
  marks:=hmarks
  parts:=hrelives.parts hparts
  files:=hrelives.files h.files
  suspects:=hrelives.suspects h.suspects
  cover:=hrelives.cover h.cover
  ends:=hrelives.ends hdurable (h.ends.reseal hended)
  window:=h.window.reseal hstays }

theorem MarksOk.stays {lineages lineages' : Table Key (LineageState E)} {seals : Seals E}
    {writes : Table OpId (Write E T)} {held : Table OpId (HeldOp E T)} {sealsMade : ℕ}
    (h : MarksOk lineages seals writes held sealsMade)
    (hlineages : ∀ l st',lineages'.get l=some st' → st'.ended=false → ∃ st,
      lineages.get l=some st ∧ st.ended=false ∧ st'.durableThrough=st.durableThrough ∧
      st'.sealedThrough=st.sealedThrough ∧ Option.Rel EmptyStays st.leading st'.leading)
    (hseals : ∀ k s,seals.get k=some s → SealMoves s (f k s) ∧
      Option.Rel EmptyStays s.trailing (f k s).trailing ∧
      ((f k s).stage=.waiting ↔ s.stage=.waiting)) :
    MarksOk lineages' (seals.map f) writes held sealsMade := by
  intro l st' hst' hlive'
  obtain ⟨st,hst,hlive,hdurable,hsealed,hleading⟩:=hlineages l st' hst' hlive'
  exact (h l st hst hlive).stays hdurable hsealed hleading
    (sealsOf_map fun k s hs _=>hseals k s hs)

structure LineageStays (st st' : LineageState E) : Prop where
  ended : st'.ended = st.ended
  nextSeal : st'.nextSeal = st.nextSeal
  durable : st'.durableThrough = st.durableThrough
  sealed : st'.sealedThrough = st.sealedThrough

theorem Inv.modifyLineage (h : Inv d) (l : Key) (g : LineageState E → LineageState E)
    (hg : ∀ st,LineageStays st (g st) ∧ Option.Rel EmptyStays st.leading (g st).leading) :
    Inv { d with lineages := d.lineages.modify l g } := by
  have hback : ∀ l' st',(d.lineages.modify l g).get l'=some st' → ∃ st,
      d.lineages.get l'=some st ∧ LineageStays st st' ∧
      Option.Rel EmptyStays st.leading st'.leading:=by
    intro l' st' hst'
    rw [get_modify] at hst'
    split_ifs at hst'
    · obtain ⟨st,hst,rfl⟩:=Option.map_eq_some_iff.mp hst'
      exact ⟨st,hst,hg st⟩
    · exact ⟨st',hst',⟨rfl,rfl,rfl,rfl⟩,option_refl _⟩
  have hmap : d.seals.map (fun _ s=>s)=d.seals:=Table.ext_get fun k=>by
    rw [get_map]
    simp
  have hmarks : MarksOk (d.lineages.modify l g) (d.seals.map fun _ s=>s) d.writes d.held
      d.sealsMade:=by
    refine h.marks.stays (fun l' st' hst' hlive'=>?_)
      fun _ s _=>⟨.refl s,option_refl _,Iff.rfl⟩
    obtain ⟨st,hst,hstays,hleading⟩:=hback l' st' hst'
    exact ⟨st,hst,hstays.ended.symm.trans hlive',hstays.durable,hstays.sealed,hleading⟩
  have hstep:=h.requeue (Relives.modify fun st=>⟨(hg st).1.ended,(hg st).1.nextSeal⟩)
    (fun l' st st' hst hst'=>by
      obtain ⟨st₀,hst₀,hstays, -⟩:=hback l' st' hst'
      rw [hst] at hst₀
      cases hst₀
      exact hstays.durable)
    hmarks (fun _ _ _=>⟨rfl,rfl,rfl,id⟩) (by rw [hmap]; exact h.parts) (fun _ _ _ _ _ _=>rfl)
  rw [hmap] at hstep
  exact hstep

theorem Inv.mapSeals (h : Inv d) (hmoves : ∀ k s,d.seals.get k=some s → SealMoves s (f k s) ∧
      Option.Rel EmptyStays s.trailing (f k s).trailing ∧
      ((f k s).stage=.waiting ↔ s.stage=.waiting))
    (hpin : ∀ k s,d.seals.get k=some s → (f k s).pin=s.pin)
    (hparts : PartsOk d.lineages (d.seals.map f) d.spans d.sealDomains d.writes d.lists d.served)
    (hended : ∀ k s st,d.seals.get k=some s → d.lineages.get k.lineage=some st →
      st.ended=true → f k s=s) :
    Inv { d with seals := d.seals.map f } :=
  h.requeue (Relives.refl _)
    (fun l st st' hst hst'=>by
      rw [hst] at hst'
      cases hst'
      rfl)
    (h.marks.stays (fun l st hst hlive=>⟨st,hst,hlive,rfl,rfl,option_refl _⟩) hmoves)
    (fun k s hs=>⟨(hmoves k s hs).1.seq,(hmoves k s hs).1.through,hpin k s hs,
      (hmoves k s hs).2.2.mp⟩)
    hparts hended

/-! ## Heals released -/

theorem Inv.releaseHeals (h : Inv d) (l : Key) (made : ℕ) (through : E) :
    Inv (d.releaseHeals l made through) :=
  h.modifyLineage l _ fun _=>⟨⟨rfl,rfl,rfl,rfl⟩,option_refl _⟩

/-! ## Seals answered -/

omit [LinearOrder E] in
theorem EmptyStays.answer (o : Option (Empty E)) :
    Option.Rel EmptyStays o (o.map fun e => { e with answered := true }) := by
  cases o with
  | none=>exact .none
  | some e=>exact .some ⟨⟨rfl,rfl⟩,id⟩

theorem Inv.answerAt {st : LineageState E} (h : Inv d) (hst : d.lineages.get l=some st)
    (hlive : st.ended=false) (place : Place) : Inv (d.answerAt l place) := by
  have hother : ∀ {k : SealKey} {st'},d.lineages.get k.lineage=some st' → st'.ended=true →
      k.lineage≠l:=by
    intro k st' hst' hended
    exact (ne_of_ended hst' hended hst hlive).symm
  cases place with
  | leading=>exact h.modifyLineage l _ fun _=>⟨⟨rfl,rfl,rfl,rfl⟩,answer _⟩
  | recorded q =>
    unfold Durability.answerAt
    simp only
    rw [modify_eq_map]
    refine h.mapSeals (fun k s _=>?_) (fun k s _=>?_) (h.parts.reseal fun k s _=>?_)
      fun k s st' _ hst' hended=>?_
    · split_ifs
      · exact ⟨⟨rfl,rfl,rfl⟩,option_refl _,Iff.rfl⟩
      · exact ⟨.refl s,option_refl _,Iff.rfl⟩
    · split_ifs <;> rfl
    · split_ifs
      · exact ⟨rfl,fun _=>rfl⟩
      · exact ⟨rfl,id⟩
    · rw [if_neg]
      rintro rfl
      exact hother hst' hended rfl
  | trailing q =>
    unfold Durability.answerAt
    simp only
    rw [modify_eq_map]
    refine h.mapSeals (fun k s _=>?_) (fun k s _=>?_) (h.parts.reseal fun k s _=>?_)
      fun k s st' _ hst' hended=>?_
    · split_ifs
      · exact ⟨⟨rfl,rfl,rfl⟩,answer _,Iff.rfl⟩
      · exact ⟨.refl s,option_refl _,Iff.rfl⟩
    · split_ifs <;> rfl
    · split_ifs
      · exact ⟨rfl,id⟩
      · exact ⟨rfl,id⟩
    · rw [if_neg]
      rintro rfl
      exact hother hst' hended rfl

/-! ## Seals finished -/

theorem SealStage.finish_waiting (stage : SealStage) : stage.finish=.waiting ↔ stage=.waiting := by
  cases stage <;> simp [finish]

variable {s : Seal E}

theorem Durability.hasAnswered_iff : d.hasAnswered l s=true ↔
    ∃ failed,s.stage=.flushing 0 failed ∧ ∀ domain ∈ d.served,∀ part,
      d.sealDomains.get ⟨l,s.seq,domain⟩=some part → part.answered=true := by
  unfold hasAnswered
  cases hstage : s.stage with
  | waiting | done succeeded=>simp
  | flushing n failed =>
    simp only [Bool.and_eq_true,decide_eq_true_eq,Bool.not_eq_eq_eq_not,Bool.not_true,
      any_eq_false,Option.any_eq_true,not_exists,not_and,Bool.not_eq_false,
      SealStage.flushing.injEq]
    constructor
    · rintro ⟨rfl,hparts⟩
      exact ⟨failed,⟨rfl,rfl⟩,hparts⟩
    · rintro ⟨_,⟨rfl, -⟩,hparts⟩
      exact ⟨rfl,hparts⟩

def Durability.finishSeal (d : Durability E T I) (l : Key) (k : SealKey) (s : Seal E) : Seal E :=
  if k.lineage = l ∧ d.hasAnswered l s = true then { s with stage := s.stage.finish } else s

/-- The core with every seal of `l` whose parts have all answered done. -/
def Durability.done (d : Durability E T I) (l : Key) : Durability E T I :=
  { d with seals := d.seals.map (d.finishSeal l) }

theorem Durability.finishSeals_cases (d : Durability E T I) (l : Key) : d.finishSeals l=d.done l ∨
      ∃ s ∈ sealsOf d.seals l,d.hasAnswered l s=true ∧ s.stage.hasFailed=false ∧
        d.finishSeals l=(d.done l).releaseHeals l s.made s.through := by
  unfold finishSeals
  simp only
  split
  · exact .inl rfl
  · next s hs =>
    obtain ⟨hmem,hgood⟩:=mem_filter.mp (List.mem_of_getLast? hs)
    obtain ⟨hmem,hdone⟩:=mem_filter.mp hmem
    exact .inr ⟨s,hmem,hdone,by simpa using hgood,rfl⟩

theorem PartsOk.finishSeals (h : TablesOk d) (l : Key) :
    PartsOk d.lineages (d.seals.map (d.finishSeal l)) d.spans d.sealDomains d.writes d.lists
      d.served := by
  have hp:=h.parts
  -- a seal as it was, or done with every part answered
  have hback : ∀ k s',(d.seals.map (d.finishSeal l)).get k=some s' → ∃ s,
      d.seals.get k=some s ∧ (s'=s ∨ k.lineage=l ∧ d.hasAnswered l s=true ∧
        s'={ s with stage:=s.stage.finish }):=by
    intro k s' hs'
    rw [get_map] at hs'
    obtain ⟨s,hs,rfl⟩:=Option.map_eq_some_iff.mp hs'
    unfold finishSeal
    split_ifs with hdone
    · exact ⟨s,hs,.inr ⟨hdone.1,hdone.2,rfl⟩⟩
    · exact ⟨s,hs,.inl rfl⟩
  refine { hp with
    flushing:=fun k s' n failed hs' hstage=>?_
    done_file:=fun k s' ok hs' hstage file e he hflushed=>?_
    done_domain:=fun k s' ok hs' hstage domain part hpart=>?_
    named_seal:=fun op w q hw hstage=>?_
    failed_answered:=fun k s' hs' hfailed=>?_ }
  · obtain ⟨s,hs,rfl | ⟨-,hdone,rfl⟩⟩:=hback k s' hs'
    · exact hp.flushing k s' n failed hs hstage
    · obtain ⟨failed',hstage', -⟩:=hasAnswered_iff.mp hdone
      simp [hstage',finish] at hstage
  · obtain ⟨s,hs,rfl | ⟨hl,hdone,rfl⟩⟩:=hback k s' hs'
    · exact hp.done_file k s' ok hs hstage file e he hflushed
    · obtain ⟨failed',hstage', -⟩:=hasAnswered_iff.mp hdone
      have hcount:=hp.flushing k s 0 failed' hs hstage'
      have hout:=Table.count_eq_zero.mp hcount.symm _ e he
      simpa [isOut,hflushed] using hout
  · obtain ⟨s,hs,rfl | ⟨hl,hdone,rfl⟩⟩:=hback k s' hs'
    · exact hp.done_domain k s' ok hs hstage domain part hpart
    · obtain ⟨failed', -,hparts⟩:=hasAnswered_iff.mp hdone
      rw [← hl,h.keys.seal_key k s hs] at hparts
      exact hparts domain (h.lives.domain_seal _ part hpart).1 part hpart
  · obtain ⟨s,hs,hstarted⟩:=hp.named_seal op w q hw hstage
    refine ⟨d.finishSeal l ⟨w.lineage,q⟩ s,by rw [get_map,hs]; rfl,fun hwaits=>hstarted ?_⟩
    unfold finishSeal at hwaits
    split_ifs at hwaits
    · exact (finish_waiting _).mp hwaits
    · exact hwaits
  · obtain ⟨s,hs,rfl | ⟨-,hdone,rfl⟩⟩:=hback k s' hs'
    · exact hp.failed_answered k s' hs hfailed
    · obtain ⟨failed',hstage', -⟩:=hasAnswered_iff.mp hdone
      refine hp.failed_answered k s hs ?_
      simpa [hstage',finish,hasFailed] using hfailed

theorem Inv.finishSeals {st : LineageState E} (h : Inv d) (hst : d.lineages.get l=some st)
    (hlive : st.ended=false) : Inv (d.finishSeals l) := by
  have hfinished : Inv (d.done l):=by
    refine h.mapSeals (fun k s _=>?_) (fun k s _=>?_) (PartsOk.finishSeals h.toTablesOk l)
      fun k s st' _ hst' hended=>?_
    · unfold finishSeal
      split_ifs
      · exact ⟨⟨rfl,rfl,rfl⟩,option_refl _,finish_waiting _⟩
      · exact ⟨.refl s,option_refl _,Iff.rfl⟩
    · unfold finishSeal
      split_ifs <;> rfl
    · unfold finishSeal
      rw [if_neg]
      rintro ⟨rfl, -⟩
      exact ne_of_ended hst' hended hst hlive rfl
  rcases d.finishSeals_cases l with heq | ⟨s, -, -, -,heq⟩
  · exact heq ▸ hfinished
  · exact heq ▸ hfinished.releaseHeals l _ _

/-! ## Empty seals finished -/

section Empties

variable {st : LineageState E}

def Durability.started (d : Durability E T I) (l : Key) : List (Seal E) :=
  (sealsOf d.seals l).takeWhile fun s => !s.stage.isWaiting

/-- The seal, the empty seal trailing it finished if the seal is before the first still waiting. -/
def Durability.finishTrailing (d : Durability E T I) (l : Key) (k : SealKey) (s : Seal E) : Seal E :=
  if k.lineage = l ∧ k.seq ∈ (d.started l).map Seal.seq then
    { s with trailing := s.trailing.map (finishEmpty (d.oldestOutstanding l)) }
  else s

def Durability.emptied (d : Durability E T I) (l : Key) (st : LineageState E) : Durability E T I :=
  { d with
    lineages := d.lineages.insert l { st with
      leading := st.leading.map (finishEmpty (d.oldestOutstanding l)) }
    seals := d.seals.map (d.finishTrailing l) }

theorem Durability.finishEmpties_cases (hst : d.lineages.get l=some st) :
    d.finishEmpties l=d.emptied l st ∨
      ∃ e,(st.leading=some e ∨ ∃ s ∈ d.started l,s.trailing=some e) ∧
        finishesEmpty (d.oldestOutstanding l) e=true ∧
        d.finishEmpties l=(d.emptied l st).releaseHeals l e.made e.through := by
  unfold finishEmpties
  simp only [hst]
  split
  · exact .inl rfl
  · next e he =>
    obtain ⟨hmem,hfinishes⟩:=mem_filter.mp (List.mem_of_getLast? he)
    refine .inr ⟨e,?_,hfinishes,rfl⟩
    simpa [started] using hmem

theorem SealStage.isWaiting_iff {stage : SealStage} : stage.isWaiting=true ↔ stage=.waiting := by
  cases stage <;> simp [isWaiting]

theorem finishEmpty_moves (oldest : Option E) (e : Empty E) :
    EmptyMoves e (finishEmpty oldest e) := by
  unfold finishEmpty
  split_ifs <;> exact ⟨rfl,rfl⟩

theorem mem_started (hkeys : KeysOk d.writes d.held d.seals d.kept) {k : SealKey}
    (hs : d.seals.get k=some s) (hl : k.lineage=l) (hmem : k.seq ∈ (d.started l).map Seal.seq) :
    s ∈ d.started l := by
  obtain ⟨s',hs',hseq⟩:=mem_map.mp hmem
  have hget:=hkeys.mem_sealsOf.mp ((takeWhile_sublist _).mem hs')
  rw [hseq,← hl,hs] at hget
  cases hget
  exact hs'

theorem empty_lt_waiting {durable sealed : Option E} {leading : Option (Empty E)}
    (hq : QueueOk (slots leading (sealsOf d.seals l)) durable sealed) {e : Empty E}
    (he : leading=some e ∨ ∃ s' ∈ d.started l,s'.trailing=some e) (hs : s ∈ sealsOf d.seals l)
    (hwaits : s.stage=.waiting) : e.through < s.through := by
  have hsplit:=takeWhile_append_dropWhile (p:=fun s : Seal E=>!s.stage.isWaiting)
    (l:=sealsOf d.seals l)
  have hslots : slots leading (sealsOf d.seals l)=slots leading (d.started l) ++
      slots none ((sealsOf d.seals l).dropWhile fun s=>!s.stage.isWaiting):=by
    have happend : ∀ a b : List (Seal E),slots leading (a++b)=slots leading a++slots none b :=
      fun a b=>by simp [slots]
    rw [started,← happend,hsplit]
  have hordered:=hq.ordered
  rw [hslots,pairwise_append] at hordered
  have hrest : s ∈ (sealsOf d.seals l).dropWhile fun s=>!s.stage.isWaiting:=by
    rw [← hsplit] at hs
    refine (mem_append.mp hs).resolve_left fun hbefore=>?_
    have hnot:=all_eq_true.mp all_takeWhile s hbefore
    simp [hwaits,isWaiting] at hnot
  exact (hordered.2.2 (.empty e) ((empty_mem_slots _ _).mpr he) (.recorded s)
    ((recorded_mem_slots _ _).mpr hrest)).1

theorem LineageOk.finishEmpties (h : TablesOk d) (hst : d.lineages.get l=some st)
    (hlive : st.ended=false) : LineageOk l { st with
        leading := st.leading.map (finishEmpty (d.oldestOutstanding l)) }
      (d.seals.map (d.finishTrailing l)) d.writes d.held d.sealsMade := by
  have hl:=h.marks l st hst hlive
  refine hl.moves rfl rfl (EmptyMoves.option_map (finishEmpty_moves _) _)
    (sealsOf_map fun k s hs hk=>?_) ?_
  · unfold finishTrailing
    split_ifs
    · exact ⟨⟨rfl,rfl,rfl⟩,EmptyMoves.option_map (finishEmpty_moves _) _,Iff.rfl⟩
    · exact ⟨.refl s,EmptyMoves.option_refl _,Iff.rfl⟩
  · -- what finishes is below every seal waiting
    have hstep : List.Forall₂
        (fun x y : Slot E=>(y.Waits → x.Waits) ∧ (x.Unstarted → y.Unstarted ∨
          ∀ s ∈ sealsOf d.seals l,s.stage=.waiting → x.through < s.through))
        (slots st.leading (sealsOf d.seals l))
        (slots (st.leading.map (finishEmpty (d.oldestOutstanding l)))
          (sealsOf (d.seals.map (d.finishTrailing l)) l)):=by
      refine slots_forall₂ ?_ (sealsOf_map fun k s hs hk=>⟨?_,?_⟩)
      · cases hleading : st.leading with
        | none=>exact .none
        | some e =>
          exact .some ⟨False.elim,fun _=>.inr fun s hs hwaits =>
            empty_lt_waiting hl.queue (.inl hleading) hs hwaits⟩
      · unfold finishTrailing
        split_ifs
        · exact ⟨id,.inl⟩
        · exact ⟨id,.inl⟩
      · unfold finishTrailing
        split_ifs with hstarted
        · cases htrailing : s.trailing with
          | none=>exact .none
          | some e =>
            refine .some ⟨False.elim,fun _=>.inr fun s' hs' hwaits=>?_⟩
            exact empty_lt_waiting hl.queue
              (.inr ⟨s,mem_started h.keys hs hk hstarted.2,htrailing⟩) hs' hwaits
        · cases s.trailing with
          | none=>exact .none
          | some e=>exact .some ⟨id,.inl⟩
    refine pairwise_moved (hl.queue.ordered.and hl.queue.started) hstep
      fun x₁ hx₁ x₂ hx₂ y₁ y₂ hbefore h₁ h₂ hwaits=>?_
    have hx₁waits:=h₁.1 hwaits
    rcases h₂.2 (hbefore.2 hx₁waits) with hunstarted | hbelow
    · exact hunstarted
    · cases x₁ with
      | empty e=>exact hx₁waits.elim
      | recorded s₁ =>
        have hlt:=hbelow s₁ ((recorded_mem_slots _ _).mp hx₁) hx₁waits
        exact absurd hbefore.1.1 hlt.not_gt

theorem Inv.finishEmpties (h : Inv d) (hst : d.lineages.get l=some st)
    (hlive : st.ended=false) : Inv (d.finishEmpties l) := by
  have hother : ∀ {k : SealKey} {st'},d.lineages.get k.lineage=some st' → st'.ended=true →
      k.lineage≠l:=by
    intro k st' hst' hended
    exact (ne_of_ended hst' hended hst hlive).symm
  have hfinished : Inv (d.emptied l st):=by
    refine h.requeue (Relives.insert hst rfl le_rfl) (Relives.durable_insert _ hst rfl)
      (fun l' st' hst' hlive'=>?_) (fun k s _=>?_) (h.parts.reseal fun k s _=>?_)
      fun k s st' _ hst' hended=>?_
    · rcases insert_cases hst' with ⟨hl,rfl⟩ | ⟨hl,hst'⟩
      · subst hl
        exact LineageOk.finishEmpties h.toTablesOk hst hlive
      · refine (h.marks l' st' hst' hlive').congr (sealsOf_map_of_eq fun k s _ hk=>?_) le_rfl
        unfold finishTrailing
        rw [if_neg]
        rintro ⟨hkl, -⟩
        exact hl (hk.symm.trans hkl)
    · unfold finishTrailing
      split_ifs <;> exact ⟨rfl,rfl,rfl,id⟩
    · unfold finishTrailing
      split_ifs <;> exact ⟨rfl,id⟩
    · unfold finishTrailing
      rw [if_neg]
      rintro ⟨hkl, -⟩
      exact hother hst' hended hkl
  rcases finishEmpties_cases hst with heq | ⟨e, -, -,heq⟩
  · exact heq ▸ hfinished
  · exact heq ▸ hfinished.releaseHeals l _ _

end Empties

end WindowsThreadpoolSys.DurableIoring
