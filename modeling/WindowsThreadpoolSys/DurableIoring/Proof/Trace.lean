import WindowsThreadpoolSys.DurableIoring.Proof.Runs

/-! A write recorded after a change was recorded before it, further back, and a record kept was kept or
was such a write; a lineage live after it was live before it, with its mark and its releases no
further on. Only a push, an issue and a mint make a record the state before did not have. -/
namespace WindowsThreadpoolSys.DurableIoring
open Library Durability List Table
open Relation (ReflTransGen)

variable {E T I : Type} [LinearOrder E] {d d' d'' : Durability E T I} {c c' : Change E T I}
  {l : Key}

/-! ## The same write, further on -/

/-- `w'` is `w` at another stage, or with its lineage ended at failure clock `now` or later. -/
structure Write.Same (now : ℕ) (w w' : Write E T) : Prop where
  record : w' = { w with stage := w'.stage, until_ := w'.until_ }
  stopped : w'.until_ = w.until_ ∨ w.until_ = none ∧ ∃ u, w'.until_ = some u ∧ now ≤ u

omit [LinearOrder E] in
theorem Write.Same.refl {now : ℕ} (w : Write E T) : Write.Same now w w := ⟨rfl,.inl rfl⟩

omit [LinearOrder E] in
theorem Write.Same.trans {now now' : ℕ} {w w' w'' : Write E T} (h : Write.Same now w w')
    (h' : Write.Same now' w' w'') (hle : now ≤ now') : Write.Same now w w'' := by
  refine ⟨by rw [h'.record,h.record],?_⟩
  rcases h'.stopped with heq | ⟨hnone,u,hu,hge⟩
  · rw [heq]
    exact h.stopped
  · rcases h.stopped with heq | ⟨-,u',hu', -⟩
    · exact .inr ⟨heq ▸ hnone,u,hu,hle.trans hge⟩
    · rw [hnone] at hu'
      cases hu'

section Same

variable {now : ℕ} {w w' : Write E T} (h : Write.Same now w w')
include h

section

omit [LinearOrder E]

theorem Write.Same.op : w'.op=w.op := (congrArg Write.op h.record :)

theorem Write.Same.lineage : w'.lineage=w.lineage := (congrArg Write.lineage h.record :)

theorem Write.Same.epoch : w'.epoch=w.epoch := (congrArg Write.epoch h.record :)

theorem Write.Same.domains : w'.domains=w.domains := (congrArg Write.domains h.record :)

theorem Write.Same.born : w'.born=w.born := (congrArg Write.born h.record :)

end

end Same

omit [LinearOrder E] in
theorem Write.same_stopAt (w : Write E T) (l : Key) (now : ℕ) :
    Write.Same now w (w.stopAt l now) := by
  unfold stopAt
  split_ifs
  · refine ⟨rfl,?_⟩
    cases w.until_ with
    | none=>exact .inr ⟨rfl,now,rfl,le_rfl⟩
    | some u=>exact .inl rfl
  · exact .refl w

theorem Write.same_named {now : ℕ} (w : Write E T) (l : Key) (s : Seal E) :
    Write.Same now w (w.named l s) := by
  unfold named
  split_ifs <;> exact ⟨rfl,.inl rfl⟩

/-! ## Descending -/

def UpTo {α : Type} [LinearOrder α] (a b : Option α) : Prop :=
  ∀ x, a = some x → ∃ y, b = some y ∧ x ≤ y

theorem UpTo.refl {α : Type} [LinearOrder α] (a : Option α) : UpTo a a :=
  fun x h=>⟨x,h,le_rfl⟩

theorem UpTo.trans {α : Type} [LinearOrder α] {a b c : Option α} (h : UpTo a b) (h' : UpTo b c) :
    UpTo a c := by
  intro x hx
  obtain ⟨y,hy,hxy⟩:=h x hx
  obtain ⟨z,hz,hyz⟩:=h' y hy
  exact ⟨z,hz,hxy.trans hyz⟩

instance {α : Type} [LinearOrder α] : IsPreorder (Option α) UpTo where
  refl := .refl
  trans _ _ _:=.trans

/-- `R` says how far a live lineage's releases may have gone on. -/
structure Descends (R : Option HealAt → Option HealAt → Prop) (d d' : Durability E T I) : Prop where
  write : ∀ op w', d'.writes.get op = some w' → ∃ w, d.writes.get op = some w ∧
    Write.Same d.nextFailure w w'
  kept : ∀ op g, d'.kept.get op = some g → d.kept.get op = some g ∨
    ∃ w, d.writes.get op = some w ∧ g.lineage = w.lineage ∧ g.epoch = w.epoch
  lineage : ∀ l st', d'.lineages.get l = some st' → st'.ended = false →
    ∃ st, d.lineages.get l = some st ∧ st.ended = false ∧
      UpTo st.durableThrough st'.durableThrough ∧ R st.released st'.released
  lists : d'.lists = d.lists
  nextLineage : d'.nextLineage = d.nextLineage
  nextFailure : d.nextFailure ≤ d'.nextFailure

variable {R : Option HealAt → Option HealAt → Prop}

theorem Descends.of_lineages {lineages : Table Key (LineageState E)}
    (h : ∀ l st',lineages.get l=some st' → st'.ended=false →
      ∃ st,d.lineages.get l=some st ∧ st.ended=false ∧
        UpTo st.durableThrough st'.durableThrough ∧ R st.released st'.released) :
    Descends R d { d with lineages := lineages } where
  write _ w hw := ⟨w,hw,.refl w⟩
  kept _ _ hg:=Or.inl hg
  lineage:=h
  lists:=rfl
  nextLineage:=rfl
  nextFailure:=le_rfl

theorem Descends.write_key (h : Descends R d d') (hkeys : ∀ op w,d.writes.get op=some w → w.op=op) :
    ∀ op w,d'.writes.get op=some w → w.op=op := by
  intro op w' hw'
  obtain ⟨w,hw,hsame⟩:=h.write op w' hw'
  exact hsame.op.trans (hkeys op w hw)

variable [IsPreorder _ R]

theorem Descends.trans (h : Descends R d d') (h' : Descends R d' d'') : Descends R d d'' where
  write op w'' hw'' := by
    obtain ⟨w',hw',hsame'⟩:=h'.write op w'' hw''
    obtain ⟨w,hw,hsame⟩:=h.write op w' hw'
    exact ⟨w,hw,hsame.trans hsame' h.nextFailure⟩
  kept op g hg:=by
    rcases h'.kept op g hg with hg' | ⟨w',hw',hl,he⟩
    · exact h.kept op g hg'
    · obtain ⟨w,hw,hsame⟩:=h.write op w' hw'
      exact .inr ⟨w,hw,hl.trans hsame.lineage,he.trans hsame.epoch⟩
  lineage l st'' hst'' hlive'':=by
    obtain ⟨st',hst',hlive',hmark',hrel'⟩:=h'.lineage l st'' hst'' hlive''
    obtain ⟨st,hst,hlive,hmark,hrel⟩:=h.lineage l st' hst' hlive'
    exact ⟨st,hst,hlive,hmark.trans hmark',trans_of R hrel hrel'⟩
  lists:=h'.lists.trans h.lists
  nextLineage:=h'.nextLineage.trans h.nextLineage
  nextFailure:=h.nextFailure.trans h'.nextFailure

theorem Descends.of_same (hsame : (d'.writes,d'.kept,d'.lineages,d'.lists,d'.nextLineage) =
    (d.writes,d.kept,d.lineages,d.lists,d.nextLineage))
    (hclock : d.nextFailure ≤ d'.nextFailure) : Descends R d d' := by
  simp only [Prod.mk.injEq] at hsame
  obtain ⟨hwrites,hkept,hlineages,hlists,hnext⟩:=hsame
  exact {
    write:=fun _ w hw=>⟨w,hwrites ▸ hw,.refl w⟩
    kept:=fun _ _ hg=>.inl (hkept ▸ hg)
    lineage:=fun _ st hst hlive=>⟨st,hlineages ▸ hst,hlive,.refl _,refl_of R _⟩
    lists:=hlists
    nextLineage:=hnext
    nextFailure:=hclock }

theorem Descends.refl (d : Durability E T I) : Descends R d d :=
  (.of_same rfl le_rfl)

theorem Descends.insert_lineage {st : LineageState E} (st' : LineageState E) (hst : d.lineages.get l=some st)
    (hlive : st.ended=false) (hmark : UpTo st.durableThrough st'.durableThrough)
    (hrel : R st.released st'.released) :
    Descends R d { d with lineages := d.lineages.insert l st' } := by
  refine .of_lineages fun k st₁ hst₁ hlive₁=>?_
  rcases of_insert hst₁ with ⟨hk,rfl⟩ | hst₁
  · rw [hk]
    exact ⟨st,hst,hlive,hmark,hrel⟩
  · exact ⟨st₁,hst₁,hlive₁,.refl _,refl_of R _⟩

theorem Descends.insert_ended (st' : LineageState E) (hended : st'.ended=true) :
    Descends R d { d with lineages := d.lineages.insert l st' } := by
  refine .of_lineages fun k st₁ hst₁ hlive₁=>?_
  rcases of_insert hst₁ with ⟨-,rfl⟩ | hst₁
  · rw [hended] at hlive₁
    cases hlive₁
  · exact ⟨st₁,hst₁,hlive₁,.refl _,refl_of R _⟩

theorem Descends.erase_lineage : Descends R d { d with lineages := d.lineages.erase l } :=
  .of_lineages fun _ st₁ hst₁ hlive₁=>⟨st₁,get_of_erase hst₁,hlive₁,.refl _,refl_of R _⟩

theorem Descends.retireIfDrained (d : Durability E T I) (l : Key) :
    Descends R d (d.retireIfDrained l) := by
  rcases d.retireIfDrained_cases l with heq | ⟨st, -, -, -, -,heq⟩ <;> rw [heq]
  · exact .refl d
  · exact .erase_lineage

/-! ## Letting writes go -/

theorem Descends.letGoOne {op : OpId} {w : Write E T} (hkeys : ∀ op w,d.writes.get op=some w → w.op=op)
    (hw : d.writes.get op=some w) (hok : d.letGoOne op=.ok d') : Descends R d d' := by
  obtain ⟨spans,window,kept, -, -,hkept,rfl⟩:=letGoOne_ok hw hok
  refine {
    write:=fun op' w' hw'=>⟨w',get_of_erase hw',.refl w'⟩
    kept:=fun op' g hg=>?_
    lineage:=fun l st hst hlive=>⟨st,hst,hlive,.refl _,refl_of R _⟩
    lists:=rfl
    nextLineage:=rfl
    nextFailure:=le_rfl }
  rcases hkept with ⟨-, -,rfl⟩ | ⟨-,rfl⟩
  · rcases of_insert hg with ⟨hop,rfl⟩ | hg
    · rw [hop,hkeys op w hw]
      exact .inr ⟨w,hw,rfl,rfl⟩
    · exact .inl hg
  · exact .inl hg

theorem Descends.letGo {leaves : Write E T → Bool}
    (hkeys : ∀ op w,d.writes.get op=some w → w.op=op) (hok : d.letGo leaves=.ok d') :
    Descends R d d' :=
  letGo_induction (fun s=>Descends R d s)
    (fun _ _ _ _ hs hw _ hone=>hs.trans (.letGoOne (hs.write_key hkeys) hw hone)) (.refl d) hok

theorem Descends.letGoEnded (hkeys : ∀ op w,d.writes.get op=some w → w.op=op)
    (hok : d.letGoEnded l=.ok d') : Descends R d d' :=
  letGoEnded_induction (fun s=>Descends R d s)
    (fun _ _ _ _ hs hw _ hone=>hs.trans (.letGoOne (hs.write_key hkeys) hw hone)) (.refl d) hok

theorem Descends.cover {q : ℕ} (hkeys : ∀ op w,d.writes.get op=some w → w.op=op)
    (hok : d.cover l q=.ok d') : Descends R d d' := by
  rcases cover_ok hok with rfl | ⟨mid,reads,told,hgo,rfl⟩
  · exact .refl _
  · exact (letGo hkeys hgo).trans (.of_same rfl le_rfl)

theorem Descends.forgetAbandoned {through : Option E} (hok : d.forgetAbandoned l through=.ok d') :
    Descends R d d' := by
  obtain ⟨window, -,rfl⟩:=forgetAbandoned_ok hok
  exact .of_same rfl le_rfl

theorem Descends.map_writes {f : OpId → Write E T → Write E T}
    (h : ∀ op w,Write.Same d.nextFailure w (f op w)) :
    Descends R d { d with writes := d.writes.map f } where
  write op w' hw' := by
    simp only [get_map,Option.map_eq_some_iff] at hw'
    obtain ⟨w,hw,rfl⟩:=hw'
    exact ⟨w,hw,h op w⟩
  kept _ _ hg:=Or.inl hg
  lineage _ st hst hlive:=⟨st,hst,hlive,.refl _,refl_of R _⟩
  lists:=rfl
  nextLineage:=rfl
  nextFailure:=le_rfl

/-! ## The steps of an advance -/

theorem Durability.releaseHeals_lineage {made : ℕ} {through : E} {k : Key} {st' : LineageState E}
    (hst' : (d.releaseHeals l made through).lineages.get k=some st') :
    ∃ st,d.lineages.get k=some st ∧ st'.ended=st.ended ∧
      st'.durableThrough=st.durableThrough ∧ UpTo st.released st'.released := by
  unfold releaseHeals at hst'
  simp only [get_modify] at hst'
  split_ifs at hst' with hk
  · obtain ⟨st,hst,rfl⟩:=Option.map_eq_some_iff.mp hst'
    refine ⟨st,hk ▸ hst,rfl,rfl,fun x hx=>?_⟩
    simp only [hx]
    cases ((d.failures.filterMap Failure.healingAt).filter fun at_ =>
        d.releases l made through at_).foldl (fun a b=>later a (some b)) none with
    | none=>exact ⟨x,rfl,le_rfl⟩
    | some y=>exact ⟨max x y,rfl,le_max_left x y⟩
  · exact ⟨st',hst',rfl,rfl,.refl _⟩

theorem Descends.releaseHeals (d : Durability E T I) (l : Key) (made : ℕ) (through : E) :
    Descends UpTo d (d.releaseHeals l made through) := by
  refine .of_lineages fun k st' hst' hlive=>?_
  obtain ⟨st,hst,hended,hmark,hrel⟩:=releaseHeals_lineage hst'
  exact ⟨st,hst,hended ▸ hlive,hmark ▸ .refl _,hrel⟩

theorem ProgressStep.descends (h : ProgressStep l c c') : Descends UpTo c.core c'.core := by
  cases h with
  | start starts hok =>
    obtain ⟨n,sealDomains, -, -,rfl⟩:=startSeal_ok hok
    exact (Descends.map_writes fun _ w=>w.same_named _ _).trans (.of_same rfl le_rfl)
  | empties live =>
    obtain ⟨st,hst,hlive⟩:=isLive_iff.mp live
    have hemptied : Descends UpTo c.core (c.core.emptied l st) :=
      (Descends.insert_lineage { st with
        leading:=st.leading.map (finishEmpty (c.core.oldestOutstanding l)) }
        hst hlive (.refl _) (.refl _)).trans (.of_same rfl le_rfl)
    rcases finishEmpties_cases hst with heq | ⟨e, -, -,heq⟩ <;> simp only [heq]
    · exact hemptied
    · exact hemptied.trans (.releaseHeals _ _ _ _)
  | seals live =>
    have hdone : Descends UpTo c.core (c.core.done l):=.of_same rfl le_rfl
    rcases c.core.finishSeals_cases l with heq | ⟨s, -, -, -,heq⟩ <;> simp only [heq]
    · exact hdone
    · exact hdone.trans (.releaseHeals _ _ _ _)

theorem Descends.answerAt (d : Durability E T I) (l : Key) (place : Place) :
    Descends R d (d.answerAt l place) := by
  cases place with
  | leading =>
    refine .of_lineages fun k st' hst' hlive=>?_
    rw [get_modify] at hst'
    split_ifs at hst' with hk
    · obtain ⟨st,hst,rfl⟩:=Option.map_eq_some_iff.mp hst'
      exact ⟨st,hk ▸ hst,hlive,.refl _,refl_of R _⟩
    · exact ⟨st',hst',hlive,.refl _,refl_of R _⟩
  | recorded q | trailing q=>exact .of_same rfl le_rfl

theorem Inv.passes_above {st : LineageState E} {through : E} {recorded : Option (Seal E)}
    (h : Inv d) (hpasses : Passes d l st through recorded) :
    above st.durableThrough through=true := by
  obtain ⟨x,hslots,hthrough, -, -⟩:=hpasses.slots_eq h.keys
  rw [← hthrough]
  refine (h.marks l st hpasses.lineage hpasses.live).queue.above x ?_
  rw [hslots]
  exact mem_cons_self

theorem MarkStep.descends (h : MarkStep l c c') (hinv : Inv c.core) : Descends UpTo c.core c'.core := by
  cases h with
  | @pass c' st through recorded passes free hok =>
    obtain ⟨window,d₂,d₃, -,hgo,hforget,rfl⟩:=passSeal_ok hok
    have hmark : UpTo st.durableThrough (some through):=by
      intro x hx
      have habove:=hinv.passes_above passes
      rw [hx] at habove
      exact ⟨through,rfl,(above_some.mp habove).le⟩
    have htaken : Descends UpTo c.core (c.core.taken l st through recorded window) :=
      (Descends.insert_lineage (st.passed through recorded) passes.lineage passes.live hmark
        (.refl _)).trans (.of_same rfl le_rfl)
    exact ((htaken.trans (.letGo (htaken.write_key hinv.keys.write_key) hgo)).trans
      (.forgetAbandoned hforget)).trans (.of_same rfl le_rfl)
  | answer live due blocked=>exact .answerAt _ _ _

theorem AdvanceStep.descends (h : AdvanceStep c c') (hinv : Inv c.core) :
    Descends UpTo c.core c'.core := by
  cases h with
  | progress l step=>exact step.descends
  | healed=>exact .of_same rfl le_rfl
  | mark l step=>exact step.descends hinv

theorem Descends.observe {cause : FailureCause} {reach : Reach} {only : Option Key} {id : FailureId}
    (hok : observe c cause reach only=.ok (id,c')) : Descends R c.core c'.core := by
  obtain ⟨slot,freeTokens,window,told, -, -, -, -, -,hcore, -⟩:=observe_ok hok
  rw [hcore]
  exact .of_same rfl (Nat.le_succ _)

theorem Descends.answer {through : E} {file : IoTargetKey} {failedNow : Bool} {q : ℕ}
    {domains : DomainList} (hok : d.answer l through file failedNow=.ok (q,domains,d')) :
    Descends R d d' := by
  obtain ⟨s,n,failed,entry, -, -, -, -, -, -, -, -,rfl⟩:=answer_ok hok
  exact .of_same rfl le_rfl

theorem Descends.resolveOne {item : FailureToken × Resolution}
    (hok : resolveOne c item=.ok c') : Descends R c.core c'.core := by
  have hdrop : ∀ (s : Durability E T I),Descends R s (s.dropToken item.1):=by
    intro s
    obtain ⟨tokens,heq⟩:=s.dropToken_frame item.1
    rw [heq]
    exact .of_same rfl le_rfl
  obtain ⟨f, -, -,⟨-, -,hcore⟩ | ⟨-,mid,habandon, -,hcore⟩⟩:=resolveOne_ok hok
  · have hstand : Descends R c.core (c.core.stand f.id (.healing c.core.healNow)) :=
      (.of_same rfl le_rfl)
    rw [hcore]
    exact hstand.trans (hdrop _)
  · obtain ⟨window,abandoned,rfl⟩:=abandonEpochs_frame habandon
    rw [hcore]
    refine trans ?_ (hdrop _)
    exact .of_same rfl le_rfl

theorem Prepared.descends {call : Call E T} (h : Inv d) (hprep : Prepared d call c) :
    Descends R d c.core := by
  have hkeys:=h.keys.write_key
  cases hprep with
  | @succeeded op w hw hstage hlive =>
    have hcompleted : Descends R d { d with
        writes:=d.writes.insert op { w with stage:=.completed } }:=by
      rw [Table.insert_eq_modify hw fun w=>{ w with stage:=.completed }]
      exact Descends.map_writes fun op' w'=>by split_ifs <;> exact ⟨rfl,.inl rfl⟩
    exact hcompleted.trans (.of_same rfl le_rfl)
  | @gone op end_ w mid reads told hw hstage hone hend =>
    have hmid : Descends R d { mid with
        reads:=reads,told:=told
        inFlightByEpoch:=d.inFlightByEpoch.countDown w.lineage w.epoch } :=
      (Descends.letGoOne hkeys hw hone).trans (.of_same rfl le_rfl)
    unfold begin_
    simp only
    split_ifs
    · exact hmid
    · exact hmid.trans (.retireIfDrained _ _)
  | @emptySeal l through st hst hlive habove hcycle hpin =>
    have hsealed : Descends R d { d with lineages:=d.lineages.insert l (st.sealedTo through) } :=
      .insert_lineage _ hst hlive (.refl _) (refl_of R _)
    refine hsealed.trans ?_
    unfold recordEmpty begin_
    simp only [get_insert_self]
    cases (sealsOf d.seals l).getLast? with
    | some s=>exact .of_same rfl le_rfl
    | none =>
      exact (Descends.insert_lineage (d:={ d with
          lineages:=d.lineages.insert l (st.sealedTo through) })
        { st.sealedTo through with leading:=some (Empty.new d.sealsMade through) }
        (get_insert_self _ _ _) hlive (.refl _) (refl_of R _)).trans
        (.of_same rfl le_rfl)
  | @recordedSeal l through st op window hst hlive habove hcycle hpin hhold =>
    exact (Descends.insert_lineage (st.sealedTo through) hst hlive (.refl _) (refl_of R _)).trans
      (.of_same rfl le_rfl)
  | strayFlush=>exact .refl d
  | endedFlush hst hended hans hgo hretain =>
    have h₁ : Descends R d _:=.answer hans
    have h₂:=h₁.trans (.letGo (h₁.write_key hkeys) hgo)
    obtain ⟨window, -,rfl⟩:=retainSealing_ok hretain
    refine Descends.trans ?_ (.retireIfDrained _ _)
    exact h₂.trans (.of_same rfl le_rfl)
  | flushOk hst hlive hans hcover =>
    have h₁ : Descends R d _:=.answer hans
    exact h₁.trans (.cover (h₁.write_key hkeys) hcover)
  | flushFailed hst hlive hans hobserve=>exact (Descends.answer hans).trans (.observe hobserve)
  | domainOk hst hlive hs hstage hpart hans hcover =>
    refine Descends.trans ?_ (Descends.cover (d:=d.answerDomain _ _ _ _ _ _) hkeys hcover)
    exact .of_same rfl le_rfl
  | domainFailed hst hlive hs hstage hpart hans hobserve =>
    refine Descends.trans ?_ (.observe hobserve)
    exact .of_same rfl le_rfl
  | imported hobserve=>exact .observe (c:=begin_ d) hobserve
  | @resolved items c₁ hinstance hfold =>
    have h₁ : Descends R d c₁.core :=
      foldlM_invariant (fun s=>Descends R d s.core)
        (fun _ _ _ _ hs hone=>hs.trans (.resolveOne hone)) (.refl d) hfold
    exact h₁.trans (.of_same rfl le_rfl)
  | @ended l st d₂ d₄ d₅ hst hlive hne hforget hgo hretain =>
    have h₁ : Descends R d { d with lineages:=d.lineages.insert l st.finish }:=.insert_ended _ rfl
    have h₂:=h₁.trans (.forgetAbandoned hforget)
    have h₃:=h₂.trans (Descends.map_writes (f:=fun _ w=>w.stopAt l d₂.nextFailure)
      fun _ w=>w.same_stopAt _ _)
    have h₄:=h₃.trans (.letGoEnded (h₃.write_key hkeys) hgo)
    obtain ⟨window, -,rfl⟩:=retainSealing_ok hretain
    refine Descends.trans ?_ (.retireIfDrained _ _)
    exact h₄.trans (.of_same rfl le_rfl)

/-- A call's records are those of the state before it, further on, but for a write it puts in flight
and a lineage it mints. -/
structure CallDescends (R : Option HealAt → Option HealAt → Prop) (d d' : Durability E T I) :
    Prop where
  write : ∀ op w', d'.writes.get op = some w' → (∃ w, d.writes.get op = some w ∧
      Write.Same d.nextFailure w w') ∨
    d.writes.get op = none ∧ w'.stage = .inFlight ∧ d'.isLive w'.lineage = true
  kept : ∀ op g, d'.kept.get op = some g → d.kept.get op = some g ∨
    ∃ w, d.writes.get op = some w ∧ g.lineage = w.lineage ∧ g.epoch = w.epoch
  lineage : ∀ l st', d'.lineages.get l = some st' → st'.ended = false →
    (∃ st, d.lineages.get l = some st ∧ st.ended = false ∧
      UpTo st.durableThrough st'.durableThrough ∧ R st.released st'.released) ∨
    d.nextLineage ≤ l
  nextLineage : d.nextLineage ≤ d'.nextLineage
  nextFailure : d.nextFailure ≤ d'.nextFailure

omit [IsPreorder _ R] in
theorem Descends.call (h : Descends R d d') : CallDescends R d d' where
  write op w' hw' := Or.inl (h.write op w' hw')
  kept:=h.kept
  lineage l st' hst' hlive:=Or.inl (h.lineage l st' hst' hlive)
  nextLineage:=h.nextLineage.ge
  nextFailure:=h.nextFailure

theorem CallDescends.inFlight {a : Accepted E T} {wasHeld : Bool}
    (hfresh : d.writes.get a.op=none) (hok : d.inFlight a wasHeld=.ok d') : CallDescends R d d' := by
  obtain ⟨inFlightByEpoch,spans,window,hlive, -, -, -,rfl⟩:=inFlight_ok hok
  refine {
    write:=fun op w' hw'=>?_
    kept:=fun _ _ hg=>.inl hg
    lineage:=fun _ st hst hended=>.inl ⟨st,hst,hended,.refl _,refl_of R _⟩
    nextLineage:=le_rfl
    nextFailure:=le_rfl }
  rcases of_insert hw' with ⟨hop,rfl⟩ | hw'
  · rw [hop]
    exact .inr ⟨hfresh,rfl,hlive⟩
  · exact .inl ⟨w',hw',.refl w'⟩

theorem Quiet.descends {call : Call E T} (hquiet : Quiet d call d') (h : Inv d)
    (hpromised : d.Promised call) : CallDescends R d d' := by
  cases hquiet.quieted with
  | places | tokens=>exact Descends.call (.of_same rfl le_rfl)
  | joins held heldByEpoch hfrom hin =>
    have hin':=CallDescends.inFlight (R:=R) (d:={ d with held,heldByEpoch })
      (h.joins_fresh hpromised hfrom).1 hin
    exact ⟨hin'.write,hin'.kept,hin'.lineage,hin'.nextLineage,hin'.nextFailure⟩
  | forget hf hresolved hok heq =>
    rw [(releaseReach_frame _ _).choose_spec] at heq
    subst heq
    exact {
      write:=fun op w hw=>.inl ⟨w,hw,.refl w⟩
      kept:=fun op g hg=>.inl (get_of_filter hg)
      lineage:=fun _ st hst hended=>.inl ⟨st,hst,hended,.refl _,refl_of R _⟩
      nextLineage:=le_rfl
      nextFailure:=le_rfl }
  | mint =>
    refine {
      write:=fun op w hw=>.inl ⟨w,hw,.refl w⟩
      kept:=fun _ _ hg=>.inl hg
      lineage:=fun l st hst hended=>?_
      nextLineage:=Nat.le_succ _
      nextFailure:=le_rfl }
    rcases of_insert hst with ⟨hl, -⟩ | hst
    · exact .inr hl.ge
    · exact .inl ⟨st,hst,hended,.refl _,refl_of R _⟩
  | @endPopped l st hst hended =>
    exact ((Descends.insert_ended { st with endUnpopped:=false } hended).trans
      (.retireIfDrained _ _)).call
  | retire hforget=>exact ((Descends.forgetAbandoned hforget).trans .erase_lineage).call
  | relist =>
    exact {
      write:=fun op w hw=>.inl ⟨w,hw,.refl w⟩
      kept:=fun _ _ hg=>.inl hg
      lineage:=fun _ st hst hended=>.inl ⟨st,hst,hended,.refl _,refl_of R _⟩
      nextLineage:=le_rfl
      nextFailure:=le_rfl }

/-! ## What is told before the advance -/

def Event.isMark : Event E I → Bool
  | .durable _ _ => true
  | .blocked _ _ _ => true
  | _ => false

theorem stopHeld_no_mark {stopped : HeldOp E T → Option (Gate E)}
    (h : ∀ e ∈ c.due.events,e.isMark=false) :
    ∀ e ∈ (stopHeld c stopped).due.events,e.isMark=false := by
  intro e he
  rcases mem_append.mp he with he | he
  · exact h e he
  · obtain ⟨p, -,rfl⟩:=mem_map.mp he
    rfl

theorem releaseHealed_no_mark (h : ∀ e ∈ c.due.events,e.isMark=false) :
    ∀ e ∈ (releaseHealed c).due.events,e.isMark=false := by
  intro e he
  rcases mem_append.mp he with he | he
  · exact h e he
  · obtain ⟨f, -,rfl⟩:=mem_map.mp he
    rfl

theorem observe_no_mark {cause : FailureCause} {reach : Reach} {only : Option Key} {id : FailureId}
    (h : c.due.events=[]) (hok : observe c cause reach only=.ok (id,c')) :
    ∀ e ∈ c'.due.events,e.isMark=false := by
  obtain ⟨slot,freeTokens,window,told, -, -, -, -, -, -,hdue⟩:=observe_ok hok
  intro e he
  rw [hdue,h] at he
  rw [mem_singleton.mp he]
  rfl

theorem resolveOne_no_mark {item : FailureToken × Resolution}
    (h : ∀ e ∈ c.due.events,e.isMark=false) (hok : resolveOne c item=.ok c') :
    ∀ e ∈ c'.due.events,e.isMark=false := by
  obtain ⟨f, -, -,⟨-,hdue, -⟩ | ⟨-,mid, -,hdue, -⟩⟩:=resolveOne_ok hok <;> rw [hdue]
  · exact h
  · refine stopHeld_no_mark fun e he=>?_
    rcases mem_append.mp he with he | he
    · exact h e he
    · rw [mem_singleton.mp he]
      rfl

theorem Prepared.no_mark {call : Call E T} (hprep : Prepared d call c) :
    ∀ e ∈ c.due.events,e.isMark=false := by
  have hbegin : ∀ (s : Durability E T I),∀ e ∈ (begin_ s).due.events,
      e.isMark=false:=fun _ e he=>(by cases he)
  cases hprep with
  | @emptySeal l through st hst hlive habove hcycle hpin =>
    intro e he
    unfold recordEmpty begin_ at he
    simp only [get_insert_self] at he
    rcases mem_append.mp he with he | he
    · cases he
    · obtain ⟨x, -,rfl⟩:=mem_map.mp he
      rfl
  | flushFailed hst hlive hans hobserve | domainFailed hst hlive hs hstage hpart hans hobserve
  | imported hobserve=>exact observe_no_mark rfl hobserve
  | @resolved items c₁ hinstance hfold =>
    exact releaseHealed_no_mark (foldlM_invariant (fun s=>∀ e ∈ s.due.events,e.isMark=false)
      (fun _ _ _ _ hs hone=>resolveOne_no_mark hs hone) (hbegin d) hfold)
  | ended hst hlive hne hforget hgo hretain =>
    refine stopHeld_no_mark fun e he=>?_
    rw [mem_singleton.mp he]
    rfl
  | _=>exact hbegin _

/-! ## The advance -/

theorem advance_descends (h : Inv c.core) (hok : advance c=.ok c') : Descends UpTo c.core c'.core := by
  have hall : Inv c'.core ∧ Descends UpTo c.core c'.core :=
    steps_invariant (P:=fun s=>Inv s.core ∧ Descends UpTo c.core s.core) (advance_steps h hok).1
      ⟨h,.refl _⟩ fun _ _ hstep hs=>⟨hstep.inv hs.1,hs.2.trans (hstep.descends hs.1)⟩
  exact hall.2

theorem call_descends {call : Call E T} (h : Inv d) (hpromised : d.Promised call)
    (hok : d.call call=.ok c) : CallDescends UpTo d c.core := by
  rcases call_calls h hok with ⟨d',rfl,hquiet⟩ | ⟨c₁,hprep,hadvance⟩
  · exact hquiet.descends h hpromised
  · exact ((hprep.descends h).trans (advance_descends (hprep.inv h hpromised) hadvance)).call

end WindowsThreadpoolSys.DurableIoring
