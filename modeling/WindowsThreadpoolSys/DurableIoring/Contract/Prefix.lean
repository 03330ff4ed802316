import WindowsThreadpoolSys.DurableIoring.Proof.Trace
import WindowsThreadpoolSys.DurableIoring.Durability.Play

/-! A lineage's mark only rises, over seals whose `through` rises, and no write at or below it is left:
so its `Durable` entries rise too, and a failure observed after one suspects no write it covered. -/
namespace WindowsThreadpoolSys.DurableIoring
open Library Durability List

variable {E T I : Type} [LinearOrder E] {d d' : Durability E T I} {c c' : Change E T I} {l : Key}
  {events past : List (Event E I)} {ticks : List (Tick E T I)}

/-! ## What a run tells -/

def history (ticks : List (Tick E T I)) : List (Event E I) := ticks.reverse.flatMap Tick.events

theorem history_cons (t : Tick E T I) (ticks : List (Tick E T I)) :
    history (t::ticks)=history ticks++t.events := by
  simp [history]

def Event.durableOf (l : Key) : Event E I → Option E
  | .durable l' through => if l' = l then some through else none
  | _ => none

def durables (l : Key) (events : List (Event E I)) : List E := events.filterMap (Event.durableOf l)

omit [LinearOrder E] in
theorem durables_append (l : Key) (xs ys : List (Event E I)) :
    durables l (xs++ys)=durables l xs++durables l ys := filterMap_append

omit [LinearOrder E] in
theorem durables_of_no_mark (h : ∀ e ∈ events,e.isMark=false) : durables l events=[] := by
  refine filterMap_eq_nil_iff.mpr fun e he=>?_
  have hmark:=h e he
  cases e <;> first | rfl | cases hmark

omit [LinearOrder E] in
theorem mem_durables {n : E} : n ∈ durables l events ↔ Event.durable l n ∈ events := by
  simp only [durables,mem_filterMap]
  constructor
  · rintro ⟨e,he,hof⟩
    cases e with
    | durable l' through =>
      simp only [Event.durableOf] at hof
      split_ifs at hof with hl
      cases hof
      exact hl ▸ he
    | _=>cases hof
  · exact fun he=>⟨_,he,if_pos rfl⟩

structure MarksTold (events : List (Event E I)) (d : Durability E T I) : Prop where
  ordered : ∀ l, (durables l events).Pairwise (· < ·)
  below : ∀ l st, d.lineages.get l = some st → st.ended = false → ∀ n ∈ durables l events,
    ∃ m, st.durableThrough = some m ∧ n ≤ m
  minted : ∀ l, ∀ n ∈ durables l events, l < d.nextLineage

theorem MarksTold.descends (h : MarksTold events d) (hgoes : CallDescends UpTo d d') :
    MarksTold events d' where
  ordered := h.ordered
  below l st' hst' hlive' n hn:=by
    rcases hgoes.lineage l st' hst' hlive' with ⟨st,hst,hlive,hmark, -⟩ | hnew
    · obtain ⟨m,hm,hle⟩:=h.below l st hst hlive n hn
      obtain ⟨m',hm',hle'⟩:=hmark m hm
      exact ⟨m',hm',hle.trans hle'⟩
    · exact absurd (h.minted l n hn) (not_lt.mpr hnew)
  minted l n hn:=(h.minted l n hn).trans_le hgoes.nextLineage

theorem MarksTold.congr {more : List (Event E I)} (h : MarksTold events d)
    (heq : ∀ l,durables l more=durables l events) : MarksTold more d where
  ordered l := heq l ▸ h.ordered l
  below l st hst hlive n hn:=h.below l st hst hlive n (heq l ▸ hn)
  minted l n hn:=h.minted l n (heq l ▸ hn)

theorem MarksTold.append {more : List (Event E I)} (h : MarksTold events d)
    (hmore : ∀ e ∈ more,e.isMark=false) : MarksTold (events++more) d :=
  h.congr fun l=>by rw [durables_append,durables_of_no_mark hmore,append_nil]

theorem MarksTold.pass {st : LineageState E} {through : E} {recorded : Option (Seal E)}
    (h : MarksTold (past++c.due.events) c.core) (hinv : Inv c.core)
    (hpasses : Passes c.core l st through recorded)
    (hok : passSeal c l st through recorded=.ok c') : MarksTold (past++c'.due.events) c'.core := by
  obtain ⟨spans,taken,window,kept,abandoned,rfl⟩:=passSeal_eq hok
  have hbelow : ∀ n ∈ durables l (past++c.due.events),n < through:=by
    intro n hn
    obtain ⟨m,hm,hle⟩:=h.below l st hpasses.lineage hpasses.live n hn
    have habove:=hinv.passes_above hpasses
    rw [hm] at habove
    exact hle.trans_lt (above_some.mp habove)
  have hevents : ∀ k,durables k (past++(c.due.events++[Event.durable l through])) =
      durables k (past++c.due.events)++if l=k then [through] else []:=by
    intro k
    rw [← append_assoc,durables_append]
    congr 1
    by_cases hk : l=k <;> simp [durables,Event.durableOf,hk]
  show MarksTold (past++(c.due.events++[Event.durable l through])) _
  refine ⟨fun k=>?_,fun k st' hst' hlive n hn=>?_,fun k n hn=>?_⟩
  · rw [hevents k]
    split_ifs with hk
    · subst hk
      exact pairwise_append.mpr ⟨h.ordered _,pairwise_singleton _ _,
        fun n hn m hm=>mem_singleton.mp hm ▸ hbelow n hn⟩
    · rw [append_nil]
      exact h.ordered k
  · have hst' : (c.core.lineages.insert l (st.passed through recorded)).get k=some st':=hst'
    rw [hevents k] at hn
    rw [Table.get_insert] at hst'
    split_ifs at hst' hn with hk hk' hk'
    · cases hst'
      subst hk
      refine ⟨through,rfl,?_⟩
      rcases mem_append.mp hn with hn | hn
      · exact (hbelow n hn).le
      · exact (mem_singleton.mp hn).le
    · exact absurd hk.symm hk'
    · exact absurd hk'.symm hk
    · rw [append_nil] at hn
      exact h.below k st' hst' hlive n hn
  · rw [hevents k] at hn
    rcases mem_append.mp hn with hn | hn
    · exact h.minted k n hn
    · split_ifs at hn with hk
      · exact hk ▸ hinv.clocks.lineage_clock l st hpasses.lineage
      · cases hn

theorem AdvanceStep.marksTold (hstep : AdvanceStep c c') (hinv : Inv c.core)
    (h : MarksTold (past++c.due.events) c.core) : MarksTold (past++c'.due.events) c'.core := by
  have hgoes:=(hstep.descends hinv).call
  cases hstep with
  | progress l step =>
    have hevents : c'.due.events=c.due.events:=by
      cases step with
      | start starts hok =>
        obtain ⟨n,sealDomains, -, -,rfl⟩:=startSeal_ok hok
        rfl
      | empties | seals=>rfl
    rw [hevents]
    exact h.descends hgoes
  | healed =>
    refine (h.descends hgoes).congr fun k=>?_
    have hhealed : durables k ((c.core.failures.filter c.core.isHealed).map fun f =>
        (Event.healed f.id : Event E I))=[]:=by
      refine durables_of_no_mark fun e he=>?_
      obtain ⟨f, -,rfl⟩:=mem_map.mp he
      rfl
    unfold releaseHealed
    simp only [durables_append,hhealed,append_nil]
  | mark l step =>
    cases step with
    | pass passes free hok=>exact h.pass hinv passes hok
    | @answer place through blocker live due blocked =>
      refine (h.descends hgoes).congr fun k=>?_
      simp only [durables_append]
      congr 1
      exact append_nil _

theorem AdvanceStep.durable_new {n : E} (hstep : AdvanceStep c c')
    (hnew : Event.durable l n ∉ c.due.events) (hn : Event.durable l n ∈ c'.due.events) :
    ∃ st,c'.core.lineages.get l=some st ∧ st.ended=false ∧ st.durableThrough=some n := by
  cases hstep with
  | progress k step =>
    cases step with
    | start starts hok =>
      obtain ⟨n,sealDomains, -, -,rfl⟩:=startSeal_ok hok
      exact absurd hn hnew
    | empties | seals=>exact absurd hn hnew
  | healed =>
    rcases mem_append.mp hn with hn | hn
    · exact absurd hn hnew
    · simp at hn
  | mark k step =>
    cases step with
    | @pass c' st through recorded passes free hok =>
      obtain ⟨spans,taken,window,kept,abandoned,rfl⟩:=passSeal_eq hok
      rcases mem_append.mp hn with hn | hn
      · exact absurd hn hnew
      · cases mem_singleton.mp hn
        exact ⟨st.passed n recorded,Table.get_insert_self _ _ _,passes.live,rfl⟩
    | answer live due blocked =>
      rcases mem_append.mp hn with hn | hn
      · exact absurd hn hnew
      · simp at hn

theorem AdvanceStep.durable_mem {n : E} (hstep : AdvanceStep c c')
    (hn : Event.durable l n ∈ c'.due.events) :
    Event.durable l n ∈ c.due.events ∨ c.core.isLive l=true := by
  by_cases hold : Event.durable l n ∈ c.due.events
  · exact .inl hold
  · obtain ⟨st,hst,hlive, -⟩:=hstep.durable_new hold hn
    exact .inr ((hstep.relives.isLive l).symm.trans (isLive_iff.mpr ⟨st,hst,hlive⟩))

theorem advance_marksTold (hinv : Inv c.core) (h : MarksTold (past++c.due.events) c.core)
    (hok : advance c=.ok c') : MarksTold (past++c'.due.events) c'.core := by
  have hall : Inv c'.core ∧ MarksTold (past++c'.due.events) c'.core :=
    steps_invariant (P:=fun s=>Inv s.core ∧ MarksTold (past++s.due.events) s.core)
      (advance_steps hinv hok).1 ⟨hinv,h⟩
      fun _ _ hstep hs=>⟨hstep.inv hs.1,hstep.marksTold hs.1 hs.2⟩
  exact hall.2

theorem Run.marksTold (run : Run ticks d) : MarksTold (history ticks) d := by
  induction run using Run.steps with
  | new hinit =>
    cases hinit
    exact ⟨fun _=>List.Pairwise.nil,fun _ _ _ _ n hn=>(by cases hn),
      fun _ n hn=>(by cases hn)⟩
  | @step ticks d call change run hinv hpromised hcall ih =>
    rw [history_cons]
    rcases call_calls hinv hcall with ⟨d',rfl,hquiet⟩ | ⟨c₁,hprep,hadvance⟩
    · show MarksTold (history ticks++[]) d'
      rw [append_nil]
      exact ih.descends (hquiet.descends hinv hpromised)
    · exact advance_marksTold (hprep.inv hinv hpromised)
        ((ih.descends (hprep.descends hinv).call).append hprep.no_mark) hadvance

/-! ## Finality -/

/-- Nothing recorded is at or below a mark told before the last failure that can name it. -/
structure TellsFinal (ticks : List (Tick E T I)) (d : Durability E T I) : Prop where
  write : ∀ t ∈ ticks, ∀ l n, Event.durable l n ∈ t.events → ∀ op w, d.writes.get op = some w →
    w.lineage = l → n < w.epoch
  kept : ∀ t ∈ ticks, ∀ l n, Event.durable l n ∈ t.events → ∀ op g, d.kept.get op = some g →
    g.lineage = l → t.after.nextFailure < g.until_ → n < g.epoch
  clock : ∀ t ∈ ticks, t.after.nextFailure ≤ d.nextFailure

theorem StageOk.above {xs : List (Slot E)} {durable sealed : Option E} {epoch : E} {stage : Stage}
    (h : StageOk xs durable sealed epoch stage) : above durable epoch=true := by
  cases stage with
  | inFlight | completed | named q=>exact h.1

theorem mem_history {e : Event E I} : e ∈ history ticks ↔ ∃ t ∈ ticks,e ∈ t.events := by
  simp [history]

theorem MarksTold.live_write {op : OpId} {w : Write E T} {n : E} (h : MarksTold events d)
    (hinv : Inv d) (hw : d.writes.get op=some w) (hlive : d.isLive w.lineage=true)
    (hn : Event.durable w.lineage n ∈ events) : n < w.epoch := by
  obtain ⟨st,hst,hended⟩:=isLive_iff.mp hlive
  obtain ⟨m,hm,hle⟩:=h.below _ st hst hended n (mem_durables.mpr hn)
  have habove:=StageOk.above ((hinv.marks _ st hst hended).write_at op w hw rfl)
  rw [hm] at habove
  exact hle.trans_lt (above_some.mp habove)

theorem told_live {call : Call E T} {n : E} (hinv : Inv d) (hpromised : d.Promised call)
    (hok : d.call call=.ok c) (hn : Event.durable l n ∈ c.due.events) : c.core.isLive l=true := by
  rcases call_calls hinv hok with ⟨d',rfl, -⟩ | ⟨c₁,hprep,hadvance⟩
  · cases hn
  · refine steps_invariant
      (P:=fun s=>∀ l n,Event.durable l n ∈ s.due.events → s.core.isLive l=true)
      (advance_steps (hprep.inv hinv hpromised) hadvance).1
      (fun l n hn=>absurd (hprep.no_mark _ hn) (by simp [Event.isMark]))
      (fun s s' hstep hs k m hm=>?_) l n hn
    rw [hstep.relives.isLive]
    rcases hstep.durable_mem hm with hm | hlive
    · exact hs k m hm
    · exact hlive

theorem Run.tellsFinal (run : Run ticks d) : TellsFinal ticks d := by
  induction run using Run.steps with
  | new hinit =>
    cases hinit
    exact ⟨fun t ht=>(by cases ht),fun t ht=>(by cases ht),fun t ht=>(by cases ht)⟩
  | @step ticks d call change run hinv hpromised hcall ih =>
    have hgoes:=call_descends hinv hpromised hcall
    have hafter:=run.next _ (.make call change hpromised hcall)
    have hinv':=(Run.keeps hafter).1
    have htold:=Run.marksTold hafter
    have hclock : ∀ t ∈ (⟨d,⟨call,change⟩,change.core⟩::ticks : List (Tick E T I)),
        t.after.nextFailure ≤ change.core.nextFailure:=by
      intro t ht
      rcases mem_cons.mp ht with rfl | ht
      · exact le_rfl
      · exact (ih.clock t ht).trans hgoes.nextFailure
    refine ⟨fun t ht l n hn op w hw hl=>?_,fun t ht l n hn op g hg hl huntil=>?_,hclock⟩
    · subst hl
      by_cases hlive : change.core.isLive w.lineage=true
      · exact htold.live_write hinv' hw hlive (mem_history.mpr ⟨t,ht,hn⟩)
      · -- An ended lineage is told nothing, and its writes were there when it ended.
        rcases hgoes.write op w hw with ⟨w₀,hw₀,hsame⟩ | ⟨-, -,hlive'⟩
        · rcases mem_cons.mp ht with rfl | ht
          · exact absurd (told_live hinv hpromised hcall hn) hlive
          · exact hsame.epoch ▸ ih.write t ht _ n hn op w₀ hw₀ hsame.lineage.symm
        · exact absurd hlive' hlive
    · have huntil':=(hinv'.clocks.kept_clock op g hg).2.2
      rcases mem_cons.mp ht with rfl | ht
      · exact absurd huntil (not_lt.mpr huntil')
      · rcases hgoes.kept op g hg with hg₀ | ⟨w₀,hw₀,hl₀,he₀⟩
        · exact ih.kept t ht l n hn op g hg₀ hl huntil
        · exact he₀ ▸ ih.write t ht l n hn op w₀ hw₀ (hl₀.symm.trans hl)

/-- A live lineage's mark, its seals above it in order, and nothing of it at or below it. -/
structure PrefixOk (d : Durability E T I) (l : Key) (st : LineageState E) : Prop where
  durable_sealed : UpTo st.durableThrough st.sealedThrough
  write_above : ∀ op w, d.writes.get op = some w → w.lineage = l →
    above st.durableThrough w.epoch = true
  held_above : ∀ op h a, d.held.get op = some h → h.write = some a → a.lineage = l →
    above st.durableThrough a.epoch = true
  seals_ordered : (slots st.leading (sealsOf d.seals l)).Pairwise fun a b => a.through < b.through
  seals_above : ∀ x ∈ slots st.leading (sealsOf d.seals l), above st.durableThrough x.through = true
  seals_last : ∀ x, (slots st.leading (sealsOf d.seals l)).getLast? = some x →
    st.sealedThrough = some x.through

theorem Inv.prefixOk {st : LineageState E} (h : Inv d) (hst : d.lineages.get l=some st)
    (hlive : st.ended=false) : PrefixOk d l st := by
  have hok:=h.marks l st hst hlive
  refine {
    durable_sealed:=fun m hm=>?_
    write_above:=fun op w hw hl=>StageOk.above (hok.write_at op w hw hl)
    held_above:=fun op h a hh ha hl=>(hok.held_at op h a hh ha hl).1
    seals_ordered:=hok.queue.ordered.imp fun hlt=>hlt.1
    seals_above:=hok.queue.above
    seals_last:=fun x hx=>by rw [hok.queue.last,hx]; rfl }
  rw [hok.queue.last]
  cases hlast : (slots st.leading (sealsOf d.seals l)).getLast? with
  | none=>exact ⟨m,hm,le_rfl⟩
  | some x =>
    have habove:=hok.queue.above x (List.mem_of_getLast? hlast)
    rw [hm] at habove
    exact ⟨x.through,rfl,(above_some.mp habove).le⟩

/-- A mark has nothing uncovered or held at or below it, `Durable` entries rise, and no later
failure suspects a write at or below one. -/
theorem prefix_and_finality (run : Run ticks d) :
    (∀ l st, d.live l = some st → PrefixOk d l st) ∧
      (∀ l, (durables l (history ticks)).Pairwise (· < ·)) ∧
      ∀ t ∈ ticks, ∀ l n, Event.durable l n ∈ t.events → ∀ f ∈ d.failures,
        t.after.nextFailure ≤ f.id.seq → ∀ x ∈ d.suspects f, x.lineage = l → n < x.epoch := by
  have hfinal:=run.tellsFinal
  refine ⟨fun l st hst=>?_,run.marksTold.ordered,fun t ht l n hn f hf hlater x hx hl=>?_⟩
  · obtain ⟨hget,hlive⟩:=live_eq_some.mp hst
    exact run.keeps.1.prefixOk hget hlive
  · rcases mem_suspects.mp hx with ⟨op,w,hw, -,rfl⟩ | ⟨op,g,hg,hnamed,rfl⟩
    · exact hfinal.write t ht l n hn op w hw hl
    · have huntil : f.id.seq < g.until_:=by
        simp only [Gone.namedBy,Failure.names,Bool.and_eq_true,decide_eq_true_eq] at hnamed
        simpa using hnamed.1.1.2
      exact hfinal.kept t ht l n hn op g hg hl (hlater.trans_lt huntil)

/-- A run that made epoch 1 durable and then observed a failure suspecting a write of epoch 2. -/
theorem prefix_and_finality_after_failure :
    ∃ (ticks : List (Tick ℕ Unit ℕ)) (d : Durability ℕ Unit ℕ), Run ticks d ∧
      (durables 0 (history ticks) = [1] ∧
        d.failures.map (fun f => (d.suspects f).map Suspect.epoch) = [[2]]) ∧
      (∀ l st, d.live l = some st → PrefixOk d l st) ∧
      (∀ l, (durables l (history ticks)).Pairwise (· < ·)) ∧
      ∀ t ∈ ticks, ∀ l n, Event.durable l n ∈ t.events → ∀ f ∈ d.failures,
        t.after.nextFailure ≤ f.id.seq → ∀ x ∈ d.suspects f, x.lineage = l → n < x.epoch := by
  obtain ⟨ticks,d,run,hcheck⟩:=(smallCore_run List.Pairwise.nil).play make
    makes_of_make flushedThenFailed
    (fun ticks d=>decide (durables 0 (history ticks)=[1] ∧
      d.failures.map (fun f=>(d.suspects f).map Suspect.epoch)=[[2]])) (by decide +kernel)
  exact ⟨ticks,d,run,of_decide_eq_true hcheck,prefix_and_finality run⟩

end WindowsThreadpoolSys.DurableIoring
