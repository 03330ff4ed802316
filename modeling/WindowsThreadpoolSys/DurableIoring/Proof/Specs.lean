import WindowsThreadpoolSys.DurableIoring.Durability.Operations
import WindowsThreadpoolSys.DurableIoring.Proof.WindowLevels
import WindowsThreadpoolSys.DurableIoring.Proof.TableLevels

/-! One lemma for each transition, taking its success apart: which tables changed, to what, and that
nothing else did. Every later proof starts from these and never unfolds a transition again. -/
namespace WindowsThreadpoolSys.DurableIoring
open Library List Table

namespace Durability

variable {E T I : Type} [LinearOrder E] {d d' : Durability E T I}

/-! ## Liveness -/

variable {l : Key}

theorem live_eq_some {st : LineageState E} :
    d.live l=some st ↔ d.lineages.get l=some st ∧ st.ended=false := by
  unfold live
  rw [Option.filter_eq_some_iff]
  simp

theorem isLive_iff : d.isLive l=true ↔ ∃ st,d.lineages.get l=some st ∧ st.ended=false := by
  unfold isLive
  rw [Option.isSome_iff_exists]
  exact exists_congr fun st=>live_eq_some

omit [LinearOrder E] in
theorem ne_of_ended {lineages : Table Key (LineageState E)} {l' : Key} {st st' : LineageState E}
    (hst : lineages.get l=some st) (hended : st.ended=true) (hst' : lineages.get l'=some st')
    (hlive : st'.ended=false) : l' ≠ l := by
  rintro rfl
  rw [hst] at hst'
  cases hst'
  rw [hended] at hlive
  cases hlive

theorem not_isLive {st : LineageState E} (hst : d.lineages.get l=some st) (hended : st.ended=true) :
    ¬d.isLive l=true := by
  intro hlive
  obtain ⟨st',hst',hlive⟩:=isLive_iff.mp hlive
  exact ne_of_ended hst hended hst' hlive rfl

/-! ## Recording a write and letting one go -/

theorem inFlight_ok {a : Accepted E T} {wasHeld : Bool} (h : d.inFlight a wasHeld=.ok d') :
    ∃ inFlightByEpoch spans window, d.isLive a.lineage=true ∧
      Counts.countUp d.inFlightByEpoch d.capacity.operations a.lineage a.epoch =
        some inFlightByEpoch ∧
      d.spans.enter d.capacity.operations ⟨a.lineage,a.file,.unsealed⟩ a.domains=.ok spans ∧
      d.window.hold d.capacity.operations a.op .uncovered=.ok window ∧ d'={ d with
        nextPush := if wasHeld then d.nextPush else max d.nextPush (a.op+1)
        inFlightByEpoch := inFlightByEpoch
        spans := spans
        window := window
        writes := d.writes.insert a.op (a.record d.nextFailure) } := by
  unfold inFlight at h
  by_cases hlive : d.isLive a.lineage
  swap
  · rw [if_pos (by simpa using hlive)] at h
    cases h
  rw [if_neg (by simpa using hlive)] at h
  split at h
  · cases h
  · next counts hcount =>
    simp only [bind_eq_ok] at h
    obtain ⟨spans,hspans,window,hwindow,h⟩:=h
    split at h
    · cases h
    · next writes hwrites =>
      obtain ⟨-,rfl⟩:=insertWithin_eq_some.mp hwrites
      cases h
      exact ⟨counts,spans,window,hlive,hcount,hspans,hwindow,rfl⟩

omit [LinearOrder E] in
theorem keep_ok {kept kept' : Kept E} {limit : ℕ} {g : Gone E} (h : kept.keep limit g=.ok kept') :
    kept.get g.op=none ∧ kept'=kept.insert g.op g := by
  unfold Kept.keep at h
  split_ifs at h with hget
  split at h
  · cases h
  · next hins =>
    cases h
    exact ⟨by simpa using hget,(insertWithin_eq_some.mp hins).2⟩

variable {op : OpId}

theorem letGoOne_ok {w : Write E T} (hw : d.writes.get op=some w) (h : d.letGoOne op=.ok d') :
    ∃ spans window kept, d.spans.leave w.spanKey .uncoveredInNoSpan=.ok spans ∧
      d.window.release w.op .uncovered=.ok window ∧
      (window.suspected w.op=true ∧ d.kept.get w.op=none ∧
          kept=d.kept.insert w.op (w.gone d.nextFailure) ∨
        window.suspected w.op=false ∧ kept=d.kept) ∧ d'={ d with
        writes := d.writes.erase op,spans := spans,window := window,kept := kept } := by
  unfold letGoOne at h
  simp only [hw,forgetWrite,bind_eq_ok] at h
  obtain ⟨spans,hspans,window,hwindow,kept,hkept,h⟩:=h
  cases h
  refine ⟨spans,window,kept,hspans,hwindow,?_,rfl⟩
  unfold keepSuspected at hkept
  split_ifs at hkept with hsuspected
  · obtain ⟨hnone,rfl⟩:=keep_ok hkept
    exact .inl ⟨hsuspected,hnone,rfl⟩
  · cases hkept
    exact .inr ⟨by simpa using hsuspected,rfl⟩

theorem letGoOne_none (hw : d.writes.get op=none) (h : d.letGoOne op=.ok d') : d'=d := by
  unfold letGoOne at h
  simp only [hw] at h
  cases h
  rfl

theorem letGoOne_frame (h : d.letGoOne op=.ok d') : ∃ spans window kept, d'={ d with
        writes := d.writes.erase op,spans := spans,window := window,kept := kept } := by
  cases hw : d.writes.get op with
  | none =>
    have hsame : d.writes.erase op=d.writes:=Table.ext_get fun k=>by
      rw [get_erase]
      split_ifs with hk
      · rw [hk,hw]
      · rfl
    exact ⟨d.spans,d.window,d.kept,by rw [letGoOne_none hw h,hsame]⟩
  | some w =>
    obtain ⟨spans,window,kept, -, -, -,rfl⟩:=letGoOne_ok hw h
    exact ⟨spans,window,kept,rfl⟩

theorem letGo_induction {leaves : Write E T → Bool} (P : Durability E T I → Prop)
    (hstep : ∀ s s' op w,P s → s.writes.get op=some w → leaves w=true → s.letGoOne op=.ok s' → P s')
    (hd : P d) (h : d.letGo leaves=.ok d') : P d' := by
  have hall:=foldlM_invariant
    (fun s=>P s ∧ ∀ op w,s.writes.get op=some w → d.writes.get op=some w)
    (fun s e s' he hs hone=>?_) ⟨hd,fun _ _ hw=>hw⟩ h
  · exact hall.1
  obtain ⟨hmem,hleaves⟩:=mem_filter.mp he
  refine ⟨?_,fun op w hw=>?_⟩
  · cases hw : s.writes.get e.1 with
    | none=>rw [letGoOne_none hw hone]; exact hs.1
    | some w =>
      have heq : w=e.2:=by
        have:=hs.2 _ _ hw
        rw [mem_entries.mp hmem] at this
        exact (Option.some.inj this).symm
      exact hstep s s' e.1 w hs.1 hw (heq ▸ hleaves) hone
  · obtain ⟨spans,window,kept,rfl⟩:=letGoOne_frame hone
    rw [get_erase] at hw
    split_ifs at hw
    exact hs.2 op w hw

theorem letGo_ok {leaves : Write E T → Bool} (h : d.letGo leaves=.ok d') : ∃ spans window kept,
      d'={ d with
        writes := d.writes.filter fun _ w => !leaves w
        spans := spans
        window := window
        kept := kept } := by
  unfold letGo at h
  have hend:=foldlM_progress
    (fun (rest : List (OpId × Write E T)) s =>
      (rest.Pairwise fun a b=>a.1 < b.1) ∧
      (∀ e ∈ rest,d.writes.get e.1=some e.2 ∧ leaves e.2=true) ∧
      ∃ spans window kept,
        s={ d with
          writes:=d.writes.filter fun k w=>!leaves w || decide (k ∈ rest.map Prod.fst)
          spans:=spans
          window:=window
          kept:=kept })
    (fun a rest s s' hs hone=>?_) ⟨d.writes.sorted.filter _,?_,?_⟩ h
  · obtain ⟨-, -,spans,window,kept,rfl⟩:=hend
    exact ⟨spans,window,kept,by simp⟩
  · obtain ⟨hsorted,hrest,spans,window,kept,rfl⟩:=hs
    obtain ⟨ha,hsorted⟩:=pairwise_cons.mp hsorted
    obtain ⟨spans',window',kept',rfl⟩:=letGoOne_frame hone
    refine ⟨hsorted,fun e he=>hrest e (mem_cons_of_mem _ he),spans',window',kept',?_⟩
    have hnot : a.1 ∉ rest.map Prod.fst:=fun hmem=>by
      obtain ⟨b,hb,heq⟩:=mem_map.mp hmem
      exact absurd heq (ha b hb).ne'
    obtain ⟨hget,hleaves⟩:=hrest a mem_cons_self
    rw [map_cons,erase_pending (p:=fun _ w=>!leaves w) hget (by simp [hleaves]) hnot]
  · intro e he
    obtain ⟨hmem,hleaves⟩:=mem_filter.mp he
    exact ⟨mem_entries.mp hmem,hleaves⟩
  · refine ⟨d.spans,d.window,d.kept,?_⟩
    rw [filter_pending_all]
    intro k w hw hleaves
    exact mem_map.mpr ⟨(k,w),mem_filter.mpr ⟨mem_entries.mpr hw,by simpa using hleaves⟩,rfl⟩

theorem staysEnded_leave {w₀ : Write E T} {spans : Spans} {lost : Inconsistency}
    (hgoes : d.staysEnded l w₀=false) (hleave : d.spans.leave w₀.spanKey lost=.ok spans)
    (hspans : d'.spans=spans) (w : Write E T) : d'.staysEnded l w=d.staysEnded l w := by
  unfold staysEnded at hgoes ⊢
  congr 1
  cases hstage : w.stage with
  | inFlight | completed=>rfl
  | named q =>
    simp only [hspans]
    obtain ⟨entry,hentry,hnew⟩:=Spans.leave_ok hleave
    by_cases hkey : (⟨l,w.file,.sealed q⟩ : SpanKey)=w₀.spanKey
    · -- The entry is the leaving write's own, whose flush is not out, and keeps its flags if it stays.
      have hout : (entry.flushed && !entry.answered)=false:=by
        obtain ⟨hl,hf,hq⟩:=SpanKey.mk.inj hkey
        have hnamed : w₀.stage=.named q:=by
          cases hs : w₀.stage <;> simp_all [Span.ofStage]
        simp only [hnamed,← hl,← hf,hkey,hentry] at hgoes
        exact (Bool.or_eq_false_iff.mp hgoes).2
      rw [hkey,hentry,hnew]
      split_ifs
      · rw [get_erase_self]
        exact hout.symm
      · rw [get_insert_self]
    · rw [hnew]
      split_ifs
      · rw [get_erase,if_neg hkey]
      · rw [get_insert_of_ne _ _ hkey]

theorem letGoEnded_ok (h : d.letGoEnded l=.ok d') : ∃ spans window kept, d'={ d with
        writes := d.writes.filter fun _ w => d.staysEnded l w
        spans := spans
        window := window
        kept := kept } := by
  unfold letGoEnded at h
  have hend:=foldlM_progress
    (fun (rest : List (OpId × Write E T)) s =>
      (rest.Pairwise fun a b=>a.1 < b.1) ∧ (∀ e ∈ rest,d.writes.get e.1=some e.2) ∧
      (∀ w,s.staysEnded l w=d.staysEnded l w) ∧
      ∃ spans window kept,
        s={ d with
          writes:=d.writes.filter fun k w=>d.staysEnded l w || decide (k ∈ rest.map Prod.fst)
          spans:=spans
          window:=window
          kept:=kept })
    (fun a rest s s' hs hone=>?_) ⟨d.writes.sorted,fun e=>mem_entries.mp,fun _=>rfl,?_⟩ h
  · obtain ⟨-, -, -,spans,window,kept,rfl⟩:=hend
    exact ⟨spans,window,kept,by simp⟩
  · obtain ⟨hsorted,hrest,hstays,spans,window,kept,hs⟩:=hs
    obtain ⟨ha,hsorted⟩:=pairwise_cons.mp hsorted
    have hget:=hrest a mem_cons_self
    have hnot : a.1 ∉ rest.map Prod.fst:=fun hmem=>by
      obtain ⟨b,hb,heq⟩:=mem_map.mp hmem
      exact absurd heq (ha b hb).ne'
    refine ⟨hsorted,fun e he=>hrest e (mem_cons_of_mem _ he),?_⟩
    split_ifs at hone with hstay
    · cases hone
      refine ⟨hstays,spans,window,kept,?_⟩
      rw [hstays] at hstay
      rw [hs,map_cons,filter_pending_of_stays hget hstay]
    · have hgoes : s.staysEnded l a.2=false:=by simpa using hstay
      have hw : s.writes.get a.1=some a.2:=by
        rw [hs]
        simp [hget,Option.filter_some]
      obtain ⟨spans',window',kept',hleave, -, -,hs'⟩:=letGoOne_ok hw hone
      refine ⟨fun w=>?_,spans',window',kept',?_⟩
      · rw [staysEnded_leave hgoes hleave (by rw [hs']),hstays]
      · rw [hstays] at hgoes
        rw [hs',hs,map_cons,erase_pending (p:=fun _ w=>d.staysEnded l w) hget hgoes hnot]
  · refine ⟨d.spans,d.window,d.kept,?_⟩
    rw [filter_pending_all]
    intro k w hw _
    exact mem_map.mpr ⟨(k,w),mem_entries.mpr hw,rfl⟩

theorem letGoEnded_induction (P : Durability E T I → Prop)
    (hstep : ∀ s s' op w,P s → s.writes.get op=some w → s.staysEnded l w=false →
      s.letGoOne op=.ok s' → P s') (hd : P d) (h : d.letGoEnded l=.ok d') : P d' := by
  have hall:=foldlM_invariant
    (fun s=>P s ∧ ∀ op w,s.writes.get op=some w → d.writes.get op=some w)
    (fun s e s' he hs hone=>?_) ⟨hd,fun _ _ hw=>hw⟩ h
  · exact hall.1
  split_ifs at hone with hstay
  · cases hone
    exact hs
  refine ⟨?_,fun op w hw=>?_⟩
  · cases hw : s.writes.get e.1 with
    | none=>rw [letGoOne_none hw hone]; exact hs.1
    | some w =>
      have heq : w=e.2:=by
        have:=hs.2 _ _ hw
        rw [mem_entries.mp he] at this
        exact (Option.some.inj this).symm
      exact hstep s s' e.1 w hs.1 hw (by rw [heq]; simpa using hstay) hone
  · obtain ⟨spans,window,kept,rfl⟩:=letGoOne_frame hone
    rw [get_erase] at hw
    split_ifs at hw
    exact hs.2 op w hw

/-! ## Holding an operation and issuing one -/

theorem hold_ok {write : Option (Accepted E T)} {gate : Gate E} (h : d.hold op write gate=.ok d') :
    (∀ a,write=some a → d.isLive a.lineage=true) ∧ d.isLive gate.lineage=true ∧ (write=none ∧
          d'={ d with held := d.held.insert op ⟨op,none,gate,false⟩ } ∨
        ∃ a heldByEpoch,write=some a ∧
          Counts.countUp d.heldByEpoch d.capacity.operations a.lineage a.epoch=some heldByEpoch ∧
          d'={ d with
            nextPush := max d.nextPush (op+1)
            gated := d.gated.insert ⟨a.lineage,a.epoch,op⟩ gate
            heldByEpoch := heldByEpoch
            held := d.held.insert op ⟨op,some a,gate,false⟩ }) := by
  unfold hold at h
  by_cases hlive : (!(write.all fun w=>d.isLive w.lineage) || !d.isLive gate.lineage)=true
  · rw [if_pos hlive] at h
    cases h
  rw [if_neg hlive] at h
  simp only [Bool.or_eq_true,Bool.not_eq_eq_eq_not,Bool.not_true,not_or,Bool.not_eq_false] at hlive
  refine ⟨fun a ha=>by simpa [ha] using hlive.1,hlive.2,?_⟩
  cases write with
  | none =>
    simp only [bind_eq_ok] at h
    obtain ⟨mid,hmid,h⟩:=h
    cases hmid
    split at h
    · cases h
    · next held hins =>
      obtain ⟨-,rfl⟩:=insertWithin_eq_some.mp hins
      cases h
      exact .inl ⟨rfl,rfl⟩
  | some a =>
    simp only at h
    split at h
    · next gated heldByEpoch hgated hcount =>
      obtain ⟨-,rfl⟩:=insertWithin_eq_some.mp hgated
      rw [bind_eq_ok] at h
      obtain ⟨mid,hmid,h⟩:=h
      cases hmid
      split at h
      · cases h
      · next held hins =>
        obtain ⟨-,rfl⟩:=insertWithin_eq_some.mp hins
        cases h
        exact .inr ⟨a,heldByEpoch,rfl,hcount,rfl⟩
    · cases h
    · cases h

theorem issued_ok (h : d.issued op=.ok d') : ∃ g,d.held.get op=some g ∧ g.ready=true ∧
      (g.write=none ∧ d'={ d with held := d.held.erase op } ∨
        ∃ a,g.write=some a ∧ inFlight { d with
            held := d.held.erase op
            heldByEpoch := d.heldByEpoch.countDown a.lineage a.epoch } a true=.ok d') := by
  unfold issued at h
  split at h
  · cases h
  · next g hg =>
    simp only at h
    split_ifs at h with hready
    have hready : g.ready=true:=by simpa using hready
    refine ⟨g,hg,hready,?_⟩
    split at h
    · next hwrite =>
      cases h
      exact .inl ⟨hwrite,rfl⟩
    · next a hwrite=>exact .inr ⟨a,hwrite,h⟩

/-! ## Observing a failure -/

def observedFailure (d : Durability E T I) (cause : FailureCause) (reach : Reach) (only : Option Key)
    (slot : ℕ) : Failure I :=
  { id := ⟨d.instance_, d.nextFailure⟩, cause := cause, reach := reach, only := only,
    observed := d.clock d.reads, standing := .open, token := slot,
    listed := d.observedWrites reach only }

theorem observe_ok {c c' : Change E T I} {cause : FailureCause} {reach : Reach}
    {only : Option Key} {id : FailureId} (h : observe c cause reach only=.ok (id,c')) :
    ∃ slot freeTokens window told,
      c.core.freeTokens=slot::freeTokens ∧ slot < c.core.tokens.length ∧
      c.core.failures.length < c.core.capacity.failures c.core.served.length ∧
      (c.core.suspects (c.core.observedFailure cause reach only slot)).foldlM
        (fun (win : Window) w => win.hold c.core.capacity.operations w.op .suspect) c.core.window =
          .ok window ∧ id=⟨c.core.instance_,c.core.nextFailure⟩ ∧ c'.core={ c.core with
        nextFailure := c.core.nextFailure+1
        freeTokens := freeTokens
        tokens := c.core.tokens.set slot ⟨c.core.nextFailure,true⟩
        reads := c.core.reads+1
        failures := c.core.failures++[c.core.observedFailure cause reach only slot]
        window := window
        told := told } ∧
      c'.due={ c.due with events := c.due.events ++
        [.failed { id := id,token := ⟨id,slot⟩,cause := cause
                   observed := c.core.clock c.core.reads }] } := by
  unfold observe at h
  simp only at h
  split at h
  · cases h
  · next slot freeTokens hfree =>
    split_ifs at h with hslot hroom
    simp only [bind_eq_ok,Except.ok.injEq,Prod.mk.injEq] at h
    obtain ⟨window,hwindow,rfl,rfl⟩:=h
    exact ⟨slot,freeTokens,window,_,hfree,not_le.mp hslot,not_le.mp hroom,hwindow,rfl,rfl,rfl⟩

theorem mark_ok {kind : MarkingKind} (h : d.mark op kind=.ok d') :
    ∃ reads told,d'={ d with reads := reads,told := told } := by
  unfold mark at h
  simp only at h
  split_ifs at h
  · cases h
    exact ⟨d.reads,d.told,rfl⟩
  · split at h
    · cases h
      exact ⟨d.reads,d.told,rfl⟩
    · cases h
      exact ⟨_,_,rfl⟩

/-! ## Answers and covering -/

theorem answer_ok {through : E} {file : IoTargetKey} {failedNow : Bool} {q : ℕ}
    {domains : DomainList} (h : d.answer l through file failedNow=.ok (q,domains,d')) :
    ∃ s unanswered failed entry, s ∈ sealsOf d.seals l ∧ s.through=through ∧ s.seq=q ∧
      s.stage=.flushing unanswered failed ∧
      d.spans.get ⟨l,file,.sealed q⟩=some entry ∧ entry.flushed=true ∧
      entry.answered=false ∧ entry.domains=domains ∧ d'={ d with
        spans := d.spans.insert ⟨l,file,.sealed q⟩
          { entry with answered := true,ok := !failedNow }
        seals := d.seals.insert ⟨l,q⟩
          { s with
            stage := .flushing (unanswered-1) (failed || failedNow)
            answered := s.answered || failedNow } } := by
  unfold answer at h
  split at h
  · cases h
  · next s hs =>
    have hmem:=List.mem_of_find?_eq_some hs
    have hthrough:=List.find?_some hs
    split at h
    · cases h
    · cases h
    · next unanswered failed hstage =>
      split at h
      · cases h
      · next entry hentry =>
        split_ifs at h with hout
        cases h
        simp only [Bool.and_eq_true,Bool.not_eq_eq_eq_not,Bool.not_true] at hout
        exact ⟨s,unanswered,failed,entry,hmem,by simpa using hthrough,rfl,hstage,hentry,
          hout.1,hout.2,rfl,rfl⟩

theorem cover_ok {q : ℕ} (h : d.cover l q=.ok d') : d'=d ∨ ∃ mid reads told,
        d.letGo (fun w => ((d.writes.vals.filter (d.isCovered l q)).map Write.op).contains w.op) =
          .ok mid ∧
        d'={ mid with reads := reads,told := told } := by
  unfold cover at h
  split at h
  · cases h
    exact .inl rfl
  · split at h
    · cases h
      exact .inl rfl
    · cases h
      exact .inl rfl
    · simp only [bind_eq_ok] at h
      obtain ⟨mid,hmid,hmarks⟩:=h
      refine .inr ?_
      have hend:=foldlM_invariant
        (fun s=>∃ reads told,s={ mid with reads:=reads,told:=told })
        (fun s w s' _ hs hmark=>?_) ⟨mid.reads,mid.told,rfl⟩ hmarks
      · obtain ⟨reads,told,rfl⟩:=hend
        exact ⟨mid,reads,told,hmid,rfl⟩
      · obtain ⟨reads,told,rfl⟩:=hs
        obtain ⟨reads',told',rfl⟩:=mark_ok hmark
        exact ⟨reads',told',rfl⟩

theorem cover_frame {q : ℕ} (h : d.cover l q=.ok d') : ∃ writes spans window kept reads told,
    d'={ d with writes,spans,window,kept,reads,told } := by
  rcases cover_ok h with rfl | ⟨mid,reads,told,hgo,rfl⟩
  · exact ⟨_,_,_,_,_,_,rfl⟩
  · obtain ⟨spans,window,kept,rfl⟩:=letGo_ok hgo
    exact ⟨_,_,_,_,_,_,rfl⟩

/-! ## Abandoned epochs -/

theorem forgetAbandoned_ok {through : Option E} (h : d.forgetAbandoned l through=.ok d') : ∃ window,
      (d.abandoned.entries.filter fun e => decide (e.1.lineage=l) &&
          through.all fun t => decide (e.1.epoch ≤ t)).foldlM
        (fun (win : Window) e => win.release e.2 .abandoned) d.window=.ok window ∧ d'={ d with
        window := window
        abandoned := d.abandoned.filter fun k _ =>
          !(decide (k.lineage=l) && through.all fun t => decide (k.epoch ≤ t)) } := by
  unfold forgetAbandoned at h
  simp only [bind_eq_ok] at h
  obtain ⟨window,hwindow,h⟩:=h
  cases h
  exact ⟨window,hwindow,rfl⟩

theorem abandonEpoch_ok {w : Suspect E} (h : d.abandonEpoch w=.ok d') : d'=d ∨ ∃ window st,
        d.lineages.get w.lineage=some st ∧ st.ended=false ∧ above st.durableThrough w.epoch=true ∧
        d.abandoned.get ⟨w.lineage,w.epoch⟩=none ∧
        d.window.hold d.capacity.operations w.op .abandoned=.ok window ∧ d'={ d with
          window := window,abandoned := d.abandoned.insert ⟨w.lineage,w.epoch⟩ w.op } := by
  unfold abandonEpoch at h
  simp only at h
  split_ifs at h with hskip
  · cases h
    exact .inl rfl
  · simp only [Bool.or_eq_true,Bool.not_eq_eq_eq_not,Bool.not_true,not_or,
      Bool.not_eq_false,Bool.not_eq_true] at hskip
    simp only [bind_eq_ok] at h
    obtain ⟨window,hwindow,h⟩:=h
    split at h
    · cases h
    · next abandoned hins =>
      obtain ⟨-,rfl⟩:=insertWithin_eq_some.mp hins
      cases h
      obtain ⟨habove,hnone⟩:=hskip
      cases hlive : d.live w.lineage with
      | none=>simp [hlive] at habove
      | some st =>
        obtain ⟨hget,hended⟩:=live_eq_some.mp hlive
        simp only [hlive] at habove
        exact .inr ⟨window,st,hget,hended,habove,by simpa using hnone,hwindow,rfl⟩

theorem abandonEpochs_frame {f : Failure I} (h : d.abandonEpochs f=.ok d') :
    ∃ window abandoned,d'={ d with window := window,abandoned := abandoned } := by
  refine foldlM_invariant
    (fun s=>∃ window abandoned,s={ d with window:=window,abandoned:=abandoned })
    (fun s w s' _ hs hone=>?_) ⟨d.window,d.abandoned,rfl⟩ h
  obtain ⟨window,abandoned,rfl⟩:=hs
  rcases abandonEpoch_ok hone with rfl | ⟨window',st, -, -, -, -, -,rfl⟩
  · exact ⟨window,abandoned,rfl⟩
  · exact ⟨window',_,rfl⟩

end Durability

end WindowsThreadpoolSys.DurableIoring
