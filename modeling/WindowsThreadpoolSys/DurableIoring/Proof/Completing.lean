import WindowsThreadpoolSys.DurableIoring.Proof.Quiescent

/-! A write of a live lineage that succeeds stays, completed. A write that fails, or whose lineage has
ended, is let go, and the last one an ended lineage waits for retires it. -/
namespace WindowsThreadpoolSys.DurableIoring
open Library Durability Table

variable {E T I : Type} [LinearOrder E] {d d' : Durability E T I} {l : Key} {op : OpId}
  {w : Write E T}

/-! ## A write in flight let go -/

theorem Inv.letGoInFlight (h : Inv d) (hw : d.writes.get op=some w)
    (hstage : w.stage=.inFlight) (hone : d.letGoOne op=.ok d') :
    Inv { d' with inFlightByEpoch := d.inFlightByEpoch.countDown w.lineage w.epoch } := by
  have hleaves : Leaves d.lineages d.spans d.sealDomains d.lists w:=by
    intro q hnamed
    rw [hstage] at hnamed
    cases hnamed
  have hbeside:=h.beside.letGoOne hw hleaves (h.counts.erase_inFlight hw hstage) hone
  obtain ⟨spans,window,kept,hleave, -, -,rfl⟩:=letGoOne_ok hw hone
  exact ⟨hbeside.tables,h.cover.letGo hleave,h.ends.letGo h.spans hw hleave,hbeside.window⟩

theorem letGoOne_completed (hw : d.writes.get op=some w) (hstage : w.stage=.inFlight) : letGoOne
        { d with writes := d.writes.insert op { w with stage := .completed } } op =
      d.letGoOne op := by
  have herase : (d.writes.insert op { w with stage:=.completed }).erase op =
      d.writes.erase op:=by
    refine ext_get fun op'=>?_
    rw [get_erase,get_erase]
    split_ifs with hsame
    · rfl
    · rw [get_insert_of_ne _ _ hsame]
  unfold letGoOne
  simp only [get_insert_self,hw,herase]
  unfold forgetWrite Write.spanKey keepSuspected Write.gone
  simp only [hstage,Span.ofStage]

theorem Durability.completed_ok {end_ : WriteEnd} {c : Change E T I}
    (hok : d.completed op end_=.ok c) : ∃ w,d.writes.get op=some w ∧ w.stage=.inFlight ∧
      (end_=.succeeded ∧ d.isLive w.lineage=true ∧ advance (begin_ { d with
              writes := d.writes.insert op { w with stage := .completed }
              inFlightByEpoch := d.inFlightByEpoch.countDown w.lineage w.epoch })=.ok c ∨
        ∃ mid reads told,d.letGoOne op=.ok mid ∧ (end_=.succeeded → d.isLive w.lineage=false) ∧
          advance (begin_ (if d.isLive w.lineage then
              { mid with
                reads := reads,told := told
                inFlightByEpoch := d.inFlightByEpoch.countDown w.lineage w.epoch }
            else retireIfDrained { mid with
                reads := reads,told := told
                inFlightByEpoch := d.inFlightByEpoch.countDown w.lineage w.epoch } w.lineage)) =
            .ok c) := by
  unfold completed at hok
  cases hw : d.writes.get op with
  | none =>
    rw [hw] at hok
    cases hok
  | some w =>
    simp only [hw] at hok
    by_cases hstage : w.stage=.inFlight
    · rw [if_neg (not_not.mpr hstage)] at hok
      refine ⟨w,rfl,hstage,?_⟩
      -- letting the write go leaves the counts
      have hcounts : ∀ mid,d.letGoOne op=.ok mid → mid.inFlightByEpoch=d.inFlightByEpoch:=by
        intro mid hmid
        obtain ⟨spans,window,kept,rfl⟩:=letGoOne_frame hmid
        rfl
      cases end_ with
      | succeeded =>
        cases hlive : d.isLive w.lineage with
        | true =>
          simp only [hlive,Bool.not_true,if_neg Bool.false_ne_true] at hok
          exact .inl ⟨rfl,rfl,hok⟩
        | false =>
          simp only [hlive,Bool.not_false,if_true,letGoOne_completed hw hstage] at hok
          rw [bind_eq_ok] at hok
          obtain ⟨mid,hmid,hok⟩:=hok
          refine .inr ⟨mid,mid.reads,mid.told,hmid,fun _=>rfl,?_⟩
          rw [if_neg Bool.false_ne_true,← hcounts mid hmid]
          exact hok
      | failed fault =>
        simp only at hok
        rw [bind_eq_ok] at hok
        obtain ⟨mid,hmid,hok⟩:=hok
        rw [bind_eq_ok] at hok
        obtain ⟨d₂,hmark,hok⟩:=hok
        obtain ⟨reads,told,rfl⟩:=mark_ok hmark
        refine .inr ⟨mid,reads,told,hmid,fun h=>(by cases h),?_⟩
        rw [← hcounts mid hmid]
        cases hlive : d.isLive w.lineage with
        | true =>
          simp only [hlive,Bool.not_true,if_neg Bool.false_ne_true] at hok
          rw [if_pos rfl]
          exact hok
        | false =>
          simp only [hlive,Bool.not_false,if_true] at hok
          rw [if_neg Bool.false_ne_true]
          exact hok
    · rw [if_pos hstage] at hok
      cases hok

/-! ## Retiring -/

structure Drained (d : Durability E T I) (l : Key) : Prop where
  other : l ≠ defaultLineage
  writes : ∀ op w, d.writes.get op = some w → w.lineage ≠ l
  seals : ∀ k s, d.seals.get k = some s → k.lineage ≠ l
  held : ∀ op h a, d.held.get op = some h → h.write = some a → a.lineage ≠ l
  gates : ∀ op h, d.held.get op = some h → h.ready = false → h.gate.lineage ≠ l
  abandoned : ∀ k op, d.abandoned.get k = some op → k.lineage ≠ l

theorem Inv.dropLineage (h : Inv d) (hdrained : Drained d l) :
    Inv { d with lineages := d.lineages.erase l } := by
  have hback : ∀ {l' : Key} {st : LineageState E},(d.lineages.erase l).get l'=some st →
      d.lineages.get l'=some st:=fun hst=>get_of_erase hst
  have hforth : ∀ {l' : Key} {st : LineageState E},l'≠l → d.lineages.get l'=some st →
      (d.lineages.erase l).get l'=some st:=by
    intro l' st hne hst
    rw [get_erase,if_neg hne,hst]
  have ht:=h.toTablesOk
  have htables : TablesOk { d with lineages:=d.lineages.erase l } :=
    { ht with
      clocks:={ ht.clocks with
        lineage_clock:=fun l' st hst=>ht.clocks.lineage_clock l' st (hback hst) }
      lives :=
        { default_live:=by
            obtain ⟨st,hst,hlive⟩:=ht.lives.default_live
            exact ⟨st,hforth hdrained.other.symm hst,hlive⟩
          write_lineage:=fun op w hw=>by
            obtain ⟨st,hst,hrest⟩:=ht.lives.write_lineage op w hw
            exact ⟨st,hforth (hdrained.writes op w hw) hst,hrest⟩
          seal_lineage:=fun k s hs=>by
            obtain ⟨st,hst,hrest⟩:=ht.lives.seal_lineage k s hs
            exact ⟨st,hforth (hdrained.seals k s hs) hst,hrest⟩
          domain_seal:=ht.lives.domain_seal }
      marks:=fun l' st hst hlive=>ht.marks l' st (hback hst) hlive
      parts:={ ht.parts with
        named_asked:=fun op w q st hw hstage hst =>
          ht.parts.named_asked op w q st hw hstage (hback hst)
        asked_write:=fun k part st hpart hans hst =>
          ht.parts.asked_write k part st hpart hans (hback hst) }
      files:={ ht.files with
        write_routed:=fun op w st hw hst=>ht.files.write_routed op w st hw (hback hst) }
      suspects:={ ht.suspects with
        write_named:=fun f hf op w st hw hst =>
          ht.suspects.write_named f hf op w st hw (hback hst) } }
  have hends : EndsOk (d.lineages.erase l) d.writes d.held d.seals d.spans d.abandoned :=
    { ended_write:=fun op w st hw hst=>h.ends.ended_write op w st hw (hback hst)
      ended_seal:=fun k s st hs hst=>h.ends.ended_seal k s st hs (hback hst)
      held_lineage:=fun op g a hg ha=>by
        obtain ⟨st,hst,hlive⟩:=h.ends.held_lineage op g a hg ha
        exact ⟨st,hforth (hdrained.held op g a hg ha) hst,hlive⟩
      gate_lineage:=fun op g hg hready=>by
        obtain ⟨st,hst,hrest⟩:=h.ends.gate_lineage op g hg hready
        exact ⟨st,hforth (hdrained.gates op g hg hready) hst,hrest⟩
      abandoned_lineage:=fun k op hk=>by
        obtain ⟨st,hst,hrest⟩:=h.ends.abandoned_lineage k op hk
        exact ⟨st,hforth (hdrained.abandoned k op hk) hst,hrest⟩ }
  exact ⟨htables,fun op w q st hw hstage hst=>h.cover op w q st hw hstage (hback hst),hends,
    h.window⟩

theorem Inv.drained_ended {st : LineageState E} (h : Inv d) (hst : d.lineages.get l=some st)
    (hended : st.ended=true) (hflying : Counts.lowest d.inFlightByEpoch l=none)
    (hseals : sealsOf d.seals l=[]) : Drained d l := by
  have hlive : ∀ {st' : LineageState E},d.lineages.get l=some st' → st'.ended≠false:=by
    intro st' hst' hfalse
    exact ne_of_ended hst hended hst' hfalse rfl
  have hnoseal : ∀ k s,d.seals.get k=some s → k.lineage≠l:=by
    intro k s hs hk
    have hmem : s ∈ sealsOf d.seals l:=mem_sealsOf.mpr ⟨k,hk,hs⟩
    rw [hseals] at hmem
    cases hmem
  exact {
    other:=fun hl=>by
      obtain ⟨st',hst',hfalse⟩:=h.lives.default_live
      exact hlive (hl ▸ hst') hfalse
    writes:=fun op w hw hl=>by
      rcases h.ends.ended_write op w st hw (hl ▸ hst) hended with hstage | ⟨q, -,hstage, -⟩
      · have hcount : 0 < d.inFlightByEpoch.countAt l w.epoch:=by
          rw [h.counts.inFlight_count,count_pos]
          exact ⟨op,w,hw,isInFlightAt_iff.mpr ⟨⟨hl.symm,rfl⟩,hstage⟩⟩
        obtain ⟨o,ho, -⟩:=Counts.lowest_le h.counts.inFlight_proper hcount
        rw [hflying] at ho
        cases ho
      · obtain ⟨s,hs, -⟩:=h.parts.named_seal op w q hw hstage
        exact hnoseal _ s hs hl
    seals:=hnoseal
    held:=fun op g a hg ha hl=>by
      obtain ⟨st',hst',hfalse⟩:=h.ends.held_lineage op g a hg ha
      exact hlive (hl ▸ hst') hfalse
    gates:=fun op g hg hready hl=>by
      obtain ⟨st',hst',hfalse, -⟩:=h.ends.gate_lineage op g hg hready
      exact hlive (hl ▸ hst') hfalse
    abandoned:=fun k op hk hl=>by
      obtain ⟨st',hst',hfalse, -⟩:=h.ends.abandoned_lineage k op hk
      exact hlive (hl ▸ hst') hfalse }

theorem Durability.retireIfDrained_cases (d : Durability E T I) (l : Key) :
    d.retireIfDrained l=d ∨ ∃ st,d.lineages.get l=some st ∧ st.ended=true ∧
      Counts.lowest d.inFlightByEpoch l=none ∧ sealsOf d.seals l=[] ∧
      d.retireIfDrained l={ d with lineages := d.lineages.erase l } := by
  unfold retireIfDrained
  cases hst : d.lineages.get l with
  | none=>exact .inl rfl
  | some st =>
    simp only
    split_ifs with hdrained
    · simp only [Bool.and_eq_true,Option.isNone_iff_eq_none,List.isEmpty_iff] at hdrained
      exact .inr ⟨st,rfl,hdrained.1.1.1,hdrained.1.2,hdrained.2,rfl⟩
    · exact .inl rfl

theorem Inv.retireIfDrained (h : Inv d) (l : Key) : Inv (d.retireIfDrained l) := by
  rcases d.retireIfDrained_cases l with heq | ⟨st,hst,hended,hflying,hseals,heq⟩ <;> rw [heq]
  · exact h
  · exact h.dropLineage (h.drained_ended hst hended hflying hseals)

end WindowsThreadpoolSys.DurableIoring
