import WindowsThreadpoolSys.DurableIoring.Proof.Ends

/-! A minted lineage has no record yet, and a retired one has none left: between operations a lineage
with no write, no held operation and no failure holding it has no seal either, for each of its seals
would have finished and been passed. -/
namespace WindowsThreadpoolSys.DurableIoring
open Library Durability List Table LineageState

variable {E T I : Type} [LinearOrder E] {d d' : Durability E T I} {l : Key}

/-! ## The end popped -/

theorem Table.insert_eq_modify {κ α : Type} [LinearOrder κ] {t : Table κ α} {k : κ} {v : α}
    (h : t.get k=some v) (f : α → α) : t.insert k (f v)=t.modify k f := by
  refine Table.ext_get fun k'=>?_
  rw [get_insert,get_modify]
  split_ifs with hk
  · rw [hk,h]
    rfl
  · rfl

theorem Durability.endPopped_ok (hok : d.endPopped l=.ok d') :
    ∃ st,d.lineages.get l=some st ∧ st.ended=true ∧ d'=retireIfDrained
        { d with lineages := d.lineages.insert l { st with endUnpopped := false } } l := by
  unfold endPopped at hok
  cases hst : d.lineages.get l with
  | none =>
    rw [hst] at hok
    cases hok
  | some st =>
    simp only [hst] at hok
    split_ifs at hok with hended
    cases hok
    rw [Bool.and_eq_true] at hended
    exact ⟨st,rfl,hended.1,rfl⟩

theorem Inv.endPopped (h : Inv d) (hok : d.endPopped l=.ok d') : Inv d' := by
  obtain ⟨st,hst, -,rfl⟩:=endPopped_ok hok
  refine retireIfDrained ?_ l
  rw [Table.insert_eq_modify hst fun st=>{ st with endUnpopped:=false }]
  exact h.modifyLineage l _ fun st=>⟨⟨rfl,rfl,rfl,rfl⟩,EmptyStays.option_refl _⟩

/-! ## Minting -/

abbrev Durability.minted (d : Durability E T I) : Durability E T I :=
  { d with
    lineages := d.lineages.insert d.nextLineage LineageState.new
    nextLineage := d.nextLineage + 1 }

theorem Durability.mint_ok {k : Key} (hok : d.mint=.ok (k,d')) : k=d.nextLineage ∧ d'=d.minted := by
  unfold mint at hok
  cases hroom : d.lineages.insertWithin d.capacity.lineages d.nextLineage LineageState.new with
  | none =>
    rw [hroom] at hok
    cases hok
  | some lineages =>
    rw [hroom] at hok
    cases hok
    exact ⟨rfl,by rw [(insertWithin_eq_some.mp hroom).2]⟩

theorem Inv.lineage_fresh (h : Inv d) : d.lineages.get d.nextLineage=none := by
  cases hst : d.lineages.get d.nextLineage with
  | none=>rfl
  | some st=>exact absurd (h.clocks.lineage_clock _ st hst) (lt_irrefl _)

theorem Inv.mint {k : Key} (h : Inv d) (hok : d.mint=.ok (k,d')) : Inv d' := by
  obtain ⟨-,rfl⟩:=mint_ok hok
  have hfresh:=h.lineage_fresh
  have hforth : ∀ {l' : Key} {st : LineageState E},d.lineages.get l'=some st →
      (d.lineages.insert d.nextLineage LineageState.new).get l'=some st:=by
    intro l' st hst
    rw [get_insert_of_ne,hst]
    rintro rfl
    rw [hfresh] at hst
    cases hst
  have hback : ∀ {l' : Key} {st st' : LineageState E},d.lineages.get l'=some st →
      (d.lineages.insert d.nextLineage LineageState.new).get l'=some st' →
      d.lineages.get l'=some st':=by
    intro l' st st' hst hst'
    rw [hforth hst] at hst'
    cases hst'
    exact hst
  have hwrite : ∀ {op : OpId} {w : Write E T} {st' : LineageState E},d.writes.get op=some w →
      (d.lineages.insert d.nextLineage LineageState.new).get w.lineage=some st' →
      d.lineages.get w.lineage=some st':=by
    intro op w st' hw hst'
    obtain ⟨st,hst, -⟩:=h.lives.write_lineage op w hw
    exact hback hst hst'
  have hseal : ∀ {k : SealKey} {s : Seal E} {st' : LineageState E},d.seals.get k=some s →
      (d.lineages.insert d.nextLineage LineageState.new).get k.lineage=some st' →
      d.lineages.get k.lineage=some st':=by
    intro k s st' hs hst'
    obtain ⟨st,hst, -⟩:=h.lives.seal_lineage k s hs
    exact hback hst hst'
  have ht:=h.toTablesOk
  have htables : TablesOk d.minted :=
    { ht with
      clocks:={ ht.clocks with
        lineage_clock:=fun l' st' hst'=>by
          rw [get_insert] at hst'
          split_ifs at hst' with hl
          · rw [hl]
            exact Nat.lt_succ_self _
          · exact (ht.clocks.lineage_clock l' st' hst').trans (Nat.lt_succ_self _) }
      lives:={ ht.lives with
        default_live:=by
          obtain ⟨st,hst,hlive⟩:=ht.lives.default_live
          exact ⟨st,hforth hst,hlive⟩
        write_lineage:=fun op w hw=>by
          obtain ⟨st,hst,hrest⟩:=ht.lives.write_lineage op w hw
          exact ⟨st,hforth hst,hrest⟩
        seal_lineage:=fun k s hs=>by
          obtain ⟨st,hst,hrest⟩:=ht.lives.seal_lineage k s hs
          exact ⟨st,hforth hst,hrest⟩ }
      marks:=fun l' st' hst' hlive=>by
        rw [get_insert] at hst'
        split_ifs at hst' with hl
        · -- the lineage minted has no seal and no write
          cases hst'
          have hnil : sealsOf d.seals l'=[]:=by
            refine eq_nil_iff_forall_not_mem.mpr fun s hs=>?_
            obtain ⟨k,hk,hget⟩:=mem_sealsOf.mp hs
            obtain ⟨st,hst, -⟩:=ht.lives.seal_lineage k s hget
            rw [hk,hl,hfresh] at hst
            cases hst
          have hslots : slots (LineageState.new (E:=E)).leading (sealsOf d.seals l')=[]:=by
            rw [hnil]
            rfl
          exact {
            queue:=by
              rw [hslots]
              exact QueueOk.nil_iff.mpr rfl
            made_lt:=fun x hx=>by
              rw [hslots] at hx
              cases hx
            write_at:=fun op w hw hwl=>by
              obtain ⟨st,hst, -⟩:=ht.lives.write_lineage op w hw
              rw [hwl,hl,hfresh] at hst
              cases hst
            held_at:=fun op g a hg ha hal=>by
              obtain ⟨st,hst, -⟩:=h.ends.held_lineage op g a hg ha
              rw [hal,hl,hfresh] at hst
              cases hst }
        · exact ht.marks l' st' hst' hlive
      parts:={ ht.parts with
        named_asked:=fun op w q st' hw hstage hst' =>
          ht.parts.named_asked op w q st' hw hstage (hwrite hw hst')
        asked_write:=fun k part st' hpart hans hst'=>by
          obtain ⟨-,s,hs, -⟩:=ht.lives.domain_seal k part hpart
          exact ht.parts.asked_write k part st' hpart hans (hseal hs hst') }
      files:={ ht.files with
        write_routed:=fun op w st' hw hst'=>ht.files.write_routed op w st' hw (hwrite hw hst') }
      suspects:={ ht.suspects with
        write_named:=fun f hf op w st' hw hst' =>
          ht.suspects.write_named f hf op w st' hw (hwrite hw hst') } }
  exact ⟨htables,fun op w q st' hw hstage hst'=>h.cover op w q st' hw hstage (hwrite hw hst'),
    { ended_write:=fun op w st' hw hst'=>h.ends.ended_write op w st' hw (hwrite hw hst')
      ended_seal:=fun k s st' hs hst'=>h.ends.ended_seal k s st' hs (hseal hs hst')
      held_lineage:=fun op g a hg ha=>by
        obtain ⟨st,hst,hrest⟩:=h.ends.held_lineage op g a hg ha
        exact ⟨st,hforth hst,hrest⟩
      gate_lineage:=fun op g hg hready=>by
        obtain ⟨st,hst,hrest⟩:=h.ends.gate_lineage op g hg hready
        exact ⟨st,hforth hst,hrest⟩
      abandoned_lineage:=fun k op hk=>by
        obtain ⟨st,hst,hrest⟩:=h.ends.abandoned_lineage k op hk
        exact ⟨st,hforth hst,hrest⟩ },h.window⟩

/-! ## Retiring -/

theorem Quiescent.no_seals {st : LineageState E} (hq : Quiescent d) (h : Inv d)
    (hst : d.lineages.get l=some st) (hlive : st.ended=false)
    (hwrites : ∀ op w,d.writes.get op=some w → w.lineage ≠ l)
    (hheld : ∀ op g a,d.held.get op=some g → g.write=some a → a.lineage ≠ l)
    (hfailures : d.lineageFailures l=[]) : sealsOf d.seals l=[] := by
  have hlive' : d.isLive l=true:=isLive_iff.mpr ⟨st,hst,hlive⟩
  have hsettled:=hq.settled l hlive'
  have hnothing : ∀ through,¬OutstandingBelow d l through:=by
    rintro through ⟨o,ho, -⟩
    rcases h.toTablesOk.oldest_outstanding ho with ⟨op,w,hw,hl, -⟩ | ⟨op,g,a,hg,ha,hl, -⟩
    · exact hwrites op w hw hl
    · exact hheld op g a hg ha hl
  -- nothing is out for any of its seals, so each is done
  have hdone : ∀ s ∈ sealsOf d.seals l,s.stage.isDone=true:=by
    intro s hs
    obtain ⟨k,hk,hget⟩:=mem_sealsOf.mp hs
    cases hstage : s.stage with
    | waiting=>exact absurd (hsettled.waiting s hs hstage) (hnothing _)
    | done ok=>rfl
    | flushing n failed =>
      have hout:=hsettled.flushing s hs
      have hanswered : d.hasAnswered l s=true:=by
        refine hasAnswered_iff.mpr ⟨failed,?_,fun domain hserved part hpart=>?_⟩
        · have hzero : n=0:=by
            rw [h.parts.flushing k s n failed hget hstage,Table.count_eq_zero]
            intro key entry hentry
            by_contra hisOut
            simp only [isOut,Bool.not_eq_false,Bool.and_eq_true,decide_eq_true_eq] at hisOut
            have hpos : 0 < d.spans.writesAt key :=
              (Spans.writesAt_pos h.spans.proper key).mpr (by rw [hentry]; rfl)
            rw [h.spans.count,count_pos] at hpos
            obtain ⟨op,w,hw,hspan⟩:=hpos
            refine hwrites op w hw ?_
            rw [← hk,← hisOut.1.1.1,← of_decide_eq_true hspan]
            rfl
          rw [hstage,hzero]
        · by_contra hans
          obtain ⟨op,w,hw,hl, -⟩:=h.parts.asked_write _ part st hpart (by simpa using hans) hst
            hlive
          exact hwrites op w hw hl
      rw [hout] at hanswered
      cases hanswered
  by_contra hne
  obtain ⟨s,rest,hseals⟩:=exists_cons_of_ne_nil hne
  obtain ⟨through,recorded,hnext⟩ : ∃ through recorded,
      d.nextFinished l st=some (through,recorded):=by
    unfold nextFinished
    cases hleading : st.leading with
    | some e =>
      have hfinished : e.finished=true:=by
        by_contra hunfinished
        exact hnothing _ (hsettled.empty e (.inl ⟨st,hst,hleading⟩) (by simpa using hunfinished))
      exact ⟨e.through,none,by simp only [hfinished,if_true]⟩
    | none =>
      have hfirst:=hdone s (by rw [hseals]; exact mem_cons_self)
      exact ⟨s.through,some s,by simp only [hseals,hfirst,if_true]⟩
  have hheld':=(hq.stands l hlive').held st through recorded hst hnext
  unfold blocking at hheld'
  simp only [hst] at hheld'
  split_ifs at hheld'
  · rw [Option.isSome_map,List.find?_isSome] at hheld'
    obtain ⟨f,hf,hholds⟩:=hheld'
    have hmem : f ∈ d.lineageFailures l:=by
      refine mem_filter.mpr ⟨hf,?_⟩
      unfold holdsWithin at hholds ⊢
      rw [Bool.and_eq_true] at hholds ⊢
      refine ⟨hholds.1,any_eq_true.mpr ?_⟩
      obtain ⟨x,hx,hcovers⟩:=any_eq_true.mp hholds.2
      rw [Bool.and_eq_true] at hcovers
      exact ⟨x,hx,by simp only [hcovers.1,Bool.and_true]⟩
    rw [hfailures] at hmem
    cases hmem
  · cases hheld'

theorem Durability.retire_ok (hok : d.retire l=.ok (.ok d')) :
    ∃ st mid,d.lineages.get l=some st ∧ st.ended=false ∧ l ≠ defaultLineage ∧
      ((d.inFlightByEpoch.entries.filter fun e => e.1.lineage=l).map Prod.snd).sum=0 ∧
      d.heldForGate l=0 ∧ (d.writes.vals.filter fun w =>
        decide (w.lineage=l) && decide (w.stage ≠ .inFlight)).length=0 ∧
      (d.lineageFailures l).length=0 ∧ d.forgetAbandoned l none=.ok mid ∧
      d'={ mid with lineages := mid.lineages.erase l } := by
  unfold retire at hok
  split_ifs at hok with hlive
  simp only at hok
  by_cases hbusy : 0<((d.inFlightByEpoch.entries.filter fun e=>e.1.lineage=l).map
      Prod.snd).sum ∨ 0 < d.heldForGate l ∨ 0<(d.writes.vals.filter fun w =>
        decide (w.lineage=l) && decide (w.stage≠.inFlight)).length ∨
      0<(d.lineageFailures l).length
  · rw [if_pos hbusy] at hok
    cases Except.ok.inj hok
  rw [if_neg hbusy,bind_eq_ok] at hok
  obtain ⟨mid,hforget,hok⟩:=hok
  cases hok
  simp only [Bool.or_eq_true,Bool.not_eq_true',decide_eq_true_eq,not_or,Bool.not_eq_false]
    at hlive
  simp only [not_or,Nat.not_lt,Nat.le_zero] at hbusy
  obtain ⟨st,hst,hended⟩:=isLive_iff.mp hlive.1
  exact ⟨st,mid,hst,hended,hlive.2,hbusy.1,hbusy.2.1,hbusy.2.2.1,hbusy.2.2.2,hforget,rfl⟩

theorem Inv.retire (h : Inv d) (hq : Quiescent d) (hok : d.retire l=.ok (.ok d')) : Inv d' := by
  obtain ⟨st,mid,hst,hlive,hne,hflying,hgated,huncovered,hfailures,hforget,rfl⟩:=retire_ok hok
  have hwrites : ∀ op w,d.writes.get op=some w → w.lineage≠l:=by
    intro op w hw hl
    by_cases hstage : w.stage=.inFlight
    · have hpos : 0 < d.inFlightByEpoch.countAt l w.epoch:=by
        rw [h.counts.inFlight_count,count_pos]
        exact ⟨op,w,hw,isInFlightAt_iff.mpr ⟨⟨hl.symm,rfl⟩,hstage⟩⟩
      unfold Counts.countAt at hpos
      cases hn : d.inFlightByEpoch.get ⟨l,w.epoch⟩ with
      | none =>
        rw [hn] at hpos
        cases hpos
      | some n =>
        rw [hn,Option.getD_some] at hpos
        have hmem : n ∈ (d.inFlightByEpoch.entries.filter fun e=>e.1.lineage=l).map Prod.snd :=
          mem_map.mpr ⟨(⟨l,w.epoch⟩,n),mem_filter.mpr ⟨mem_entries.mpr hn,by simp⟩,rfl⟩
        exact absurd (sum_eq_zero_iff.mp hflying n hmem) hpos.ne'
    · have hmem : w ∈ d.writes.vals.filter fun w =>
          decide (w.lineage=l) && decide (w.stage≠.inFlight) :=
        mem_filter.mpr ⟨mem_vals.mpr ⟨op,hw⟩,by simp [hl,hstage]⟩
      rw [length_eq_zero_iff.mp huncovered] at hmem
      cases hmem
  have hheld : ∀ op g,d.held.get op=some g →
      (∀ a,g.write=some a → a.lineage≠l) ∧ (g.ready=false → g.gate.lineage≠l):=by
    intro op g hg
    have hnot : g ∉ d.held.vals.filter fun h =>
        (h.write.any fun w=>decide (w.lineage=l)) ||
          (!h.ready && decide (h.gate.lineage=l)):=by
      rw [length_eq_zero_iff.mp hgated]
      exact not_mem_nil
    rw [mem_filter,not_and] at hnot
    have hfalse:=hnot (mem_vals.mpr ⟨op,hg⟩)
    constructor
    · rintro a ha rfl
      exact hfalse (by simp [ha])
    · rintro hready hl
      exact hfalse (by simp [hready,hl])
  have hseals:=hq.no_seals h hst hlive hwrites (fun op g a hg ha=>(hheld op g hg).1 a ha)
    (length_eq_zero_iff.mp hfailures)
  obtain ⟨window,hwindow,rfl⟩:=forgetAbandoned_ok hforget
  have hforgot : Inv { d with
      window:=window
      abandoned:=d.abandoned.filter fun k _=>!(decide (k.lineage=l) && true) } :=
    { h with
      window:=h.window.forgetAbandoned (fun k=>decide (k.lineage=l) && true) hwindow
      ends:={ h.ends with
        abandoned_lineage:=fun k op hk=>h.ends.abandoned_lineage k op (get_of_filter hk) } }
  refine hforgot.dropLineage
    { other:=hne
      writes:=hwrites
      seals:=fun k s hs hk=>?_
      held:=fun op g a hg ha=>(hheld op g hg).1 a ha
      gates:=fun op g hg hready=>(hheld op g hg).2 hready
      abandoned:=fun k op hk=>?_ }
  · have hmem : s ∈ sealsOf d.seals l:=mem_sealsOf.mpr ⟨k,hk,hs⟩
    rw [hseals] at hmem
    cases hmem
  · rw [get_filter] at hk
    simpa using (Option.filter_eq_some_iff.mp hk).2

end WindowsThreadpoolSys.DurableIoring
