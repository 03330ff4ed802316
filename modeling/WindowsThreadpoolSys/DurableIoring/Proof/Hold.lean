import WindowsThreadpoolSys.DurableIoring.Proof.Relabel

/-! A held operation waits for an epoch its lineage has not reached. A write that completes successfully
waits for its seal; one that failed, or whose lineage has ended, goes. -/
namespace WindowsThreadpoolSys.DurableIoring
open Library Durability Table

variable {E T I : Type} [LinearOrder E] {d d' : Durability E T I} {op : OpId}

/-! ## Gates -/

theorem Inv.gate_waiting (h : Inv d) {gate : Gate E} (hgate : d.gateState gate=.waiting) :
    ∃ st,d.lineages.get gate.lineage=some st ∧ st.ended=false ∧
      above st.durableThrough gate.epoch=true := by
  unfold gateState state at hgate
  cases hlive : d.live gate.lineage with
  | none=>simp [hlive] at hgate
  | some st =>
    obtain ⟨hst,hended⟩:=live_eq_some.mp hlive
    refine ⟨st,hst,hended,?_⟩
    by_contra hdurable
    have hsealed : ¬above st.sealedThrough gate.epoch=true:=fun habove =>
      hdurable ((h.marks _ st hst hended).queue.above_durable habove)
    rw [Bool.not_eq_true] at hdurable
    by_cases habandoned : (d.abandoned.get ⟨gate.lineage,gate.epoch⟩).isSome
    · simp [hlive,habandoned] at hgate
    · simp [hlive,habandoned,hsealed,hdurable] at hgate

/-! ## Holding -/

section Holding

variable {write : Option (Accepted E T)} {gate : Gate E}
  {heldByEpoch : Counts E} {gated : Table (GatedKey E) (Gate E)}

theorem CountsOk.hold_write {writes : Table OpId (Write E T)} {held : Table OpId (HeldOp E T)}
    {inFlightByEpoch heldByEpoch' : Counts E} {a : Accepted E T} {limit : ℕ}
    (h : CountsOk writes held inFlightByEpoch heldByEpoch gated) (hnone : held.get op=none)
    (hcount : heldByEpoch.countUp limit a.lineage a.epoch=some heldByEpoch') :
    CountsOk writes (held.insert op ⟨op,some a,gate,false⟩) inFlightByEpoch heldByEpoch'
      (gated.insert ⟨a.lineage,a.epoch,op⟩ gate) := { h with
  held_proper:=Counts.countUp_proper h.held_proper hcount
  held_count:=fun l e=>by
    have hat : isHeldAt l e (⟨op,some a,gate,false⟩ : HeldOp E T)=true ↔
        l=a.lineage ∧ e=a.epoch:=by simp [isHeldAt_iff]
    rw [Counts.countUp_countAt hcount,h.held_count,count_insert _ _ hnone]
    simp only [hat]
  gated_iff:=fun k g=>by
    rw [get_insert]
    by_cases hop : k.op=op
    · rw [hop,get_insert_self]
      have hfree : gated.get k≠some g:=fun hk=>by
        obtain ⟨h',a',hget, -⟩:=(h.gated_iff k g).mp hk
        rw [hop,hnone] at hget
        cases hget
      constructor
      · intro hk
        split_ifs at hk with hkey
        · subst hkey
          cases hk
          exact ⟨_,a,rfl,rfl,rfl,rfl,rfl,rfl⟩
        · exact absurd hk hfree
      · rintro ⟨h',a',hh', -,ha',hl,he,rfl⟩
        cases hh'
        cases ha'
        rw [if_pos]
        cases k
        simp_all
    · rw [get_insert_of_ne _ _ hop,if_neg]
      · exact h.gated_iff k g
      · rintro rfl
        exact hop rfl }

theorem CountsOk.hold_other {writes : Table OpId (Write E T)} {held : Table OpId (HeldOp E T)}
    {inFlightByEpoch : Counts E} (h : CountsOk writes held inFlightByEpoch heldByEpoch gated)
    (hnone : held.get op=none) :
    CountsOk writes (held.insert op ⟨op,none,gate,false⟩) inFlightByEpoch heldByEpoch gated :=
  { h with
    held_count:=fun l e=>by
      have hat : ¬isHeldAt l e (⟨op,none,gate,false⟩ : HeldOp E T)=true:=by
        simp [isHeldAt_iff]
      rw [h.held_count,count_insert _ _ hnone,if_neg hat,Nat.add_zero]
    gated_iff:=fun k g=>by
      rw [h.gated_iff]
      refine exists_congr fun h'=>exists_congr fun a=>and_congr_left fun hrest=>?_
      rw [get_insert]
      split_ifs with hop
      · rw [hop,hnone]
        refine ⟨fun hget=>(by cases hget),fun hget=>?_⟩
        cases hget
        cases hrest.2.1
      · rfl }

theorem Inv.insertHeld {nextPush : ℕ} (h : Inv d) (hfresh : d.Fresh op)
    (hgate : d.gateState gate=.waiting)
    (hwrite : ∀ a,write=some a → a.op=op ∧ op < nextPush ∧ Enters d a)
    (hpush : d.nextPush ≤ nextPush)
    (hcounts : CountsOk d.writes (d.held.insert op ⟨op,write,gate,false⟩) d.inFlightByEpoch
      heldByEpoch gated) : Inv { d with
      nextPush := nextPush
      gated := gated
      heldByEpoch := heldByEpoch
      held := d.held.insert op ⟨op,write,gate,false⟩ } := by
  have hother : ∀ op',op'≠op → (d.held.insert op ⟨op,write,gate,false⟩).get op' =
      d.held.get op':=fun op' hne=>get_insert_of_ne _ _ hne
  refine { h with
    keys:={ h.keys with
      held_key:=fun op' g hg=>?_
      held_write_key:=fun op' g a hg ha=>?_
      write_not_held:=fun op' w hw=>?_
      kept_not_held:=fun op' k hk=>?_ }
    clocks:={ h.clocks with
      write_clock:=fun op' w hw =>
        ⟨(h.clocks.write_clock op' w hw).1.trans_le hpush,(h.clocks.write_clock op' w hw).2⟩
      held_clock:=fun op' g a hg ha=>?_
      kept_clock:=fun op' g hg =>
        ⟨(h.clocks.kept_clock op' g hg).1.trans_le hpush,(h.clocks.kept_clock op' g hg).2⟩ }
    counts:=hcounts
    marks:=fun l st hst hlive=>{ h.marks l st hst hlive with held_at:=fun op' g a hg ha hl=>?_ }
    files:={ h.files with
      held_routed:=fun op' g a hg ha=>?_
      same_held:=fun op₁ w op' g a hw hg ha hl hf=>?_
      held_same:=fun op₁ g₁ a₁ op₂ g₂ a₂ hg₁ ha₁ hg₂ ha₂ hl hf=>?_ }
    ends:={ h.ends with
      held_lineage:=fun op' g a hg ha=>?_
      gate_lineage:=fun op' g hg hready=>?_ }
    window:={ h.window with
      held_level:=fun op' g hg=>?_
      seal_pin:=fun k s hs=>?_
      abandoned_pin:=fun k op' hk=>?_ } }
  · rcases of_insert hg with ⟨rfl,rfl⟩ | hg
    · rfl
    · exact h.keys.held_key op' g hg
  · rcases of_insert hg with ⟨rfl,rfl⟩ | hg
    · exact (hwrite a ha).1
    · exact h.keys.held_write_key op' g a hg ha
  · rw [hother,h.keys.write_not_held op' w hw]
    rintro rfl
    rw [hfresh.no_write h] at hw
    cases hw
  · rw [hother,h.keys.kept_not_held op' k hk]
    rintro rfl
    rw [hfresh.no_kept h] at hk
    cases hk
  · rcases of_insert hg with ⟨rfl,rfl⟩ | hg
    · exact (hwrite a ha).2.1
    · exact (h.clocks.held_clock op' g a hg ha).trans_le hpush
  · rcases of_insert hg with ⟨rfl,rfl⟩ | hg
    · subst hl
      exact (hwrite a ha).2.2.open_at st hst hlive
    · exact (h.marks l st hst hlive).held_at op' g a hg ha hl
  · rcases of_insert hg with ⟨rfl,rfl⟩ | hg
    · exact (hwrite a ha).2.2.routed
    · exact h.files.held_routed op' g a hg ha
  · rcases of_insert hg with ⟨rfl,rfl⟩ | hg
    · exact (hwrite a ha).2.2.written op₁ w hw hl hf
    · exact h.files.same_held op₁ w op' g a hw hg ha hl hf
  · rcases of_insert hg₁ with ⟨-,rfl⟩ | hold₁ <;>
      rcases of_insert hg₂ with ⟨-,rfl⟩ | hold₂
    · cases ha₁.symm.trans ha₂
      rfl
    · exact ((hwrite a₁ ha₁).2.2.held_same op₂ g₂ a₂ hold₂ ha₂ hl.symm hf.symm).symm
    · exact (hwrite a₂ ha₂).2.2.held_same op₁ g₁ a₁ hold₁ ha₁ hl hf
    · exact h.files.held_same op₁ g₁ a₁ op₂ g₂ a₂ hold₁ ha₁ hold₂ ha₂ hl hf
  · rcases of_insert hg with ⟨rfl,rfl⟩ | hg
    · exact (hwrite a ha).2.2.lineage_live
    · exact h.ends.held_lineage op' g a hg ha
  · rcases of_insert hg with ⟨rfl,rfl⟩ | hg
    · exact h.gate_waiting hgate
    · exact h.ends.gate_lineage op' g hg hready
  · rcases of_insert hg with ⟨rfl,rfl⟩ | hg
    · unfold Window.level
      rw [hfresh.admitted]
      rfl
    · exact h.window.held_level op' g hg
  · obtain ⟨pin,hpin,hpinned,hheld⟩:=h.window.seal_pin k s hs
    refine ⟨pin,hpin,hpinned,fun g hg=>?_⟩
    rcases of_insert hg with ⟨rfl, -⟩ | hg
    · exact absurd hpin (hfresh.no_pin h k s hs)
    · exact hheld g hg
  · obtain ⟨hheld,hrest⟩:=h.window.abandoned_pin k op' hk
    refine ⟨?_,hrest⟩
    rw [hother,hheld]
    rintro rfl
    exact hfresh.no_abandoned h k hk

theorem Inv.hold (h : Inv d) (hfresh : d.Fresh op) (hgate : d.gateState gate=.waiting)
    (hwrite : ∀ a,write=some a → a.op=op ∧ d.Joins a)
    (hok : d.hold op write gate=.ok d') : Inv d' := by
  obtain ⟨hlive, -,hrest⟩:=hold_ok hok
  rcases hrest with ⟨rfl,rfl⟩ | ⟨a,heldByEpoch,rfl,hcount,rfl⟩
  · exact h.insertHeld hfresh hgate (fun a ha=>by cases ha) le_rfl
      (h.counts.hold_other hfresh.held)
  · obtain ⟨rfl,hjoins⟩:=hwrite a rfl
    refine h.insertHeld hfresh hgate (fun b hb=>?_) (le_max_left _ _)
      (h.counts.hold_write hfresh.held hcount)
    cases hb
    exact ⟨rfl,(Nat.lt_succ_self a.op).trans_le (le_max_right _ _),hjoins.enters h (hlive a rfl)⟩

end Holding

/-! ## Places -/

theorem Inv.admit_ (h : Inv d) (hok : d.admit_ op=.ok d') : Inv d' := by
  unfold Durability.admit_ at hok
  simp only [bind_eq_ok] at hok
  obtain ⟨window,hhold,hok⟩:=hok
  cases hok
  have hlevel:=Window.hold_level hhold
  have hother : ∀ op' k,k≠.operation → window.level op' k=d.window.level op' k:=by
    intro op' k hk
    rw [hlevel op' k,if_neg fun hsame=>hk hsame.2,Nat.add_zero]
  exact { h with
    window:={ h.window with
      proper:=Window.hold_proper h.window.proper hhold
      size_le:=Window.hold_size_le h.window.size_le hhold
      held_level:=fun op' g hg=>by
        have hone : window.level op' .operation≤1:=Window.level_le_one _ _ (by simp)
        have hmore:=hlevel op' .operation
        rw [h.window.held_level op' g hg] at hmore
        exact le_antisymm hone (hmore ▸ Nat.le_add_right 1 _)
      uncovered_level:=fun op'=>by rw [hother _ _ (by simp),h.window.uncovered_level]
      suspect_level:=fun op'=>by rw [hother _ _ (by simp),h.window.suspect_level]
      pin_level:=fun op'=>by rw [hother _ _ (by simp),h.window.pin_level]
      abandoned_level:=fun op'=>by rw [hother _ _ (by simp),h.window.abandoned_level] } }

theorem Inv.popped (h : Inv d) (hheld : d.held.get op=none) (hok : d.popped op=.ok d') :
    Inv d' := by
  unfold Durability.popped at hok
  simp only [bind_eq_ok] at hok
  obtain ⟨window,hrelease,hok⟩:=hok
  cases hok
  have hlevel:=Window.release_level hrelease
  have hother : ∀ op' k,k≠.operation → window.level op' k=d.window.level op' k:=by
    intro op' k hk
    rw [hlevel op' k,if_neg fun hsame=>hk hsame.2,Nat.add_zero]
  exact { h with
    window:={ h.window with
      proper:=Window.release_proper h.window.proper hrelease
      size_le:=(Window.release_size_le hrelease).trans h.window.size_le
      held_level:=fun op' g hg=>by
        have hne : op'≠op:=fun hsame=>by
          rw [hsame,hheld] at hg
          cases hg
        have hold:=hlevel op' .operation
        rw [if_neg fun hsame=>hne hsame.1,Nat.add_zero] at hold
        rw [← hold,h.window.held_level op' g hg]
      uncovered_level:=fun op'=>by rw [hother _ _ (by simp),h.window.uncovered_level]
      suspect_level:=fun op'=>by rw [hother _ _ (by simp),h.window.suspect_level]
      pin_level:=fun op'=>by rw [hother _ _ (by simp),h.window.pin_level]
      abandoned_level:=fun op'=>by rw [hother _ _ (by simp),h.window.abandoned_level] } }

/-! ## Completing -/

section Completing

variable {w : Write E T}

theorem Inv.complete (h : Inv d) (hw : d.writes.get op=some w) (hstage : w.stage=.inFlight)
    (hlive : d.isLive w.lineage=true) : Inv { d with
      writes := d.writes.insert op { w with stage := .completed }
      inFlightByEpoch := d.inFlightByEpoch.countDown w.lineage w.epoch } := by
  obtain ⟨st,hst,hended⟩:=isLive_iff.mp hlive
  have hnamed : ∀ op' w' q,(d.writes.insert op { w with stage:=.completed }).get op'=some w' →
      w'.stage=.named q → d.writes.get op'=some w':=by
    intro op' w' q hw' hq
    rcases of_insert hw' with ⟨-,rfl⟩ | hw'
    · cases hq
    · exact hw'
  have hkey : ({ w with stage:=.completed } : Write E T).spanKey=w.spanKey:=by
    simp [Write.spanKey,hstage,Span.ofStage]
  have hrelabel:=Relabels.insert hw .completed
  refine { h with
    keys:=hrelabel.keys h.keys
    clocks:=hrelabel.clocks h.clocks
    counts:={ h.counts with
      inFlight_proper:=Counts.countDown_proper h.counts.inFlight_proper _ _
      inFlight_count:=fun l e=>?_ }
    spans:={ h.spans with count:=fun key=>?_ }
    lives:={ h.lives with write_lineage:=fun op' w' hw'=>?_ }
    marks:=fun l st' hst' hlive'=>{ h.marks l st' hst' hlive' with write_at:=fun op' w' hw' hl=>?_ }
    parts:={ h.parts with
      named_seal:=fun op' w' q hw' hq=>h.parts.named_seal op' w' q (hnamed op' w' q hw' hq) hq
      named_flush:=fun op' w' q hw' hq=>h.parts.named_flush op' w' q (hnamed op' w' q hw' hq) hq
      flushed_default:=fun op' w' q entry hw' hq =>
        h.parts.flushed_default op' w' q entry (hnamed op' w' q hw' hq) hq
      named_asked:=fun op' w' q st' hw' hq =>
        h.parts.named_asked op' w' q st' (hnamed op' w' q hw' hq) hq
      asked_write:=fun k part st' hpart hans hst' hlive'=>?_ }
    files:=hrelabel.files h.files fun op' w' e hw' he=>?_
    suspects:=hrelabel.suspects h.suspects fun op' w₀ w' hw₀ hw' f hf=>?_
    cover:=fun op' w' q st' hw' hq=>h.cover op' w' q st' (hnamed op' w' q hw' hq) hq
    ends:={ h.ends with ended_write:=fun op' w' st' hw' hst' hended'=>?_ }
    window:=hrelabel.window h.window }
  · have hat : isInFlightAt l e w=true ↔ l=w.lineage ∧ e=w.epoch:=by
      rw [isInFlightAt_iff]
      exact and_iff_left hstage
    have hnot : ¬isInFlightAt l e { w with stage:=.completed }=true:=by
      simp [isInFlightAt_iff]
    have hnew:=count_replace ({ w with stage:=.completed } : Write E T)
      (fun _ w=>isInFlightAt l e w) hw
    simp only [hat,if_neg hnot,Nat.add_zero] at hnew
    rw [Counts.countDown_countAt,h.counts.inFlight_count,← hnew,Nat.add_sub_cancel]
  · have hsame:=count_replace ({ w with stage:=.completed } : Write E T)
      (fun _ w=>decide (w.spanKey=key)) hw
    rw [hkey] at hsame
    rw [h.spans.count,Nat.add_right_cancel hsame]
  · rcases of_insert hw' with ⟨rfl,rfl⟩ | hw'
    · exact h.lives.write_lineage op' w hw
    · exact h.lives.write_lineage op' w' hw'
  · have hl':=h.marks l st' hst' hlive'
    rcases of_insert hw' with ⟨rfl,rfl⟩ | hw'
    · have hat:=hl'.write_at op' w hw hl
      rw [hstage] at hat
      exact hat
    · exact hl'.write_at op' w' hw' hl
  · obtain ⟨op',w',hw',hl,hq,hdomain⟩:=h.parts.asked_write k part st' hpart hans hst' hlive'
    refine ⟨op',w',?_,hl,hq,hdomain⟩
    rw [get_insert_of_ne _ _,hw']
    rintro rfl
    rw [hw] at hw'
    cases hw'
    rw [hstage] at hq
    cases hq
  · rcases of_insert hw' with ⟨-,rfl⟩ | hw'
    · rw [hkey] at he
      exact h.files.entry_domains op w e hw he
    · exact h.files.entry_domains op' w' e hw' he
  · rcases of_insert hw' with ⟨rfl,rfl⟩ | hw'
    · rw [hw] at hw₀
      cases hw₀
      rfl
    · rw [hw₀] at hw'
      cases hw'
      rfl
  · rcases of_insert hw' with ⟨-,rfl⟩ | hw'
    · rw [hst] at hst'
      cases hst'
      rw [hended] at hended'
      cases hended'
    · exact h.ends.ended_write op' w' st' hw' hst' hended'

end Completing

end WindowsThreadpoolSys.DurableIoring
