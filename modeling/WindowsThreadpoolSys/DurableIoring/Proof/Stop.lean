import WindowsThreadpoolSys.DurableIoring.Proof.Observe

/-! Abandoning a failure and ending a lineage both end held operations as never issued. The operations
stopped leave the held operations, the gated writes and the per-epoch counts together. -/
namespace WindowsThreadpoolSys.DurableIoring
open Library Durability List Table Option

variable {E T I : Type} [LinearOrder E]

namespace Counts

theorem foldDown_countAt (ks : List (GatedKey E)) (counts : Counts E) (l : Key) (e : E) :
    (ks.foldl (fun (c : Counts E) k => c.countDown k.lineage k.epoch) counts).countAt l e =
      counts.countAt l e-ks.countP fun k => decide (l=k.lineage ∧ e=k.epoch) := by
  induction ks generalizing counts with
  | nil=>simp
  | cons k ks ih =>
    rw [foldl_cons,ih,countDown_countAt,countP_cons,Nat.sub_sub]
    simp only [decide_eq_true_eq,Nat.add_comm]

theorem foldDown_proper (ks : List (GatedKey E)) {counts : Counts E} (h : counts.Proper) :
    Proper (ks.foldl (fun (c : Counts E) k => c.countDown k.lineage k.epoch) counts) := by
  induction ks generalizing counts with
  | nil=>exact h
  | cons k ks ih=>exact ih (countDown_proper h _ _)

end Counts

/-! ## The operations stopped -/

section Stopped

variable {writes : Table OpId (Write E T)} {held : Table OpId (HeldOp E T)}
  {inFlightByEpoch heldByEpoch : Counts E} {gated : Table (GatedKey E) (Gate E)}
  {stopped : HeldOp E T → Option (Gate E)}

def stoppedWrites (held : Table OpId (HeldOp E T)) (stopped : HeldOp E T → Option (Gate E)) :
    List (GatedKey E) :=
  (held.entries.filterMap fun e => (stopped e.2).map fun gate => (e, gate)).filterMap fun p =>
    p.1.2.write.map fun w => ⟨w.lineage, w.epoch, p.1.1⟩

omit [LinearOrder E] in
theorem mem_stoppedWrites {k : GatedKey E} :
    k ∈ stoppedWrites held stopped ↔ ∃ h a,held.get k.op=some h ∧ (stopped h).isSome=true ∧
      h.write=some a ∧ a.lineage=k.lineage ∧ a.epoch=k.epoch := by
  simp only [stoppedWrites,mem_filterMap,map_eq_some_iff]
  constructor
  · rintro ⟨_,⟨⟨op,h⟩,hmem,gate,hstop,rfl⟩,a,ha,rfl⟩
    exact ⟨h,a,mem_entries.mp hmem,by rw [hstop]; rfl,ha,rfl,rfl⟩
  · rintro ⟨h,a,hget,hstop,ha,hl,he⟩
    obtain ⟨gate,hgate⟩:=isSome_iff_exists.mp hstop
    refine ⟨((k.op,h),gate),⟨(k.op,h),mem_entries.mpr hget,gate,hgate,rfl⟩,a,ha,?_⟩
    cases k
    simp_all

theorem countP_stoppedWrites (l : Key) (e : E) :
    (stoppedWrites held stopped).countP (fun k => decide (l=k.lineage ∧ e=k.epoch)) =
      (held.entries.filter fun p => (stopped p.2).isSome).countP fun p => isHeldAt l e p.2 := by
  unfold stoppedWrites
  induction held.entries with
  | nil=>rfl
  | cons p rest ih =>
    cases hstop : stopped p.2 with
    | none=>simp [hstop,ih, -Bool.decide_and]
    | some gate =>
      cases hwrite : p.2.write with
      | none =>
        have hnot : isHeldAt l e p.2=false:=by simp [isHeldAt,hwrite]
        simp [hstop,hwrite,ih,hnot, -Bool.decide_and]
      | some a =>
        have hat : isHeldAt l e p.2=decide (l=a.lineage ∧ e=a.epoch):=by
          rw [Bool.eq_iff_iff,isHeldAt_iff]
          simp [hwrite]
        simp [hstop,hwrite,ih,hat,countP_cons, -Bool.decide_and]

theorem CountsOk.stop (h : CountsOk writes held inFlightByEpoch heldByEpoch gated) :
    CountsOk writes (held.filter fun _ h => (stopped h).isNone) inFlightByEpoch
      ((stoppedWrites held stopped).foldl
        (fun (counts : Counts E) k => counts.countDown k.lineage k.epoch) heldByEpoch)
      (gated.filter fun k _ => decide (k ∉ stoppedWrites held stopped)) := { h with
  held_proper:=Counts.foldDown_proper _ h.held_proper
  held_count:=fun l e=>by
    rw [Counts.foldDown_countAt,h.held_count,countP_stoppedWrites]
    have hsplit:=countP_eq_countP_filter_add held.entries (fun p=>isHeldAt l e p.2)
      (fun p=>(stopped p.2).isSome)
    simp only [Table.count,Table.filter,hsplit]
    simp
  gated_iff:=fun k g=>by
    rw [Table.get_filter,filter_eq_some_iff,h.gated_iff]
    simp only [decide_eq_true_eq,mem_stoppedWrites,Table.get_filter,
      filter_eq_some_iff]
    constructor
    · rintro ⟨⟨h',a,hget,hready,ha,hl,he,hg⟩,hnot⟩
      refine ⟨h',a,⟨hget,?_⟩,hready,ha,hl,he,hg⟩
      by_contra hstop
      exact hnot ⟨h',a,hget,by simpa [isSome_iff_ne_none] using hstop,ha,hl,he⟩
    · rintro ⟨h',a,⟨hget,hstop⟩,hready,ha,hl,he,hg⟩
      refine ⟨⟨h',a,hget,hready,ha,hl,he,hg⟩,?_⟩
      rintro ⟨h₂,a₂,hget₂,hstop₂, -⟩
      rw [hget] at hget₂
      cases hget₂
      rw [isNone_iff_eq_none] at hstop
      rw [hstop] at hstop₂
      cases hstop₂ }

theorem Durability.stopHeld_core (c : Change E T I) : (stopHeld c stopped).core = { c.core with
        held := c.core.held.filter fun _ h => (stopped h).isNone
        gated := c.core.gated.filter fun k _ => decide (k ∉ stoppedWrites c.core.held stopped)
        heldByEpoch := (stoppedWrites c.core.held stopped).foldl
          (fun (counts : Counts E) k => counts.countDown k.lineage k.epoch)
          c.core.heldByEpoch } := rfl

theorem Inv.stopHeld {c : Change E T I} (h : Inv c.core) : Inv (stopHeld c stopped).core := by
  rw [stopHeld_core]
  exact h.shrinkHeld (sub_filter _ _) h.counts.stop

theorem Inv.abandonHeld {c : Change E T I} (h : Inv c.core) (f : Failure I) :
    Inv (abandonHeld c f).core :=
  h.stopHeld

end Stopped

/-! ## Abandoned epochs -/

section Abandoned

variable {d d' : Durability E T I} {f : Failure I}

theorem Inv.abandonEpoch {s : Suspect E} (h : Inv d) (hs : s ∈ d.suspects f)
    (hok : d.abandonEpoch s=.ok d') : Inv d' := by
  rcases abandonEpoch_ok hok with rfl | ⟨window,st,hst,hlive,habove,hnone,hhold,rfl⟩
  · exact h
  have hlevel:=Window.hold_level hhold
  have hother : ∀ op k,k≠.abandoned → window.level op k=d.window.level op k:=by
    intro op k hk
    rw [hlevel op k,if_neg fun hsame=>hk hsame.2,Nat.add_zero]
  have hpin : d.held.get s.op=none ∧
      (∀ w,d.writes.get s.op=some w → w.lineage=s.lineage ∧ w.epoch=s.epoch) ∧
      ∀ g,d.kept.get s.op=some g → g.lineage=s.lineage ∧ g.epoch=s.epoch:=by
    rcases mem_suspects.mp hs with ⟨op,w,hw, -,rfl⟩ | ⟨op,g,hg, -,rfl⟩
    · have hop : w.suspect.op=op:=h.keys.write_key op w hw
      rw [hop]
      refine ⟨h.keys.write_not_held op w hw,fun w' hw'=>?_,fun g hg=>?_⟩
      · rw [hw] at hw'
        cases hw'
        exact ⟨rfl,rfl⟩
      · rw [h.keys.kept_not_write op g hg] at hw
        cases hw
    · have hop : g.suspect.op=op:=h.keys.kept_key op g hg
      rw [hop]
      refine ⟨h.keys.kept_not_held op g hg,fun w hw=>?_,fun g' hg'=>?_⟩
      · rw [h.keys.kept_not_write op g hg] at hw
        cases hw
      · rw [hg] at hg'
        cases hg'
        exact ⟨rfl,rfl⟩
  exact { h with
    ends:={ h.ends with
      abandoned_lineage:=fun k op hk=>by
        rcases of_insert hk with ⟨rfl, -⟩ | hk
        · exact ⟨st,hst,hlive,habove⟩
        · exact h.ends.abandoned_lineage k op hk }
    window:={ h.window with
      proper:=Window.hold_proper h.window.proper hhold
      size_le:=Window.hold_size_le h.window.size_le hhold
      held_level:=fun op g hg=>by rw [hother _ _ (by simp),h.window.held_level op g hg]
      uncovered_level:=fun op=>by rw [hother _ _ (by simp),h.window.uncovered_level]
      suspect_level:=fun op=>by rw [hother _ _ (by simp),h.window.suspect_level]
      pin_level:=fun op=>by rw [hother _ _ (by simp),h.window.pin_level]
      abandoned_level:=fun op=>by
        rw [hlevel,h.window.abandoned_level,Table.count_insert _ _ hnone]
        simp [@eq_comm _ op]
      abandoned_pin:=fun k op hk=>by
        rcases of_insert hk with ⟨rfl,rfl⟩ | hk
        · exact hpin
        · exact h.window.abandoned_pin k op hk } }

theorem Inv.abandonEpochs (h : Inv d) (hok : d.abandonEpochs f=.ok d') : Inv d' := by
  refine (foldlM_invariant
    (fun s=>Inv s ∧ ∃ window abandoned,s={ d with window:=window,abandoned:=abandoned })
    (fun s w s' hw hs hone=>?_) ⟨h,d.window,d.abandoned,rfl⟩ hok).1
  obtain ⟨hinv,window,abandoned,rfl⟩:=hs
  refine ⟨hinv.abandonEpoch (f:=f) hw hone,?_⟩
  rcases abandonEpoch_ok hone with rfl | ⟨window',st, -, -, -, -, -,rfl⟩
  · exact ⟨window,abandoned,rfl⟩
  · exact ⟨window',_,rfl⟩

end Abandoned

end WindowsThreadpoolSys.DurableIoring
