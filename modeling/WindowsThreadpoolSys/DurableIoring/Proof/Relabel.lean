import WindowsThreadpoolSys.DurableIoring.Proof.Push

/-! A write completing, being named to a seal, and outliving its lineage change only how far the write
has come. The families that read no more of a write than which write it is keep. -/
namespace WindowsThreadpoolSys.DurableIoring
open Library Table Option

variable {E T I : Type} [LinearOrder E]

structure Relabels (writes writes' : Table OpId (Write E T)) : Prop where
  back : ∀ op w', writes'.get op = some w' → ∃ w, writes.get op = some w ∧
    w' = { w with stage := w'.stage, until_ := w'.until_ }
  same_ops : ∀ op, (writes'.get op).isSome = (writes.get op).isSome

namespace Relabels

variable {writes writes' : Table OpId (Write E T)} {op : OpId} {w : Write E T}

section

omit [LinearOrder E]

theorem map (f : Write E T → Write E T)
    (hf : ∀ w,f w={ w with stage := (f w).stage,until_ := (f w).until_ }) :
    Relabels writes (writes.map fun _ w => f w) where
  back op w' hw' := by
    rw [Table.get_map] at hw'
    obtain ⟨w,hw,rfl⟩:=map_eq_some_iff.mp hw'
    exact ⟨w,hw,hf w⟩
  same_ops op:=by rw [Table.get_map,isSome_map]

theorem insert (hw : writes.get op=some w) (stage : Stage) :
    Relabels writes (writes.insert op { w with stage := stage }) where
  back op' w' hw' := by
    rcases of_insert hw' with ⟨hop,rfl⟩ | hw'
    · exact ⟨w,hop ▸ hw,rfl⟩
    · exact ⟨w',hw',rfl⟩
  same_ops op':=by
    rw [get_insert]
    split_ifs with hop
    · rw [hop,hw]
      rfl
    · rfl

theorem get_none (h : Relabels writes writes') (hnone : writes.get op=none) :
    writes'.get op=none := by
  rw [← not_isSome_iff_eq_none,h.same_ops,hnone]
  simp

theorem get_some (h : Relabels writes writes') (hw : writes.get op=some w) :
    ∃ w',writes'.get op=some w' ∧ w'={ w with stage := w'.stage,until_ := w'.until_ } := by
  obtain ⟨w',hw'⟩:=isSome_iff_exists.mp
    (by rw [h.same_ops,hw]; rfl : (writes'.get op).isSome=true)
  obtain ⟨w₀,hw₀,heq⟩:=h.back op w' hw'
  rw [hw] at hw₀
  cases hw₀
  exact ⟨w',hw',heq⟩

end

/-! ## The families -/

section Families

variable {held : Table OpId (HeldOp E T)} {seals : Seals E} {kept : Kept E}
  {lineages : Table Key (LineageState E)} {lists : DomainLists} {served : List DomainId}
  {failures : List (Failure I)}
variable (h : Relabels writes writes')
include h

section

omit [LinearOrder E]

theorem keys (hkeys : KeysOk writes held seals kept) : KeysOk writes' held seals kept :=
  { hkeys with
    write_key:=fun op w' hw'=>by
      obtain ⟨w,hw,heq⟩:=h.back op w' hw'
      rw [heq]
      exact hkeys.write_key op w hw
    write_not_held:=fun op w' hw'=>by
      obtain ⟨w,hw, -⟩:=h.back op w' hw'
      exact hkeys.write_not_held op w hw
    kept_not_write:=fun op g hg=>h.get_none (hkeys.kept_not_write op g hg) }

theorem clocks {nextPush nextFailure : ℕ} {nextLineage : Key}
    (hclocks : ClocksOk writes held kept lineages nextPush nextFailure nextLineage) :
    ClocksOk writes' held kept lineages nextPush nextFailure nextLineage := { hclocks with
  write_clock:=fun op w' hw'=>by
    obtain ⟨w,hw,heq⟩:=h.back op w' hw'
    rw [heq]
    exact hclocks.write_clock op w hw }

theorem files {spans spans' : Spans} (hfiles : FilesOk lineages writes held spans lists served)
    (hentry : ∀ op w' e,writes'.get op=some w' → spans'.get w'.spanKey=some e →
      e.domains=w'.domains) : FilesOk lineages writes' held spans' lists served := { hfiles with
  write_routed:=fun op w' st hw' hst hlive=>by
    obtain ⟨w,hw,heq⟩:=h.back op w' hw'
    rw [heq] at hst ⊢
    exact hfiles.write_routed op w st hw hst hlive
  same_write:=fun op w' op₂ w₂' hw' hw₂' hl hf=>by
    obtain ⟨w,hw,heq⟩:=h.back op w' hw'
    obtain ⟨w₂,hw₂,heq₂⟩:=h.back op₂ w₂' hw₂'
    rw [heq,heq₂] at hl hf ⊢
    exact hfiles.same_write op w op₂ w₂ hw hw₂ hl hf
  same_held:=fun op w' op₂ g a hw' hg ha hl hf=>by
    obtain ⟨w,hw,heq⟩:=h.back op w' hw'
    rw [heq] at hl hf ⊢
    exact hfiles.same_held op w op₂ g a hw hg ha hl hf
  entry_domains:=hentry }

theorem suspects {nextFailure : ℕ} {instance_ : InstanceId}
    (hsuspects : SuspectsOk failures writes kept lists lineages nextFailure instance_)
    (hnamed : ∀ op w w',writes.get op=some w → writes'.get op=some w' → ∀ f ∈ failures,
      w'.namedBy lists f=w.namedBy lists f) :
    SuspectsOk failures writes' kept lists lineages nextFailure instance_ := { hsuspects with
  write_named:=fun f hf op w' st hw' hst hread=>by
    obtain ⟨w,hw,heq⟩:=h.back op w' hw'
    rw [hnamed op w w' hw hw' f hf]
    rw [heq] at hst
    exact hsuspects.write_named f hf op w st hw hst hread
  listed_record:=fun f hf op hmem=>by
    refine (hsuspects.listed_record f hf op hmem).imp_left ?_
    rintro ⟨w,hw⟩
    obtain ⟨w',hw', -⟩:=h.get_some hw
    exact ⟨w',hw'⟩ }

end

theorem window {window : Window} {abandoned : Table (EpochKey E) OpId} {operations : ℕ}
    (hwindow : WindowOk window writes held kept failures seals abandoned operations) :
    WindowOk window writes' held kept failures seals abandoned operations := { hwindow with
  uncovered_level:=fun op=>by rw [hwindow.uncovered_level,h.same_ops]
  seal_pin:=fun k s hs=>by
    obtain ⟨pin,hpin,hpinned,hheld⟩:=hwindow.seal_pin k s hs
    refine ⟨pin,hpin,fun w' hw'=>?_,hheld⟩
    obtain ⟨w,hw,heq⟩:=h.back pin w' hw'
    rw [heq]
    exact hpinned w hw
  abandoned_pin:=fun k op hk=>by
    obtain ⟨hheld,hwrite,hgone⟩:=hwindow.abandoned_pin k op hk
    refine ⟨hheld,fun w' hw'=>?_,hgone⟩
    obtain ⟨w,hw,heq⟩:=h.back op w' hw'
    rw [heq]
    exact hwrite w hw }

end Families

end Relabels

end WindowsThreadpoolSys.DurableIoring
