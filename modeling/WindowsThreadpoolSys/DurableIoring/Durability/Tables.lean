import WindowsThreadpoolSys.DurableIoring.Durability.State

/-! The operations `window.rs`, `spans.rs`, `kept.rs` and `tables.rs` make on one table each. A hold
or a release the table does not agree with is an inconsistency. -/
namespace WindowsThreadpoolSys.DurableIoring
open Library

/-! ## The submit window -/

inductive Holder where
  | operation
  | uncovered
  | suspect
  | pin
  | abandoned
  deriving DecidableEq, Repr

namespace Holds

def isHeld (h : Holds) : Bool :=
  h.operation || h.uncovered || decide (0 < h.suspected) || h.pinned || h.abandoned

def take (h : Holds) : Holder → Except Inconsistency Holds
  | .operation => if h.operation then .error .admittedTwice else .ok { h with operation := true }
  | .uncovered => if h.uncovered then .error .uncoveredTwice else .ok { h with uncovered := true }
  | .suspect => .ok { h with suspected := h.suspected + 1 }
  | .pin => if h.pinned then .error .twoSealsOnePlace else .ok { h with pinned := true }
  | .abandoned =>
    if h.abandoned then .error .twoAbandonedOnePlace else .ok { h with abandoned := true }

def letGo (h : Holds) : Holder → Option Holds
  | .operation => if h.operation then some { h with operation := false } else none
  | .uncovered => if h.uncovered then some { h with uncovered := false } else none
  | .suspect => if 0 < h.suspected then some { h with suspected := h.suspected - 1 } else none
  | .pin => if h.pinned then some { h with pinned := false } else none
  | .abandoned => if h.abandoned then some { h with abandoned := false } else none

end Holds

namespace Window

def holds (window : Window) (op : OpId) : Holds := (window.get op).getD Holds.default

def hold (window : Window) (limit : ℕ) (op : OpId) (holder : Holder) :
    Except Inconsistency Window :=
  match window.insertWithin limit op (window.holds op) with
  | none => .error .placesFull
  | some _ => do
    let held ← (window.holds op).take holder
    .ok (window.insert op held)

def release (window : Window) (op : OpId) (holder : Holder) : Except Inconsistency Window :=
  match window.get op with
  | none => .error .releasedNoPlace
  | some h =>
    match h.letGo holder with
    | none => .error .releasedNotHeld
    | some rest => .ok (if rest.isHeld then window.insert op rest else window.erase op)

def suspected (window : Window) (op : OpId) : Bool :=
  match window.get op with
  | none => false
  | some h => decide (0 < h.suspected)

def unpin (window : Window) : Option OpId → Except Inconsistency Window
  | none => .ok window
  | some op => window.release op .pin

end Window

/-! ## Spans and kept writes -/

namespace Spans

def enter (spans : Spans) (limit : ℕ) (key : SpanKey) (domains : DomainList) :
    Except Inconsistency Spans :=
  let entry := (spans.get key).getD (SpanFile.new domains)
  match spans.insertWithin limit key { entry with writes := entry.writes + 1 } with
  | none => .error .spansFull
  | some spans => .ok spans

def leave (spans : Spans) (key : SpanKey) (lost : Inconsistency) : Except Inconsistency Spans :=
  match spans.get key with
  | none => .error lost
  | some entry =>
    .ok (if entry.writes - 1 = 0 then spans.erase key
      else spans.insert key { entry with writes := entry.writes - 1 })

end Spans

def Kept.keep {E : Type} (kept : Kept E) (limit : ℕ) (write : Gone E) :
    Except Inconsistency (Kept E) :=
  if (kept.get write.op).isSome then .error .keptTwice
  else
    match kept.insertWithin limit write.op write with
    | none => .error .keptFull
    | some kept => .ok kept

/-! ## Seals, counts and gated writes -/

def sealsOf {E : Type} (seals : Seals E) (lineage : Key) : List (Seal E) :=
  seals.select fun k => decide (k.lineage = lineage)

namespace Counts

variable {E : Type} [LinearOrder E]

def lowest (counts : Counts E) (lineage : Key) : Option E :=
  ((counts.entries.filter fun e => e.1.lineage = lineage).head?).map fun e => e.1.epoch

def countAt (counts : Counts E) (lineage : Key) (epoch : E) : ℕ := (counts.get ⟨lineage, epoch⟩).getD 0

def countUp (counts : Counts E) (limit : ℕ) (lineage : Key) (epoch : E) : Option (Counts E) :=
  counts.insertWithin limit ⟨lineage, epoch⟩ (counts.countAt lineage epoch + 1)

def countDown (counts : Counts E) (lineage : Key) (epoch : E) : Counts E :=
  match counts.get ⟨lineage, epoch⟩ with
  | none => counts
  | some n =>
    if n - 1 = 0 then counts.erase ⟨lineage, epoch⟩ else counts.insert ⟨lineage, epoch⟩ (n - 1)

end Counts

def gatedOf {E : Type} [LinearOrder E] (gated : Table (GatedKey E) (Gate E)) (lineage : Key)
    (covers : E → Bool) : List (GatedKey E × Gate E) :=
  gated.entries.filter fun e => e.1.lineage = lineage && covers e.1.epoch

def forgetDomains (sealDomains : SealDomains) (served : List DomainId) (lineage : Key) (seq : ℕ) :
    SealDomains :=
  served.foldl (fun table domain => table.erase ⟨lineage, seq, domain⟩) sealDomains

end WindowsThreadpoolSys.DurableIoring
