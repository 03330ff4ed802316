import WindowsThreadpoolSys.DurableIoring.Durability.Run

/-! `promises` decides what the caller promises of a call, so that a list of calls can be played. A
relisting is played only before anything names a list. -/
namespace WindowsThreadpoolSys.DurableIoring
open Library Option

namespace Durability

variable {E T I : Type} [LinearOrder E]

def isFresh (d : Durability E T I) (op : OpId) : Bool :=
  d.window.holds op = { Holds.default with operation := true } && d.nextPush ≤ op &&
    (d.held.get op).isNone

def mayJoin (d : Durability E T I) (a : Accepted E T) : Bool :=
  d.isFresh a.op && (d.refuses a.lineage a.epoch).isNone && !d.isAbandoned a.lineage a.epoch &&
    a.routing = routing (d.lists.get a.domains) d.served &&
    (d.writes.vals.all fun w => !(w.lineage = a.lineage && w.file = a.file) || w.domains = a.domains) &&
    d.held.vals.all fun h => (h.write.all fun w =>
      !(w.lineage = a.lineage && w.file = a.file) || w.domains = a.domains)

def promises (d : Durability E T I) : Call E T → Bool
  | .popped op => (d.held.get op).isNone
  | .pushed a => d.mayJoin a
  | .hold op none gate => d.isFresh op && d.gateState gate = .waiting
  | .hold op (some a) gate => a.op = op && d.mayJoin a && d.gateState gate = .waiting &&
      !d.writeCycle ⟨a.lineage, a.epoch⟩ gate
  | .resolve items =>
      (items.map fun item => item.1.id).Nodup &&
        items.all fun item => !(item.1.id.instance_ = d.instance_) ||
          d.tokens[item.1.slot]? = some { failure := item.1.id.seq, live := true }
  | .relist _ => d.writes.vals.isEmpty && d.held.vals.isEmpty && d.kept.vals.isEmpty &&
      d.failures.isEmpty
  | _ => true

variable {d : Durability E T I}

theorem fresh_of_isFresh {op : OpId} (h : d.isFresh op=true) : d.Fresh op := by
  simp only [isFresh,Bool.and_eq_true,decide_eq_true_eq,isNone_iff_eq_none] at h
  exact ⟨h.1.1,h.1.2,h.2⟩

theorem joins_of_mayJoin {a : Accepted E T} (h : d.mayJoin a=true) : d.Joins a := by
  simp only [mayJoin,Bool.and_eq_true,decide_eq_true_eq,isNone_iff_eq_none,
    Bool.not_eq_true',List.all_eq_true,Table.mem_vals,Bool.or_eq_true,forall_exists_index] at h
  obtain ⟨⟨⟨⟨⟨hfresh,hunsealed⟩,hopen⟩,hrouted⟩,hwritten⟩,hheld⟩:=h
  refine ⟨fresh_of_isFresh hfresh,hunsealed,hopen,hrouted,fun op w hw hl hf=>?_,
    fun op h w hh hw hl hf=>?_⟩
  · simpa [hl,hf] using hwritten w op hw
  · simpa [hw,hl,hf] using hheld h op hh

theorem not_named_of_bare (hwrites : d.writes.vals.isEmpty=true)
    (hheld : d.held.vals.isEmpty=true) (hkept : d.kept.vals.isEmpty=true)
    (hfailures : d.failures.isEmpty=true) (list : DomainList) : ¬d.Named list := by
  have hnone : ∀ {α : Type} {t : Table OpId α} {op : OpId} {v : α},t.vals.isEmpty=true →
      t.get op≠some v:=by
    intro α t op v hempty hget
    have hmem : v ∈ t.vals:=Table.mem_vals.mpr ⟨op,hget⟩
    rw [List.isEmpty_iff.mp hempty] at hmem
    cases hmem
  rw [List.isEmpty_iff] at hfailures
  rintro (⟨op,w,hw, -, -⟩ | ⟨op,w,hw, -, -⟩ | ⟨op,h, -,hh, -, -⟩ | ⟨op,g,hg, -⟩ |
    ⟨f,hf, -⟩ | ⟨f,hf, -⟩)
  · exact hnone hwrites hw
  · exact hnone hwrites hw
  · exact hnone hheld hh
  · exact hnone hkept hg
  · rw [hfailures] at hf; cases hf
  · rw [hfailures] at hf; cases hf

theorem promised_of_promises {call : Call E T} (h : d.promises call=true) : d.Promised call := by
  cases call with
  | popped op=>exact isNone_iff_eq_none.mp h
  | pushed a=>exact joins_of_mayJoin h
  | hold op write gate =>
    cases write with
    | none =>
      simp only [promises,Bool.and_eq_true,decide_eq_true_eq] at h
      exact ⟨fresh_of_isFresh h.1,h.2⟩
    | some a =>
      simp only [promises,Bool.and_eq_true,decide_eq_true_eq,Bool.not_eq_true'] at h
      exact ⟨h.1.1.1,joins_of_mayJoin h.1.1.2,h.1.2,h.2⟩
  | resolve items =>
    simp only [promises,Bool.and_eq_true,decide_eq_true_eq,List.all_eq_true,Bool.or_eq_true,
      Bool.not_eq_true',decide_eq_false_iff_not] at h
    exact ⟨h.1,fun item hitem hinstance=>(h.2 item hitem).resolve_left (not_not_intro hinstance)⟩
  | relist lists =>
    simp only [promises,Bool.and_eq_true] at h
    exact fun list hnamed=>absurd hnamed (not_named_of_bare h.1.1.1 h.1.1.2 h.1.2 h.2 list)
  | _=>trivial

/-- `call`, if it is promised and finds no inconsistency. -/
def make (d : Durability E T I) (call : Call E T) : Option (Made E T I × Durability E T I) :=
  if d.promises call then (d.call call).toOption.map fun change => (⟨call, change⟩, change.core)
  else none

theorem makes_of_make (d : Durability E T I) (call : Call E T) (made : Made E T I)
    (d' : Durability E T I) (h : d.make call=some (made,d')) : Makes d made d' := by
  unfold make at h
  split_ifs at h with hpromises
  obtain ⟨change,hchange,heq⟩:=map_eq_some_iff.mp h
  cases hcall : d.call call with
  | error _=>simp [hcall,Except.toOption] at hchange
  | ok change' =>
    rw [hcall] at hchange
    cases hchange
    cases heq
    exact .make call _ (promised_of_promises hpromises) hcall

end Durability

def Call.isRelist {E T : Type} : Call E T → Bool
  | .relist _ => true
  | _ => false

/-! ## A core to play on -/

/-- A core of a few operations and lineages, over numbered epochs, whose provider serves `served`. -/
def smallCore (served : List DomainId) : Durability ℕ Unit ℕ :=
  Durability.new 0 (fun n => n) ⟨8, 3, 2, 4, 4⟩ served false

theorem smallCore_run {served : List DomainId} (h : served.Pairwise (·<·)) :
    Run (E := ℕ) (T := Unit) (I := ℕ) [] (smallCore served) :=
  .start (.new 0 (fun n=>n) ⟨8,3,2,4,4⟩ served false (by decide) h)

def plainWrite (op lineage epoch file : ℕ) : Accepted ℕ Unit :=
  { op := op, lineage := lineage, epoch := epoch, file := file, target := (),
    routing := { default := true, provider := false }, domains := DomainList.empty }

def deviceFault : IoFault := { source := "device", code := some (-1), refusal := none, error := 0 }

/-- Two epochs of the default lineage written to one file and sealed. The first is made durable; the
flush of the second fails, and the failure is unresolved. -/
def flushedThenFailed : List (Call ℕ Unit) :=
  [.admit_ 0, .pushed (plainWrite 0 0 1 0), .completed 0 .succeeded, .popped 0, .sealThrough 0 1,
    .flushed 0 1 0 none, .admit_ 1, .pushed (plainWrite 1 0 2 0), .completed 1 .succeeded, .popped 1,
    .sealThrough 0 2, .flushed 0 2 0 (some deviceFault)]

end WindowsThreadpoolSys.DurableIoring
