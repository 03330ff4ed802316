import Mathlib.Data.List.Basic
import Mathlib.Data.List.Infix
import Mathlib.Tactic.Linarith

/-! A span is a half-open range of numbers. Spans are linked from a start if each begins where the one before
it ended, so together they cover each number from the start to their end once. -/
namespace Library
open List

/-- Each span begins where the one before it ended, the first at `start`, and none runs backwards. -/
def Linked : ℕ → List (ℕ × ℕ) → Prop
  | _, [] => True
  | start, span :: rest => span.1 = start ∧ start ≤ span.2 ∧ Linked span.2 rest

def spansEnd : ℕ → List (ℕ × ℕ) → ℕ
  | start, [] => start
  | _, span :: rest => spansEnd span.2 rest

def spanHas (x : ℕ) (span : ℕ × ℕ) : Bool := decide (span.1 ≤ x ∧ x < span.2)

variable {start : ℕ} {l l' : List (ℕ × ℕ)}

theorem spansEnd_concat (start : ℕ) (l : List (ℕ × ℕ)) (span : ℕ × ℕ) :
    spansEnd start (l++[span])=span.2 := by
  induction l generalizing start with
  | nil=>rfl
  | cons a rest ih=>exact ih a.2

theorem Linked.concat (h : Linked start l) {span : ℕ × ℕ} (hbegin : span.1=spansEnd start l)
    (hle : span.1 ≤ span.2) : Linked start (l++[span]) := by
  induction l generalizing start with
  | nil =>
    have hstart : span.1=start:=hbegin
    exact ⟨hstart,hstart ▸ hle,trivial⟩
  | cons a rest ih=>exact ⟨h.1,h.2.1,ih h.2.2 hbegin⟩

theorem Linked.of_append (h : Linked start (l++l')) : Linked start l := by
  induction l generalizing start with
  | nil=>trivial
  | cons a rest ih=>exact ⟨h.1,h.2.1,ih h.2.2⟩

theorem Linked.le_end (h : Linked start l) : start ≤ spansEnd start l := by
  induction l generalizing start with
  | nil=>exact le_rfl
  | cons a rest ih=>exact h.2.1.trans (ih h.2.2)

/-- Linked spans cover each number from their start to their end once, and no other. -/
theorem Linked.countP_spanHas (h : Linked start l) (x : ℕ) :
    l.countP (spanHas x)=if start ≤ x ∧ x < spansEnd start l then 1 else 0 := by
  induction l generalizing start with
  | nil =>
    rw [if_neg]
    · rfl
    · simp only [spansEnd]
      omega
  | cons a rest ih =>
    obtain ⟨hbegin,hle,hrest⟩:=h
    have hend:=hrest.le_end
    rw [countP_cons,ih hrest]
    simp only [spanHas,spansEnd,decide_eq_true_eq,hbegin]
    by_cases hin : x < a.2
    · have hbefore : ¬ (a.2 ≤ x ∧ x < spansEnd a.2 rest):=by omega
      have hiff : (start ≤ x ∧ x < a.2) ↔ (start ≤ x ∧ x < spansEnd a.2 rest):=by omega
      rw [if_neg hbefore,Nat.zero_add]
      exact if_congr hiff rfl rfl
    · have hafter : ¬ (start ≤ x ∧ x < a.2):=by omega
      have hiff : (a.2 ≤ x ∧ x < spansEnd a.2 rest) ↔ (start ≤ x ∧ x < spansEnd a.2 rest):=by omega
      rw [if_neg hafter,Nat.add_zero]
      exact if_congr hiff rfl rfl

theorem filter_le_isPrefix {α : Type} {l : List (ℕ × α)} (h : l.Pairwise fun a b => a.1 ≤ b.1) (k : ℕ) :
    (l.filter fun a => decide (a.1 ≤ k)) <+: l := by
  induction l with
  | nil=>exact prefix_rfl
  | cons a rest ih =>
    obtain ⟨hhead,hrest⟩:=pairwise_cons.mp h
    by_cases hk : a.1 ≤ k
    · rw [filter_cons_of_pos (by simpa using hk)]
      exact prefix_cons_inj a |>.mpr (ih hrest)
    · have hnone : (a::rest).filter (fun a=>decide (a.1 ≤ k))=[]:=by
        refine filter_eq_nil_iff.mpr fun b hb=>?_
        rcases mem_cons.mp hb with rfl | hb
        · simpa using hk
        · have hle:=hhead b hb
          simp only [decide_eq_true_eq]
          omega
      rw [hnone]
      exact nil_prefix

end Library
