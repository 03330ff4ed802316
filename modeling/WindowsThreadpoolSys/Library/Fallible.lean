import Mathlib.Tactic

/-! A computation in `Except ε` either succeeds or stops. `bind_eq_ok` and `map_eq_ok` take a success apart,
`ok_of_any` reads a success off a test of its result, `foldlM_invariant` carries a property through a successful
fold, and `foldlM_ok_iff` says when a fold whose steps look at the element only succeeds. -/
namespace Library
open List

variable {ε α β σ : Type}

@[simp] theorem bind_eq_ok {x : Except ε α} {f : α → Except ε β} {b : β} :
    (x >>= f)=.ok b ↔ ∃ a,x=.ok a ∧ f a=.ok b := by
  cases x with
  | error e | ok a=>simp [bind,Except.bind]

theorem map_eq_ok {x : Except ε α} {f : α → β} {b : β} :
    x.map f=.ok b ↔ ∃ a,x=.ok a ∧ f a=b := by
  cases x with
  | error e | ok a=>simp [Except.map]

theorem ok_of_toOption {x : Except ε α} {a : α} (h : x.toOption=some a) : x=.ok a := by
  cases x with
  | error e=>cases h
  | ok b =>
    cases h
    rfl

theorem ok_of_any {x : Except ε α} {p : α → Bool} (h : x.toOption.any p=true) :
    ∃ a,x=.ok a ∧ p a=true := by
  obtain ⟨a,ha,hp⟩:=(Option.any_eq_true _ _).mp h
  exact ⟨a,ok_of_toOption ha,hp⟩

variable {f : σ → α → Except ε σ} {l : List α} {s : σ}

/-- A property every step keeps is kept by the fold. -/
theorem foldlM_invariant {s' : σ} (P : σ → Prop)
    (hstep : ∀ s a s',a ∈ l → P s → f s a=.ok s' → P s') (hs : P s)
    (hfold : l.foldlM f s=.ok s') : P s' := by
  induction l generalizing s with
  | nil =>
    cases hfold
    exact hs
  | cons a rest ih =>
    rw [foldlM_cons,bind_eq_ok] at hfold
    obtain ⟨t,hfa,hrest⟩:=hfold
    exact ih (fun s b s' hb=>hstep s b s' (mem_cons_of_mem _ hb))
      (hstep s a t mem_cons_self hs hfa) hrest

/-- A property indexed by what is left of the list is carried to its end. -/
theorem foldlM_progress {s' : σ} (P : List α → σ → Prop)
    (hstep : ∀ a rest s s',P (a::rest) s → f s a=.ok s' → P rest s') (hs : P l s)
    (hfold : l.foldlM f s=.ok s') : P [] s' := by
  induction l generalizing s with
  | nil =>
    cases hfold
    exact hs
  | cons a rest ih =>
    rw [foldlM_cons,bind_eq_ok] at hfold
    obtain ⟨t,hfa,hrest⟩:=hfold
    exact ih (hstep a rest s t hs hfa) hrest

/-- A fold whose steps succeed or stop by the element alone succeeds when all its elements let it. -/
theorem foldlM_ok_iff {P : α → Prop} (hstep : ∀ s a,(∃ s',f s a=.ok s') ↔ P a) :
    (∃ s',l.foldlM f s=.ok s') ↔ ∀ a ∈ l,P a := by
  induction l generalizing s with
  | nil=>exact ⟨fun _ _ h=>absurd h not_mem_nil,fun _=>⟨s,rfl⟩⟩
  | cons a rest ih =>
    simp only [foldlM_cons,bind_eq_ok,forall_mem_cons]
    constructor
    · rintro ⟨s',t,ht,hrest⟩
      exact ⟨(hstep s a).mp ⟨t,ht⟩,ih.mp ⟨s',hrest⟩⟩
    · rintro ⟨ha,hrest⟩
      obtain ⟨t,ht⟩:=(hstep s a).mpr ha
      obtain ⟨s',hs'⟩:=(ih (s:=t)).mpr hrest
      exact ⟨s',t,ht,hs'⟩

end Library
