import Mathlib.Tactic

/-! A system is a type of states, a type of events and the steps an event may make from a state. An execution
is kept with every step it took, the last one first. A script names the events one after the other, each
with a view of the state it is made in. -/
namespace Library
open List

variable {σ ε μ : Type} {Step : σ → ε → σ → Prop} {init : σ → Prop} {s : σ}

structure Taken (σ ε : Type) where
  before : σ
  event : ε
  after : σ

inductive Execution (Step : σ → ε → σ → Prop) (init : σ → Prop) : List (Taken σ ε) → σ → Prop where
  | start {s : σ} (hinit : init s) : Execution Step init [] s
  | next {taken : List (Taken σ ε)} {s s' : σ} (run : Execution Step init taken s) (event : ε)
      (hstep : Step s event s') : Execution Step init (⟨s, event, s'⟩ :: taken) s'

/-- The steps of a function that has none for an event the state does not allow. -/
abbrev Allows (step : σ → ε → Option σ) (s : σ) (event : ε) (s' : σ) : Prop := step s event = some s'

variable {taken : List (Taken σ ε)}

/-- What the initial states have and every step keeps, given what is asked of each step taken. -/
theorem Execution.invariant {P : σ → Prop} {Q : Taken σ ε → Prop} (run : Execution Step init taken s)
    (hasked : ∀ t ∈ taken,Q t) (hinit : ∀ s,init s → P s)
    (hkept : ∀ s event s',P s → Q ⟨s,event,s'⟩ → Step s event s' → P s') : P s := by
  induction run with
  | start h=>exact hinit _ h
  | @next taken s s' run event hstep ih =>
    refine hkept s event s' (ih fun t ht=>?_) (hasked _ mem_cons_self) hstep
    exact hasked t (mem_cons_of_mem _ ht)

/-- Each step of an execution was taken from where an earlier part of it led. -/
theorem Execution.of_mem (run : Execution Step init taken s) {t : Taken σ ε} (ht : t ∈ taken) :
    ∃ earlier,earlier <:+ taken ∧ Execution Step init earlier t.before ∧
      Step t.before t.event t.after := by
  induction run with
  | start=>cases ht
  | @next taken s s' run event hstep ih =>
    rcases mem_cons.mp ht with rfl | hold
    · exact ⟨taken,suffix_cons _ _,run,hstep⟩
    · obtain ⟨earlier,hsuffix,hrun,htaken⟩:=ih hold
      exact ⟨earlier,hsuffix.trans (suffix_cons _ _),hrun,htaken⟩

/-- The steps a script takes from `s`, put before those taken already. -/
def playFrom (read : σ → μ → Option (ε × σ)) :
    List μ → List (Taken σ ε) → σ → Option (List (Taken σ ε) × σ)
  | [], taken, s => some (taken, s)
  | move :: rest, taken, s =>
    (read s move).bind fun made => playFrom read rest (⟨s, made.1, made.2⟩ :: taken) made.2

/-- An execution goes on with any script whose moves are steps. -/
theorem Execution.play (run : Execution Step init taken s) (read : σ → μ → Option (ε × σ))
    (hread : ∀ s move event s',read s move=some (event,s') → Step s event s') (script : List μ)
    (check : List (Taken σ ε) → σ → Bool)
    (h : (playFrom read script taken s).any (fun played => check played.1 played.2)=true) :
    ∃ taken s,Execution Step init taken s ∧ check taken s=true := by
  induction script generalizing taken s with
  | nil=>exact ⟨taken,s,run,h⟩
  | cons move rest ih =>
    rw [playFrom] at h
    cases hmade : read s move with
    | none =>
      rw [hmade] at h
      cases h
    | some made =>
      rw [hmade] at h
      exact ih (run.next made.1 (hread s move made.1 made.2 hmade)) h

/-- The step `step` makes on the event that `name` reads from a move. -/
def named (step : σ → ε → Option σ) (name : σ → μ → Option ε) (s : σ) (move : μ) : Option (ε × σ) :=
  (name s move).bind fun event => (step s event).map fun s' => (event, s')

theorem named_allows {step : σ → ε → Option σ} {name : σ → μ → Option ε} (s : σ) (move : μ) (event : ε)
    (s' : σ) (h : named step name s move=some (event,s')) : Allows step s event s' := by
  obtain ⟨event', -,hmap⟩:=Option.bind_eq_some_iff.mp h
  obtain ⟨_,hstep,heq⟩:=Option.map_eq_some_iff.mp hmap
  cases heq
  exact hstep

/-- A script of events as they are. -/
abbrev plainly (step : σ → ε → Option σ) : σ → ε → Option (ε × σ) := named step fun _ event => some event

end Library
