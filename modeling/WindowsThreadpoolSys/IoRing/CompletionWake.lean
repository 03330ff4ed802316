import WindowsThreadpoolSys.Library.Execution

/-! A `CompletionWake` attaches the ring's completion event, arms a thread-pool wait on it, raises the event
once, and from then on has each activation of the wait call `on_wake`, re-arm and call `on_wake` again.

The event is an edge. It resets when a wait activates on it and is set when the completion queue goes from
empty to non-empty, so a completion that arrives behind another raises nothing. `on_wake` pops until a pop
finds the queue empty, one pop a step; any number of activations run at once, and the owner of the ring may
pop beside them. -/
namespace WindowsThreadpoolSys.CompletionWake
open Library List

/-- Where an activation's callback is: in its first call of `on_wake` or before it, about to re-arm, in its
second call or before it, or about to return. -/
inductive Activation
  | first
  | rearm
  | second
  | left
deriving DecidableEq

def Activation.rearms (a : Activation) : Bool := a = .first || a = .rearm

def Activation.drains (a : Activation) : Bool := a ≠ .left

/-- Where `CompletionWake::new` is, and what comes after it. -/
inductive Stage
  | attaching
  | creating
  | arming
  | signalling
  | live
  | dropping
  | dropped
  | failed
deriving DecidableEq

def Stage.tearing (stage : Stage) : Bool := stage = .dropping || stage = .dropped || stage = .failed

structure State where
  queue : ℕ
  attached : Bool
  signalled : Bool
  armed : Bool
  /-- The count of `RearmSuppression`. -/
  suppressed : ℕ
  activations : List Activation
  stage : Stage
deriving DecidableEq

inductive Event
  | completion
  | pop
  | activate
  /-- The next step of an activation that is at this point. -/
  | go (a : Activation)
  /-- The next step of `new`, and whether the call it makes succeeds. -/
  | setUp (ok : Bool)
  | drop
  | drained
deriving DecidableEq

namespace State

variable (s : State)

def completion : State :=
  { s with queue := s.queue + 1, signalled := s.signalled || (s.attached && s.queue = 0) }

/-- An armed wait on a set event activates, which resets the event and uses up the arming. -/
def activate : Option State :=
  if s.armed && s.signalled then
    some { s with armed := false, signalled := false, activations := .first :: s.activations }
  else none

def move (a b : Activation) : State := { s with activations := b :: s.activations.erase a }

/-- One pop of an `on_wake` call, which returns once the queue is found empty. -/
def popOrLeave (a b : Activation) : State :=
  if s.queue = 0 then s.move a b else { s with queue := s.queue - 1 }

/-- `rearm_reporting`: nothing is armed while suppressed. -/
def rearm : State := if 0 < s.suppressed then s else { s with armed := true }

def go : Activation → State
  | .first => s.popOrLeave .first .rearm
  | .rearm => s.rearm.move .rearm .second
  | .second => s.popOrLeave .second .left
  | .left => { s with activations := s.activations.erase .left }

/-- The steps of `new`: `attach_completion_event_unsignalled`, `ThreadpoolWait::new`, `arm` and
`raise_setup_signal`. A ring with no event yet is given one that is not set. -/
def setUp (ok : Bool) : Option State :=
  match s.stage with
  | .attaching =>
    if ok then
      some { s with
        stage := .creating
        attached := true
        signalled := s.attached && s.signalled }
    else some { s with stage := .failed }
  | .creating => some { s with stage := if ok then .arming else .failed }
  | .arming => some { s with stage := .signalling, armed := true }
  | .signalling =>
    -- A wait whose construction fails is dropped, disarmed.
    some (if ok then { s with stage := .live, signalled := true }
      else { s with stage := .failed, armed := false, suppressed := s.suppressed + 1 })
  | _ => none

/-- `stop_and_drain`, up to the wait for the callbacks: `suppress_and` a disarm. -/
def drop : Option State :=
  if s.stage = .live then
    some { s with stage := .dropping, suppressed := s.suppressed + 1, armed := false }
  else none

def drained : Option State :=
  if s.stage = .dropping ∧ s.activations = [] then
    some { s with stage := .dropped, suppressed := s.suppressed - 1 }
  else none

def step : Event → Option State
  | .completion => some s.completion
  | .pop => some { s with queue := s.queue - 1 }
  | .activate => s.activate
  | .go a => if a ∈ s.activations then some (s.go a) else none
  | .setUp ok => s.setUp ok
  | .drop => s.drop
  | .drained => s.drained

/-- Before `new`: any backlog, with the event attached or not, set or consumed. -/
def Initial : Prop :=
  s.stage = .attaching ∧ s.armed = false ∧ s.suppressed = 0 ∧ s.activations = []

end State

/-! ## What every step keeps -/

/-- From the arming on the wait is armed or to be re-armed; from the signal on a non-empty queue is about to
be looked at. -/
structure Ok (s : State) : Prop where
  calm : s.stage.tearing = false → s.suppressed = 0
  attached : s.stage.tearing = false → s.stage ≠ .attaching → s.attached = true
  armed : s.stage = .signalling ∨ s.stage = .live → s.armed = true ∨ ∃ a ∈ s.activations, a.rearms = true
  reached : s.stage = .live → 0 < s.queue → s.signalled = true ∨ ∃ a ∈ s.activations, a.drains = true

variable {s s' : State} {a b : Activation}

theorem exists_move {p : Activation → Bool} (hb : p a=true → p b=true)
    (h : ∃ c ∈ s.activations,p c=true) : ∃ c ∈ (s.move a b).activations,p c=true := by
  obtain ⟨c,hc,hp⟩:=h
  by_cases heq : c=a
  · subst heq
    exact ⟨b,mem_cons_self,hb hp⟩
  · exact ⟨c,mem_cons_of_mem _ ((mem_erase_of_ne heq).mpr hc),hp⟩

theorem Ok.pop (h : Ok s) : Ok { s with queue := s.queue-1 } :=
  { h with reached:=fun hlive hqueue=>h.reached hlive (by simp only at hqueue; omega) }

theorem Ok.popOrLeave (h : Ok s) (hrearms : a.rearms=true → b.rearms=true) :
    Ok (s.popOrLeave a b) := by
  unfold State.popOrLeave
  split_ifs with hempty
  · refine { h with armed:=fun hstage=>?_,reached:=fun _ hqueue=>?_ }
    · exact (h.armed hstage).imp_right (exists_move hrearms)
    · exact absurd hqueue (by rw [show (s.move a b).queue=s.queue from rfl,hempty]; decide)
  · exact h.pop

theorem Ok.rearm (h : Ok s) : Ok (s.rearm.move .rearm .second) := by
  unfold State.rearm
  split_ifs with hsuppressed
  · refine { h with armed:=fun hstage=>?_,reached:=fun hlive hqueue=>?_ }
    · have hat : s.stage=.signalling ∨ s.stage=.live:=hstage
      have hcalm : s.stage.tearing=false:=by rcases hat with hat | hat <;> rw [hat] <;> rfl
      exact absurd (h.calm hcalm) hsuppressed.ne'
    · exact (h.reached hlive hqueue).imp_right (exists_move fun _=>rfl)
  · refine { h with armed:=fun _=>.inl rfl,reached:=fun hlive hqueue=>?_ }
    exact (h.reached hlive hqueue).imp_right (exists_move fun _=>rfl)

theorem Ok.left (h : Ok s) : Ok { s with activations := s.activations.erase .left } := by
  have hkept : ∀ p : Activation → Bool,p .left=false → (∃ c ∈ s.activations,p c=true) →
      ∃ c ∈ s.activations.erase .left,p c=true:=by
    rintro p hp ⟨c,hc,hpc⟩
    refine ⟨c,(mem_erase_of_ne ?_).mpr hc,hpc⟩
    rintro rfl
    rw [hp] at hpc
    cases hpc
  exact { h with
    armed:=fun hstage=>(h.armed hstage).imp_right (hkept _ rfl)
    reached:=fun hlive hqueue=>(h.reached hlive hqueue).imp_right (hkept _ rfl) }

theorem Ok.completion (h : Ok s) : Ok s.completion := by
  refine { h with reached:=fun (hlive : s.stage=.live) _=>?_ }
  have hattached : s.attached=true:=h.attached (by rw [hlive]; rfl) (by rw [hlive]; nofun)
  by_cases hempty : s.queue=0
  · exact .inl (by simp [State.completion,hattached,hempty])
  · rcases h.reached hlive (Nat.pos_of_ne_zero hempty) with hset | hdrains
    · exact .inl (by simp [State.completion,hset])
    · exact .inr hdrains

theorem Ok.activate (h : Ok s) (hstep : s.activate=some s') : Ok s' := by
  unfold State.activate at hstep
  split_ifs at hstep
  cases hstep
  exact { h with
    armed:=fun _=>.inr ⟨.first,mem_cons_self,rfl⟩
    reached:=fun _ _=>.inr ⟨.first,mem_cons_self,rfl⟩ }

theorem Ok.setUp (h : Ok s) {ok : Bool} (hstep : s.setUp ok=some s') : Ok s' := by
  unfold State.setUp at hstep
  cases hstage : s.stage with
  | attaching | creating | arming | signalling =>
    have hcalm:=h.calm
    have hattached:=h.attached
    have harmed:=h.armed
    rw [hstage] at hstep hcalm hattached harmed
    cases ok <;> cases hstep <;> constructor <;> simp_all [Stage.tearing]
  | live | dropping | dropped | failed =>
    rw [hstage] at hstep
    cases hstep

theorem Ok.step (h : Ok s) {event : Event} (hstep : s.step event=some s') : Ok s' := by
  cases event with
  | completion =>
    cases hstep
    exact h.completion
  | pop =>
    cases hstep
    exact h.pop
  | activate=>exact h.activate hstep
  | go a =>
    obtain ⟨-,⟨⟩⟩:=Option.ite_none_right_eq_some.mp hstep
    cases a with
    | first=>exact h.popOrLeave fun _=>rfl
    | rearm=>exact h.rearm
    | second=>exact h.popOrLeave fun hfalse=>(by cases hfalse)
    | left=>exact h.left
  | setUp ok=>exact h.setUp hstep
  | drop =>
    simp only [State.step,State.drop] at hstep
    split_ifs at hstep
    cases hstep
    constructor <;> simp [Stage.tearing]
  | drained =>
    simp only [State.step,State.drained] at hstep
    split_ifs at hstep
    cases hstep
    constructor <;> simp [Stage.tearing]

theorem State.Initial.ok (h : s.Initial) : Ok s := by
  obtain ⟨hstage, -,hsuppressed, -⟩:=h
  constructor <;> simp [hstage,hsuppressed]

/-! ## No completion is stranded -/

/-- The wait is armed or to be re-armed, and while the queue is not empty the event is set or a call
of `on_wake` is still to find it empty. -/
theorem no_completion_stranded {taken : List (Taken State Event)}
    (run : Execution (Allows State.step) State.Initial taken s) (hlive : s.stage = .live) :
    (s.armed = true ∨ ∃ a ∈ s.activations, a.rearms = true) ∧
      (0 < s.queue → s.signalled = true ∨ ∃ a ∈ s.activations, a.drains = true) := by
  have h : Ok s:=run.invariant (Q:=fun _=>True) (fun _ _=>trivial) (fun _ hinit=>hinit.ok)
    fun _ _ _ hok _ hstep=>hok.step hstep
  exact ⟨h.armed (.inr hlive),h.reached hlive⟩

def backlog : State :=
  { queue := 2, attached := true, signalled := false, armed := false, suppressed := 0, activations := [],
    stage := .attaching }

/-- The backlog is reached, and so is a completion that comes between the last pop and the re-arm. -/
def lateCompletion : List Event :=
  List.replicate 4 (.setUp true) ++ [.activate, .go .first, .go .first, .go .first, .completion,
    .completion, .go .rearm]

theorem no_completion_stranded_late : ∃ taken s, Execution (Allows State.step) State.Initial taken s ∧
    s.stage = .live ∧ 0 < s.queue ∧ ∃ a ∈ s.activations, a.drains = true := by
  obtain ⟨taken,s,run,hcheck⟩:=(Execution.start (s:=backlog) ⟨rfl,rfl,rfl,rfl⟩ :
    Execution (Allows State.step) State.Initial [] backlog).play (plainly _) named_allows
    (lateCompletion++[.activate])
      (fun _ s=>decide (s.stage=.live ∧ 0 < s.queue ∧ s.signalled=false)) (by decide +kernel)
  obtain ⟨hlive,hqueue,hreset⟩:=of_decide_eq_true hcheck
  refine ⟨taken,s,run,hlive,hqueue,?_⟩
  rcases (no_completion_stranded run hlive).2 hqueue with hset | hdrains
  · rw [hreset] at hset
    cases hset
  · exact hdrains

end WindowsThreadpoolSys.CompletionWake
