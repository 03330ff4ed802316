import WindowsThreadpoolSys.Library.Execution

/-! `ThreadpoolIo::run_down` waits until no operation is registered, and then for the pool. A callback takes its
operation out of the registry when it is entered, and may submit further operations before it returns.

A step is one acquisition of the registry's lock, one native call, or a callback's entry or return. When the
native wait may return is a parameter, and what the source says of it are hypotheses: `wait` blocks until no
callback of the object is executing, and as `submit` has it the pool waits for a start that is not balanced
by a callback or a cancellation. -/
namespace WindowsThreadpoolSys.Overlapped
open Library List

/-- Where a thread is: a callback before it deregisters its operation, between calls, or in `submit`, before
the operation is registered, before it is started, before it is issued, and before the start and the
registration of one that gets no callback are taken back. -/
inductive Phase
  | entered (op : ℕ)
  | running
  | minted (op : ℕ)
  | starting (op : ℕ)
  | issuing (op : ℕ)
  | cancelling (op : ℕ)
  | balancing (op : ℕ)
deriving DecidableEq

def Phase.registered : Phase → Option ℕ
  | .entered op | .starting op | .issuing op | .cancelling op | .balancing op => some op
  | .running | .minted _ => none

def Phase.started : Phase → Option ℕ
  | .issuing op | .cancelling op => some op
  | _ => none

structure Thread where
  callback : Bool
  phase : Phase
deriving DecidableEq

inductive RunDown
  | idle
  | untilEmpty
  | waiting
deriving DecidableEq

structure Io where
  nextGeneration : ℕ
  live : List ℕ
  /-- The pool's starts that nothing has balanced yet. -/
  starts : List ℕ
  /-- The pending operations, each to be answered by one callback. -/
  due : List ℕ
  threads : List Thread
  runDown : RunDown
deriving DecidableEq

inductive IoEvent
  | outside
  | enter (op : ℕ)
  | deregister (t : Thread)
  | submit (t : Thread)
  | insert (t : Thread)
  | start (t : Thread)
  /-- `pending` is how the issue closure classifies the call: whether a callback will come. -/
  | issue (t : Thread) (pending : Bool)
  | cancel (t : Thread)
  | balance (t : Thread)
  | leave (t : Thread)
  | runDown
  | foundEmpty
  | waited
deriving DecidableEq

namespace Io

variable (s : Io)

def move (t : Thread) (phase : Phase) : Io :=
  { s with threads := { t with phase } :: s.threads.erase t }

/-- One step, where `returns` says when the native wait may return. -/
def step (returns : Io → Bool) (s : Io) : IoEvent → Option Io
  | .outside =>
    if s.runDown = .idle then some { s with threads := ⟨false, .running⟩ :: s.threads } else none
  | .enter op =>
    if op ∈ s.due then
      some { s with
        due := s.due.erase op
        starts := s.starts.erase op
        threads := ⟨true, .entered op⟩ :: s.threads }
    else none
  | .deregister t =>
    match t.phase with
    | .entered op =>
      if t ∈ s.threads then some { s.move t .running with live := s.live.erase op } else none
    | _ => none
  | .submit t =>
    if t ∈ s.threads ∧ t.phase = .running then
      some { s.move t (.minted s.nextGeneration) with nextGeneration := s.nextGeneration + 1 }
    else none
  | .insert t =>
    match t.phase with
    | .minted op =>
      if t ∈ s.threads then some { s.move t (.starting op) with live := op :: s.live } else none
    | _ => none
  | .start t =>
    match t.phase with
    | .starting op =>
      if t ∈ s.threads then some { s.move t (.issuing op) with starts := op :: s.starts } else none
    | _ => none
  | .issue t pending =>
    match t.phase with
    | .issuing op =>
      if t ∈ s.threads then
        some (if pending then { s.move t .running with due := op :: s.due } else s.move t (.cancelling op))
      else none
    | _ => none
  | .cancel t =>
    match t.phase with
    | .cancelling op =>
      if t ∈ s.threads then some { s.move t (.balancing op) with starts := s.starts.erase op } else none
    | _ => none
  | .balance t =>
    match t.phase with
    | .balancing op =>
      if t ∈ s.threads then some { s.move t .running with live := s.live.erase op } else none
    | _ => none
  | .leave t =>
    if t ∈ s.threads ∧ t.phase = .running then some { s with threads := s.threads.erase t } else none
  | .runDown =>
    if s.runDown = .idle ∧ ∀ t ∈ s.threads, t.callback = true then
      some { s with runDown := .untilEmpty }
    else none
  | .foundEmpty =>
    if s.runDown = .untilEmpty ∧ s.live = [] then some { s with runDown := .waiting } else none
  | .waited => if s.runDown = .waiting ∧ returns s then some { s with runDown := .idle } else none

def new : Io :=
  { nextGeneration := 0, live := [], starts := [], due := [], threads := [], runDown := .idle }

/-- The operations pending and those that threads are at, as far as `f` has them. -/
def pending (f : Phase → Option ℕ) : List ℕ := s.due ++ s.threads.filterMap fun t => f t.phase

end Io

/-- What the source has the native wait do: it returns only when no callback of the object is executing and
every start is balanced. -/
structure Waits (returns : Io → Bool) : Prop where
  callbacks : ∀ s, returns s = true → ∀ t ∈ s.threads, t.callback = false
  starts : ∀ s, returns s = true → s.starts = []

abbrev IoRun (returns : Io → Bool) : List (Taken Io IoEvent) → Io → Prop :=
  Execution (Allows (Io.step returns)) (· = Io.new)

/-! ## What every step keeps -/

/-- The registry holds the operations pending and those being submitted or entered, the pool's starts those
pending and those issued; and while `run_down` is called only callbacks submit. -/
structure Io.Ok (s : Io) : Prop where
  live : (s.pending Phase.registered).Perm s.live
  starts : (s.pending Phase.started).Perm s.starts
  inside : s.runDown ≠ .idle → ∀ t ∈ s.threads, t.callback = true

namespace Io

variable {s s' : Io} {t : Thread} {phase : Phase} {op : ℕ} {f : Phase → Option ℕ} {ops : List ℕ}

/-- What is pending beside the thread `t`. -/
def beside (s : Io) (f : Phase → Option ℕ) (t : Thread) : List ℕ :=
  s.due ++ (s.threads.erase t).filterMap fun t => f t.phase

theorem pending_cons (s : Io) (t : Thread) : (pending { s with threads := t::s.threads } f).Perm
    ((f t.phase).toList++s.pending f) := by
  unfold pending
  rw [filterMap_cons]
  cases f t.phase with
  | none=>exact .refl _
  | some op=>exact perm_middle

theorem pending_of_mem (ht : t ∈ s.threads) (h : (s.pending f).Perm ops) :
    ops.Perm ((f t.phase).toList++s.beside f t) := by
  refine h.symm.trans (List.Perm.trans ?_ (pending_cons { s with threads:=s.threads.erase t } t))
  exact ((perm_cons_erase ht).filterMap _).append_left s.due

theorem pending_move (s : Io) (f : Phase → Option ℕ) (t : Thread) (phase : Phase) :
    ((s.move t phase).pending f).Perm ((f phase).toList++s.beside f t) :=
  pending_cons { s with threads:=s.threads.erase t } { t with phase }

variable (ht : t ∈ s.threads) (h : (s.pending f).Perm ops)
include ht h

theorem pending_same (hat : f phase=f t.phase) : ((s.move t phase).pending f).Perm ops := by
  have hmoved:=pending_move s f t phase
  rw [hat] at hmoved
  exact hmoved.trans (pending_of_mem ht h).symm

theorem pending_gone (hat : f t.phase=some op) (hnone : f phase=none) :
    ((s.move t phase).pending f).Perm (ops.erase op) := by
  have hmoved:=pending_move s f t phase
  have hold:=(pending_of_mem ht h).erase op
  rw [hnone] at hmoved
  rw [hat,Option.toList_some,singleton_append,erase_cons_head] at hold
  exact hmoved.trans hold.symm

theorem pending_come (hat : f t.phase=none) (hsome : f phase=some op) :
    ((s.move t phase).pending f).Perm (op::ops) := by
  have hmoved:=pending_move s f t phase
  have hold:=pending_of_mem ht h
  rw [hsome] at hmoved
  rw [hat] at hold
  exact hmoved.trans (hold.symm.cons op)

theorem pending_issued (hat : f t.phase=some op) (hnone : f phase=none) :
    (op::(s.move t phase).pending f).Perm ops := by
  have hmoved:=pending_move s f t phase
  have hold:=pending_of_mem ht h
  rw [hnone] at hmoved
  rw [hat] at hold
  exact (hmoved.cons op).trans hold.symm

omit ht h

theorem Ok.inside_move (h : s.Ok) (ht : t ∈ s.threads) (phase : Phase) (hdown : s.runDown ≠ .idle) :
    ∀ t' ∈ (s.move t phase).threads,t'.callback=true :=
  forall_mem_cons.mpr ⟨h.inside hdown t ht,fun t' ht'=>h.inside hdown t' (mem_of_mem_erase ht')⟩

theorem Ok.step {returns : Io → Bool} (h : s.Ok) {event : IoEvent}
    (hstep : s.step returns event=some s') : s'.Ok := by
  cases event with
  | outside =>
    obtain ⟨hidle,⟨⟩⟩:=Option.ite_none_right_eq_some.mp hstep
    exact ⟨h.live,h.starts,fun hdown=>absurd hidle hdown⟩
  | enter op =>
    obtain ⟨hdue,⟨⟩⟩:=Option.ite_none_right_eq_some.mp hstep
    have hcons:=perm_cons_erase hdue
    refine ⟨?_,?_,fun hdown=>forall_mem_cons.mpr ⟨rfl,h.inside hdown⟩⟩
    · exact perm_middle.trans ((hcons.symm.append_right _).trans h.live)
    · have hstarts:=((hcons.symm.append_right _).trans h.starts).erase op
      rw [cons_append,erase_cons_head] at hstarts
      exact hstarts
  | deregister t | balance t =>
    simp only [Io.step] at hstep
    split at hstep
    · next hphase =>
      split_ifs at hstep with ht
      cases hstep
      exact ⟨pending_gone ht h.live (by rw [hphase]; rfl) rfl,
        pending_same ht h.starts (by rw [hphase]; rfl),h.inside_move ht _⟩
    · cases hstep
  | submit t =>
    obtain ⟨hsubmit,⟨⟩⟩:=Option.ite_none_right_eq_some.mp hstep
    exact ⟨pending_same hsubmit.1 h.live (by rw [hsubmit.2]; rfl),
      pending_same hsubmit.1 h.starts (by rw [hsubmit.2]; rfl),h.inside_move hsubmit.1 _⟩
  | insert t =>
    simp only [Io.step] at hstep
    split at hstep
    · next hphase =>
      split_ifs at hstep with ht
      cases hstep
      exact ⟨pending_come ht h.live (by rw [hphase]; rfl) rfl,
        pending_same ht h.starts (by rw [hphase]; rfl),h.inside_move ht _⟩
    · cases hstep
  | start t =>
    simp only [Io.step] at hstep
    split at hstep
    · next hphase =>
      split_ifs at hstep with ht
      cases hstep
      exact ⟨pending_same ht h.live (by rw [hphase]; rfl),
        pending_come ht h.starts (by rw [hphase]; rfl) rfl,h.inside_move ht _⟩
    · cases hstep
  | issue t pending =>
    simp only [Io.step] at hstep
    split at hstep
    · next op hphase =>
      split_ifs at hstep with ht hpending <;> cases hstep
      · -- The operation goes from the thread to those pending.
        have hat : ∀ {f : Phase → Option ℕ},f (.issuing op)=some op → f t.phase=some op:=fun hf=>by
          rw [hphase,hf]
        exact ⟨pending_issued ht h.live (hat rfl) rfl,pending_issued ht h.starts (hat rfl) rfl,
          h.inside_move ht _⟩
      · exact ⟨pending_same ht h.live (by rw [hphase]; rfl),
          pending_same ht h.starts (by rw [hphase]; rfl),h.inside_move ht _⟩
    · cases hstep
  | cancel t =>
    simp only [Io.step] at hstep
    split at hstep
    · next hphase =>
      split_ifs at hstep with ht
      cases hstep
      exact ⟨pending_same ht h.live (by rw [hphase]; rfl),
        pending_gone ht h.starts (by rw [hphase]; rfl) rfl,h.inside_move ht _⟩
    · cases hstep
  | leave t =>
    obtain ⟨hleave,⟨⟩⟩:=Option.ite_none_right_eq_some.mp hstep
    have hlive:=pending_of_mem hleave.1 h.live
    have hstarts:=pending_of_mem hleave.1 h.starts
    rw [hleave.2] at hlive hstarts
    exact ⟨hlive.symm,hstarts.symm,fun hdown t' ht'=>h.inside hdown t' (mem_of_mem_erase ht')⟩
  | runDown =>
    obtain ⟨hcalled,⟨⟩⟩:=Option.ite_none_right_eq_some.mp hstep
    exact ⟨h.live,h.starts,fun _=>hcalled.2⟩
  | foundEmpty | waited =>
    obtain ⟨hfound,⟨⟩⟩:=Option.ite_none_right_eq_some.mp hstep
    exact ⟨h.live,h.starts,fun _=>h.inside (by rw [hfound.1]; decide)⟩

end Io

/-! ## When the call returns -/

variable {s : Io} {taken : List (Taken Io IoEvent)} {returns : Io → Bool}

/-- When `run_down` returns no operation is registered, none has a callback to come, and no callback is
executing, whatever callbacks submitted meanwhile. -/
theorem run_down_quiescent (hwaits : Waits returns) (run : IoRun returns taken s) :
    ∀ t ∈ taken, t.event = .waited →
      t.after.live = [] ∧ t.after.due = [] ∧ ∀ thread ∈ t.after.threads, thread.callback = false := by
  intro t ht hevent
  obtain ⟨earlier, -,hrun,hstep⟩:=run.of_mem ht
  have hok : t.before.Ok:=hrun.invariant (Q:=fun _=>True) (fun _ _=>trivial)
    (by rintro s rfl; exact ⟨.refl _,.refl _,fun _ t ht=>by cases ht⟩) fun _ _ _ hok _ hstep=>hok.step hstep
  replace hstep : t.before.step returns .waited=some t.after:=hevent ▸ hstep
  obtain ⟨hwaited,hstep⟩:=Option.ite_none_right_eq_some.mp hstep
  rw [← Option.some.inj hstep]
  have hquiet:=hwaits.callbacks _ hwaited.2
  have hnone : t.before.threads=[]:=eq_nil_iff_forall_not_mem.mpr fun thread hthread=>by
    have hcallback:=hok.inside (by rw [hwaited.1]; decide) thread hthread
    rw [hquiet thread hthread] at hcallback
    cases hcallback
  have hstarts:=hok.starts
  have hlive:=hok.live
  rw [hwaits.starts _ hwaited.2] at hstarts
  have hdue : t.before.due=[]:=(append_eq_nil_iff.mp hstarts.eq_nil).1
  rw [Io.pending,hdue,hnone] at hlive
  exact ⟨hlive.nil_eq.symm,hdue,hquiet⟩

def nothingLeft (s : Io) : Bool := decide (s.starts = [] ∧ ∀ t ∈ s.threads, t.callback = false)

/-- One operation is answered while `run_down` waits; its callback submits another after the registry was
found empty, and `run_down` returns when that one has been answered too. -/
def resubmitted : List IoEvent :=
  [.outside, .submit ⟨false, .running⟩, .insert ⟨false, .minted 0⟩, .start ⟨false, .starting 0⟩,
    .issue ⟨false, .issuing 0⟩ true, .leave ⟨false, .running⟩, .runDown, .enter 0,
    .deregister ⟨true, .entered 0⟩, .foundEmpty, .submit ⟨true, .running⟩, .insert ⟨true, .minted 1⟩,
    .start ⟨true, .starting 1⟩, .issue ⟨true, .issuing 1⟩ true, .leave ⟨true, .running⟩, .enter 1,
    .deregister ⟨true, .entered 1⟩, .leave ⟨true, .running⟩, .waited]

theorem run_down_quiescent_resubmitted : Waits nothingLeft ∧ ∃ taken s, IoRun nothingLeft taken s ∧
    ∃ t ∈ taken, t.event = .waited ∧ t.after.nextGeneration = 2 ∧ t.after.live = [] ∧ t.after.due = [] := by
  have hwaits : Waits nothingLeft:=⟨fun s h=>(of_decide_eq_true h).2,fun s h=>(of_decide_eq_true h).1⟩
  obtain ⟨taken,s,run,hcheck⟩:=(Execution.start rfl : IoRun nothingLeft [] Io.new).play (plainly _)
    named_allows resubmitted
    (fun taken _=>taken.any fun t=>t.event=.waited ∧ t.after.nextGeneration=2) (by decide +kernel)
  obtain ⟨t,ht,hleft⟩:=any_eq_true.mp hcheck
  obtain ⟨hevent,hnext⟩:=of_decide_eq_true hleft
  have hquiet:=run_down_quiescent hwaits run t ht hevent
  exact ⟨hwaits,taken,s,run,t,ht,hevent,hnext,hquiet.1,hquiet.2.1⟩

end WindowsThreadpoolSys.Overlapped
