import WindowsThreadpoolSys.Library.Execution
import WindowsThreadpoolSys.Library.TableCount
import WindowsThreadpoolSys.Library.Fallible

/-! The bounded queue between the watchers and one client. A notification sent best-effort is dropped when
the queue is full, and its subscription is latched outside the queue; a latched loss goes back into the
queue with the next enqueue that finds room, or is made up by a receiver that finds the queue empty.
Each function here is what the source does under the queue's lock. The doorbell and the producers
prodded for room read the state and never change it, and are left out. -/
namespace WindowsThreadpoolSys.FileWatcher
open Library List

abbrev WatchId := ℕ

/-- Which standing slot: the source shares the slot's state by reference. -/
abbrev SlotId := ℕ

inductive DesyncCause where
  | overflow | queueFull | coarse | reestablished | stopped
  deriving DecidableEq, Repr

/-- What a subscription is told. The kinds other than a desync are read by no function of the queue:
`P` is the kind and what it carries. -/
inductive Notification (P : Type) where
  | desync (watch : WatchId) (cause : DesyncCause)
  | other (watch : WatchId) (payload : P)
  deriving DecidableEq, Repr

variable {P : Type}

namespace Notification

def watch : Notification P → WatchId
  | desync watch _ => watch
  | other watch _ => watch

def lost (watch : WatchId) : Notification P := .desync watch .queueFull

end Notification

inductive Entry (P : Type) where
  | plain (notification : Notification P)
  | standing (slot : SlotId)
  deriving DecidableEq, Repr

structure StandingState (P : Type) where
  slotAlive : Bool
  inFlight : Bool
  queued : Option (Notification P)
  deriving DecidableEq, Repr

structure State (P : Type) where
  queue : List (Entry P)
  capacity : ℕ
  /-- Slots claimed and not yet filled. -/
  reserved : ℕ
  /-- Subscriptions with a loss that could not be enqueued, first latched first. -/
  latched : List WatchId
  senders : ℕ
  standing : Table SlotId (StandingState P)

inductive Delivery where
  | queued | latched
  deriving DecidableEq, Repr

inductive Panic where
  | standingWithoutHold | queuedUnset
  deriving DecidableEq, Repr

namespace State

variable (s : State P)

def new (bound : ℕ) : State P :=
  { queue := [], capacity := bound, reserved := 0, latched := [], senders := 1, standing := .empty }

def free : ℕ := s.capacity - s.queue.length - s.reserved

def bestEffortRoom : ℕ := s.free - s.latched.length

def hasRoom : Bool := decide (0 < s.bestEffortRoom)

def flush : List WatchId → State P → State P
  | [], s => { s with latched := [] }
  | watch :: rest, s =>
    if 0 < s.free then flush rest { s with queue := s.queue ++ [.plain (.lost watch)] }
    else { s with latched := watch :: rest }

def flushLatched : State P := flush s.latched s

def latch (watch : WatchId) : State P :=
  if watch ∈ s.latched then s else { s with latched := s.latched ++ [watch] }

def send (n : Notification P) : Delivery × State P :=
  let s := s.flushLatched
  if 0 < s.free then (.queued, { s with queue := s.queue ++ [.plain n] })
  else (.latched, s.latch n.watch)

def reserve : Option (State P) :=
  if s.free = 0 then none
  else some { s with reserved := s.reserved + 1, senders := s.senders + 1 }

/-- `Reservation::send`. The latch takes only slots free while the reservation still counts. -/
def reservationSend (n : Notification P) : State P :=
  let s := s.flushLatched
  { s with reserved := s.reserved - 1, queue := s.queue ++ [.plain n] }

def reservationDrop : State P := { s with reserved := s.reserved - 1 }

def reserveStanding (slot : SlotId) : Option (State P) :=
  if s.free = 0 then none
  else some
    { s with
      reserved := s.reserved + 1
      senders := s.senders + 1
      standing := s.standing.insert slot { slotAlive := true, inFlight := false, queued := none } }

def standingSend (slot : SlotId) (n : Notification P) : State P :=
  match s.standing.get slot with
  | none => s
  | some st =>
    if st.inFlight then { s with standing := s.standing.insert slot { st with queued := some n } }
    else
      let s := State.flushLatched
        { s with standing := s.standing.insert slot { st with inFlight := true, queued := some n } }
      { s with reserved := s.reserved - 1, queue := s.queue ++ [.standing slot] }

/-- A standing slot dropped. An entry it still has queued takes the reservation along. -/
def standingDrop (slot : SlotId) : State P :=
  match s.standing.get slot with
  | none => s
  | some st =>
    let s := { s with standing := s.standing.insert slot { st with slotAlive := false } }
    if st.inFlight then s else { s with reserved := s.reserved - 1 }

def cloneSender : State P := { s with senders := s.senders + 1 }

def dropSender : State P := { s with senders := s.senders - 1 }

/-- Take the next notification: what is queued, and once the queue is empty a loss still latched. -/
def take : Except Panic (Option (Notification P) × State P) :=
  match s.queue with
  | .plain n :: rest => .ok (some n, { s with queue := rest })
  | .standing slot :: rest =>
    match s.standing.get slot with
    | none => .error .standingWithoutHold
    | some st =>
      match st.queued with
      | none => .error .queuedUnset
      | some n =>
        .ok (some n,
          { s with
            queue := rest
            standing := s.standing.insert slot { st with inFlight := false, queued := none }
            reserved := if st.slotAlive then s.reserved + 1 else s.reserved })
  | [] =>
    match s.latched with
    | [] => .ok (none, s)
    | watch :: rest => .ok (some (.lost watch), { s with latched := rest })

end State

inductive Received (P : Type) where
  | item (n : Notification P) (s : State P)
  | ended
  | waits

def State.recv (s : State P) : Except Panic (Received P) := do
  match ← s.take with
  | (some n, s) => .ok (.item n s)
  | (none, s) => .ok (if s.senders = 0 then .ended else .waits)

/-! ## What flushing does -/

section Flush

variable {s : State P}

theorem State.flush_eq (latched : List WatchId) (s : State P) : State.flush latched s = { s with
        queue := s.queue++(latched.take s.free).map fun w => .plain (.lost w)
        latched := latched.drop s.free } := by
  induction latched generalizing s with
  | nil=>simp [flush]
  | cons watch rest ih =>
    unfold flush
    split_ifs with hfree
    · have hone : State.free { s with queue:=s.queue++[.plain (.lost watch)] }=s.free-1:=by
        simp only [State.free,length_append,length_singleton]
        omega
      obtain ⟨m,hm⟩:=Nat.exists_eq_succ_of_ne_zero hfree.ne'
      rw [ih,hone,hm]
      simp
    · have hzero : s.free=0:=by omega
      simp [hzero]

theorem State.flushLatched_eq (s : State P) : s.flushLatched = { s with
        queue := s.queue++(s.latched.take s.free).map fun w => .plain (.lost w)
        latched := s.latched.drop s.free } := flush_eq s.latched s

theorem State.flushLatched_free : s.flushLatched.free=s.free-s.latched.length := by
  rw [flushLatched_eq]
  simp only [free,length_append,length_map,length_take]
  omega

theorem State.flushLatched_nil (h : 0 < s.flushLatched.free) : s.flushLatched.latched=[] := by
  rw [flushLatched_free] at h
  rw [flushLatched_eq]
  exact drop_eq_nil_of_le (by omega)

end Flush

end WindowsThreadpoolSys.FileWatcher
