import WindowsThreadpoolSys.Library.Execution
import WindowsThreadpoolSys.Library.TableCount

/-! The roster of registrations, the submission queue the watcher writes, and its poll: copy the roster, probe
each file's length, report what changed, and end with a poll-done entry. The poll takes the roster's lock
for a batch of entries at a time; here a step is one entry, so that every batch size is among the runs.

The doorbells, the gate of `poll` and the diagnostics are left out: a poll begins when none is in flight,
and a report pass that a full queue stopped goes on at any later step. -/
namespace WindowsThreadpoolSys.TailWatcher
open Library

structure Attention (α : Type) where
  value : α
  lastKnown : ℕ
  current : ℕ
  deriving DecidableEq, Repr

structure Terminal (α : Type) where
  value : α
  win32Code : ℕ
  lastKnown : ℕ
  deriving DecidableEq, Repr

inductive SqEntry (α : Type) where
  | attention (a : Attention α)
  | terminal (t : Terminal α)
  | pollDone
  deriving DecidableEq, Repr

structure Entry (α : Type) where
  value : α
  startOffset : ℕ
  lastKnown : ℕ
  terminal : Option ℕ

structure SnapshotItem where
  id : ℕ
  lastKnown : ℕ

inductive Outcome where
  | changed (current : ℕ)
  | terminal (win32Code : ℕ)

structure Change where
  id : ℕ
  lastKnown : ℕ
  outcome : Outcome

def terminalCodes : List ℕ := [6, 1006]

def isTerminal (code : Option ℕ) : Bool := code.any fun code => decide (code ∈ terminalCodes)

inductive PollPhase where
  | idle
  | snapshot (after : Option ℕ) (items : List SnapshotItem)
  | probe (items : List SnapshotItem) (changed : List Change)
  /-- The changes not yet written or skipped. -/
  | report (changed : List Change)

structure Watcher (α : Type) where
  stop : Bool
  nextId : ℕ
  entries : Table ℕ (Entry α)
  sq : List (SqEntry α)
  capacity : ℕ
  phase : PollPhase
  /-- Beside the watcher: each registration's starting offset. -/
  starts : ℕ → ℕ
  /-- Beside the watcher: the length last seen of each registration's file. -/
  lengths : ℕ → ℕ

inductive WatcherEvent where
  | drop (id : ℕ)
  | shutdown
  | poll
  /-- The copy reaches the next registration; the stop flag is looked at once a batch. -/
  | snapshot (look : Bool)
  /-- The next probe, with the length it reads or the Win32 code it fails with. -/
  | probe (read : Except (Option ℕ) ℕ)
  | report

namespace Watcher

variable {α : Type} (w : Watcher α)

/-- `register_with`, of a file that is `len` bytes long when it is opened. -/
def register (offset len : ℕ) (make : ℕ → α) : Watcher α :=
  if len < offset then w
  else
    { w with
      nextId := w.nextId + 1
      entries := w.entries.insert w.nextId
        { value := make w.nextId, startOffset := offset, lastKnown := offset, terminal := none }
      starts := Function.update w.starts w.nextId offset
      lengths := Function.update w.lengths w.nextId len }

def markTerminal (id code : ℕ) : Watcher α × Bool :=
  match w.entries.get id with
  | some entry =>
    if entry.terminal.isSome then (w, false)
    else ({ w with entries := w.entries.insert id { entry with terminal := some code } }, true)
  | none => (w, false)

def full : Bool := decide (w.capacity ≤ w.sq.length)

def nextEntry (after : Option ℕ) : Option (ℕ × Entry α) :=
  w.entries.entries.find? fun e => after.all fun id => decide (id < e.1)

def snapshotStep (look : Bool) (after : Option ℕ) (items : List SnapshotItem) : Watcher α :=
  if w.stop ∧ look then { w with phase := .probe items [] }
  else
    match w.nextEntry after with
    | none => { w with phase := .probe items [] }
    | some (id, entry) =>
      { w with
        phase := .snapshot (some id)
          (if entry.terminal.isNone then items ++ [⟨id, entry.lastKnown⟩] else items) }

def probed (item : SnapshotItem) : Except (Option ℕ) ℕ → List Change
  | .ok current => if current ≠ item.lastKnown then [⟨item.id, item.lastKnown, .changed current⟩] else []
  | .error (some code) =>
    if isTerminal (some code) then [⟨item.id, item.lastKnown, .terminal code⟩] else []
  | .error none => []

def probeStep (read : Except (Option ℕ) ℕ) (changed : List Change) : List SnapshotItem → Watcher α
  | [] => { w with phase := .report changed }
  | item :: rest =>
    -- A shutdown drops the rest unread.
    if w.stop then { w with phase := .probe rest changed }
    else
      { w with
        phase := .probe rest (changed ++ probed item read)
        lengths :=
          match read with
          | .ok current => Function.update w.lengths item.id current
          | .error _ => w.lengths }

def writeChange (entry : Entry α) (change : Change) : Watcher α :=
  match change.outcome with
  | .changed current =>
    { w with
      sq := w.sq ++ [.attention ⟨entry.value, change.lastKnown, current⟩]
      entries := w.entries.insert change.id { entry with lastKnown := current } }
  | .terminal code =>
    { w with
      sq := w.sq ++ [.terminal ⟨entry.value, code, change.lastKnown⟩]
      entries := w.entries.insert change.id { entry with terminal := some code } }

/-- One entry of `report`. A write the queue refuses leaves the pass where it is. -/
def reportStep (changed : List Change) : Watcher α :=
  -- A shutdown abandons what is left, and the poll goes on to poll-done.
  match if w.stop then [] else changed with
  | [] =>
    if w.full then { w with phase := .report [] }
    else { w with sq := w.sq ++ [.pollDone], phase := .idle }
  | change :: rest =>
    match w.entries.get change.id with
    | some entry =>
      if entry.terminal.isSome then { w with phase := .report rest }
      else if w.full then w
      else { w.writeChange entry change with phase := .report rest }
    | none => { w with phase := .report rest }

def step : WatcherEvent → Option (Watcher α)
  | .drop id => some { w with entries := w.entries.erase id }
  | .shutdown => some { w with stop := true }
  | .poll =>
    match w.phase with
    | .idle => if w.stop then none else some { w with phase := .snapshot none [] }
    | _ => none
  | .snapshot look =>
    match w.phase with
    | .snapshot after items => some (w.snapshotStep look after items)
    | _ => none
  | .probe read =>
    match w.phase with
    | .probe items changed => some (w.probeStep read changed items)
    | _ => none
  | .report =>
    match w.phase with
    | .report changed => some (w.reportStep changed)
    | _ => none

end Watcher

def Watcher.new {α : Type} (capacity : ℕ) : Watcher α :=
  { stop := false
    nextId := 0
    entries := Table.empty
    sq := []
    capacity := capacity
    phase := .idle
    starts := fun _ => 0
    lengths := fun _ => 0 }

end WindowsThreadpoolSys.TailWatcher
