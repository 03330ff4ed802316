import WindowsThreadpoolSys.DurableIoring.Durability.Queries

/-! The pieces every operation is made of: recording a write, letting one go, observing a failure,
answering a seal's part, covering what it completes, and stopping held operations. Each either
changes the core or finds it inconsistent. A loop of the source over a table is a fold over the
table's entries as they stood when the loop began. -/
namespace WindowsThreadpoolSys.DurableIoring
open Library

def Accepted.record {E T : Type} (a : Accepted E T) (born : ℕ) : Write E T :=
  { op := a.op, lineage := a.lineage, epoch := a.epoch, file := a.file, target := a.target,
    routing := a.routing, domains := a.domains, stage := .inFlight, born := born, until_ := none }

namespace Write

variable {E T : Type}

def spanKey (w : Write E T) : SpanKey := ⟨w.lineage, w.file, Span.ofStage w.stage⟩

def gone (w : Write E T) (now : ℕ) : Gone E :=
  { op := w.op, lineage := w.lineage, epoch := w.epoch, file := w.file, domains := w.domains,
    born := w.born, until_ := w.until_.getD now }

end Write

namespace Durability

variable {E T I : Type} [LinearOrder E] (d : Durability E T I)

/-! ## Recording a write and letting one go -/

def inFlight (a : Accepted E T) (wasHeld : Bool) : Except Inconsistency (Durability E T I) :=
  if !d.isLive a.lineage then .error .pushedToLineageNotLive
  else
    match Counts.countUp d.inFlightByEpoch d.capacity.operations a.lineage a.epoch with
    | none => .error .inFlightFull
    | some inFlightByEpoch => do
      let spans ← d.spans.enter d.capacity.operations ⟨a.lineage, a.file, .unsealed⟩ a.domains
      let window ← d.window.hold d.capacity.operations a.op .uncovered
      match d.writes.insertWithin d.capacity.operations a.op (a.record d.nextFailure) with
      | none => .error .writesFull
      | some writes =>
        .ok { d with
          nextPush := if wasHeld then d.nextPush else max d.nextPush (a.op + 1)
          inFlightByEpoch := inFlightByEpoch
          spans := spans
          window := window
          writes := writes }

def keepSuspected (window : Window) (w : Write E T) : Except Inconsistency (Kept E) :=
  if window.suspected w.op then Kept.keep d.kept d.capacity.operations (w.gone d.nextFailure)
  else .ok d.kept

def forgetWrite (w : Write E T) : Except Inconsistency (Durability E T I) := do
  let spans ← d.spans.leave w.spanKey .uncoveredInNoSpan
  let window ← d.window.release w.op .uncovered
  let kept ← d.keepSuspected window w
  .ok { d with spans := spans, window := window, kept := kept }

def letGoOne (op : OpId) : Except Inconsistency (Durability E T I) :=
  match d.writes.get op with
  | none => .ok d
  | some w => forgetWrite { d with writes := d.writes.erase op } w

def letGo (leaves : Write E T → Bool) : Except Inconsistency (Durability E T I) :=
  (d.writes.entries.filter fun e => leaves e.2).foldlM (fun d e => d.letGoOne e.1) d

def staysEnded (lineage : Key) (w : Write E T) : Bool :=
  decide (w.lineage ≠ lineage) ||
    match w.stage with
    | .inFlight => true
    | .completed => false
    | .named seq =>
      match d.spans.get ⟨lineage, w.file, .sealed seq⟩ with
      | none => false
      | some entry => entry.flushed && !entry.answered

def letGoEnded (lineage : Key) : Except Inconsistency (Durability E T I) :=
  d.writes.entries.foldlM
    (fun d e => if d.staysEnded lineage e.2 then .ok d else d.letGoOne e.1) d

/-! ## Observing a failure -/

def observedWrites (reach : Reach) (only : Option Key) : List OpId :=
  (d.writes.vals.filter fun w =>
    only.all (fun l => decide (w.lineage = l)) && d.isLive w.lineage &&
      reach.reaches d.lists (d.lists.get w.domains)).map Write.op

def tellFailed (f : Failure I) : Option (List (Told E I)) :=
  d.told.map fun told => told ++ Told.failed f.id f.cause f.observed ::
    (d.visitSuspects f).map fun w =>
      Told.suspected f.id { op := w.op, target := w.file, epoch := ⟨w.lineage, w.epoch⟩ }

def releaseReach (reach : Reach) : Durability E T I :=
  match reach with
  | .named list => { d with lists := d.lists.release list }
  | .all => d
  | .file _ => d
  | .domain _ => d

def observe (c : Change E T I) (cause : FailureCause) (reach : Reach) (only : Option Key) :
    Except Inconsistency (FailureId × Change E T I) :=
  let d := c.core
  let id : FailureId := ⟨d.instance_, d.nextFailure⟩
  match d.freeTokens with
  | [] => .error .noTokenSlot
  | slot :: freeTokens =>
    if d.tokens.length ≤ slot then .error .noTokenSlot
    else if d.capacity.failures d.served.length ≤ d.failures.length then .error .failuresFull
    else do
      let f : Failure I :=
        { id := id, cause := cause, reach := reach, only := only, observed := d.clock d.reads,
          standing := .open, token := slot, listed := d.observedWrites reach only }
      let recorded : Durability E T I :=
        { d with
          nextFailure := d.nextFailure + 1
          freeTokens := freeTokens
          tokens := d.tokens.set slot ⟨id.seq, true⟩
          reads := d.reads + 1
          failures := d.failures ++ [f] }
      let window ← (recorded.suspects f).foldlM
        (fun window w => Window.hold window d.capacity.operations w.op .suspect) recorded.window
      let held := { recorded with window := window }
      .ok (id,
        { core := { held with told := held.tellFailed f }
          due := { c.due with events := c.due.events ++
            [.failed { id := id, token := ⟨id, slot⟩, cause := cause, observed := f.observed }] } })

def mark (op : OpId) (kind : MarkingKind) : Except Inconsistency (Durability E T I) :=
  let suspecting := d.failures.filter fun f => decide (f.standing ≠ .resolved) && d.suspectsOp f op
  if suspecting.isEmpty then .ok d
  else if (d.kept.get op).isNone then .error .markedNotKept
  else
    match d.told with
    | none => .ok d
    | some told =>
      let marking : Marking I := { write := op, observed := d.clock d.reads, kind := kind }
      .ok { d with
        reads := d.reads + 1
        told := some (told ++ suspecting.map fun f => Told.marked f.id marking) }

/-! ## Answers and covering -/

def answer (lineage : Key) (through : E) (file : IoTargetKey) (failedNow : Bool) : Except
    Inconsistency (ℕ × DomainList × Durability E T I) :=
  match (sealsOf d.seals lineage).find? fun s => decide (s.through = through) with
  | none => .error .flushOfNoSeal
  | some s =>
    match s.stage with
    | .waiting => .error .flushOfSealNotFlushing
    | .done _ => .error .flushOfSealNotFlushing
    | .flushing unanswered failed =>
      match d.spans.get ⟨lineage, file, .sealed s.seq⟩ with
      | none => .error .flushNotIssued
      | some entry =>
        if entry.flushed && !entry.answered then
          .ok (s.seq, entry.domains,
            { d with
              spans := d.spans.insert ⟨lineage, file, .sealed s.seq⟩
                { entry with answered := true, ok := !failedNow }
              seals := d.seals.insert ⟨lineage, s.seq⟩
                { s with
                  stage := .flushing (unanswered - 1) (failed || failedNow)
                  answered := s.answered || failedNow } })
        else .error .flushNotIssued

def isCovered (lineage : Key) (seq : ℕ) (w : Write E T) : Bool :=
  decide (w.lineage = lineage) && decide (w.stage = .named seq) &&
    (!w.routing.default || (d.spans.get ⟨lineage, w.file, .sealed seq⟩).any SpanFile.ok) &&
    ((d.lists.get w.domains).filter fun domain => d.served.contains domain).all fun domain =>
      (d.sealDomains.get ⟨lineage, seq, domain⟩).any SealDomain.ok

def cover (lineage : Key) (seq : ℕ) : Except Inconsistency (Durability E T I) :=
  match d.seals.get ⟨lineage, seq⟩ with
  | none => .ok d
  | some s =>
    match s.stage with
    | .waiting => .ok d
    | .done _ => .ok d
    | .flushing _ _ => do
      let covered := d.writes.vals.filter fun w => d.isCovered lineage seq w
      let ops := covered.map Write.op
      let d' ← d.letGo fun w => ops.contains w.op
      covered.foldlM (fun d w =>
        d.mark w.op (.covered w.routing.default w.routing.provider)) d'

/-! ## Held operations -/

def stopHeld (c : Change E T I) (stopped : HeldOp E T → Option (Gate E)) : Change E T I :=
  let d := c.core
  let taken := d.held.entries.filterMap fun e => (stopped e.2).map fun gate => (e, gate)
  let writes := taken.filterMap fun p =>
    p.1.2.write.map fun w => (⟨w.lineage, w.epoch, p.1.1⟩ : GatedKey E)
  { core :=
      { d with
        held := d.held.filter fun _ h => (stopped h).isNone
        gated := d.gated.filter fun k _ => decide (k ∉ writes)
        heldByEpoch := writes.foldl (fun counts k => counts.countDown k.lineage k.epoch)
          d.heldByEpoch }
    due := { c.due with events := c.due.events ++ taken.map fun p => .neverIssued p.1.2.op p.2 } }

def abandonStops (f : Failure I) (h : HeldOp E T) : Option (Gate E) :=
  let hit := fun (at_ : Gate E) =>
    (d.suspects f).any fun w => decide (w.lineage = at_.lineage ∧ w.epoch = at_.epoch)
  if !h.ready && hit h.gate then some h.gate
  else (h.write.map fun w => (⟨w.lineage, w.epoch⟩ : Gate E)).filter hit

def endStops (lineage : Key) (h : HeldOp E T) : Option (Gate E) :=
  match h.write with
  | some w =>
    if w.lineage = lineage then some ⟨lineage, w.epoch⟩
    else if !h.ready && decide (h.gate.lineage = lineage) then some h.gate else none
  | none => if !h.ready && decide (h.gate.lineage = lineage) then some h.gate else none

def abandonHeld (c : Change E T I) (f : Failure I) : Change E T I :=
  stopHeld c (c.core.abandonStops f)

def endHeld (c : Change E T I) (lineage : Key) : Change E T I := stopHeld c (endStops lineage)

def waitsWithin (lineage : Key) (through : E) (h : HeldOp E T) : Bool :=
  !h.ready && decide (h.gate.lineage = lineage) && decide (h.gate.epoch ≤ through)

def releaseThrough (c : Change E T I) (lineage : Key) (through : E) : Change E T I :=
  let d := c.core
  let released := d.held.vals.filter (waitsWithin lineage through)
  let writes := released.filterMap fun h =>
    h.write.map fun w => (⟨w.lineage, w.epoch, h.op⟩ : GatedKey E)
  { core :=
      { d with
        held := d.held.map fun _ h =>
          if waitsWithin lineage through h then { h with ready := true } else h
        gated := d.gated.filter fun k _ => decide (k ∉ writes) }
    due := { c.due with released := c.due.released ++ released.map HeldOp.op } }

/-! ## Abandoned epochs -/

def forgetAbandoned (lineage : Key) (through : Option E) : Except Inconsistency (Durability E T I) := do
  let goes := fun (k : EpochKey E) =>
    decide (k.lineage = lineage) && through.all fun t => decide (k.epoch ≤ t)
  let window ← (d.abandoned.entries.filter fun e => goes e.1).foldlM
    (fun window e => Window.release window e.2 .abandoned) d.window
  .ok { d with window := window, abandoned := d.abandoned.filter fun k _ => !goes k }

def abandonEpoch (w : Suspect E) : Except Inconsistency (Durability E T I) :=
  let aboveMark :=
    match d.live w.lineage with
    | none => false
    | some st => above st.durableThrough w.epoch
  if !aboveMark || (d.abandoned.get ⟨w.lineage, w.epoch⟩).isSome then .ok d
  else do
    let window ← d.window.hold d.capacity.operations w.op .abandoned
    match d.abandoned.insertWithin d.capacity.operations ⟨w.lineage, w.epoch⟩ w.op with
    | none => .error .abandonedFull
    | some abandoned => .ok { d with window := window, abandoned := abandoned }

def abandonEpochs (f : Failure I) : Except Inconsistency (Durability E T I) :=
  (d.suspects f).foldlM abandonEpoch d

end Durability

end WindowsThreadpoolSys.DurableIoring
