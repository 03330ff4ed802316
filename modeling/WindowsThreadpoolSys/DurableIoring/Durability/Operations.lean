import WindowsThreadpoolSys.DurableIoring.Durability.Advance

/-! What the I/O core calls. An operation that can make something due ends with `advance` and returns
the change; the others return the core. -/
namespace WindowsThreadpoolSys.DurableIoring
open Library

inductive Sealing (E T I : Type) [LinearOrder E] where
  | submitted (change : Change E T I)
  | alreadySealed (state : State)
  | cycle

structure LineageBusy where
  lineage : Lineage
  inFlight : ℕ
  heldForGate : ℕ
  uncovered : ℕ
  failures : ℕ
  deriving DecidableEq

inductive ResolveRefusal where
  | foreign (id : FailureId)
  deriving DecidableEq

namespace Durability

variable {E T I : Type} [LinearOrder E] (d : Durability E T I)

def begin_ : Change E T I := { core := d, due := Due.fresh }

def new (instance_ : InstanceId) (clock : ℕ → I) (capacity : Capacity) (served : List DomainId)
    (observed : Bool) : Durability E T I :=
  let slots := capacity.failures served.length
  { instance_ := instance_
    lineages := Table.empty.insert defaultLineage LineageState.new
    nextLineage := defaultLineage + 1
    writes := Table.empty
    seals := Table.empty
    inFlightByEpoch := Table.empty
    heldByEpoch := Table.empty
    gated := Table.empty
    spans := Table.empty
    sealDomains := Table.empty
    window := Table.empty
    failures := []
    kept := Table.empty
    abandoned := Table.empty
    tokens := List.replicate slots { failure := 0, live := false }
    freeTokens := List.range slots
    lists := DomainLists.new (capacity.targets + capacity.imports) capacity.domains
    nextFailure := 0
    nextPush := 0
    sealsMade := 0
    held := Table.empty
    served := served
    clock := clock
    reads := 0
    told := if observed then some [] else none
    capacity := capacity }

/-! ## Writes -/

def pushed (a : Accepted E T) : Except Inconsistency (Durability E T I) :=
  d.inFlight a false

def retireIfDrained (lineage : Key) : Durability E T I :=
  match d.lineages.get lineage with
  | none => d
  | some st =>
    if st.ended && !st.endUnpopped && (Counts.lowest d.inFlightByEpoch lineage).isNone &&
        (sealsOf d.seals lineage).isEmpty then
      { d with lineages := d.lineages.erase lineage }
    else d

def completed (op : OpId) (end_ : WriteEnd) : Except Inconsistency (Change E T I) :=
  match d.writes.get op with
  | none => .error .completedNeverPushed
  | some w =>
    if w.stage ≠ .inFlight then .error .completedTwice
    else do
      let ended := !d.isLive w.lineage
      let d ← match end_ with
        | .succeeded =>
          let done : Durability E T I :=
            { d with writes := d.writes.insert op { w with stage := .completed } }
          if ended then done.letGoOne op else .ok done
        | .failed fault => do
          let d ← d.letGoOne op
          d.mark op (.nullified fault)
      let d : Durability E T I :=
        { d with inFlightByEpoch := Counts.countDown d.inFlightByEpoch w.lineage w.epoch }
      advance (begin_ (if ended then d.retireIfDrained w.lineage else d))

/-! ## Seals -/

def recordEmpty (c : Change E T I) (lineage : Key) (empty : Empty E) : Change E T I :=
  let d := c.core
  match d.lineages.get lineage with
  | none => c
  | some st =>
    let (old, placed) : Option (Empty E) × Durability E T I :=
      match (sealsOf d.seals lineage).getLast? with
      | some s =>
        (s.trailing,
          { d with seals := d.seals.insert ⟨lineage, s.seq⟩ { s with trailing := some empty } })
      | none =>
        (st.leading,
          { d with lineages := d.lineages.insert lineage { st with leading := some empty } })
    let superseded :=
      (old.toList.filter Empty.answered).map fun e => Event.superseded lineage e.through
    { core := placed, due := { c.due with events := c.due.events ++ superseded } }

def sealThrough (lineage : Key) (through : E) : Except Inconsistency (Sealing E T I) :=
  match d.live lineage with
  | none => .error .sealOfLineageNotLive
  | some st =>
    if !above st.sealedThrough through then
      .ok (.alreadySealed ((d.state lineage through).getD .pending))
    else if d.sealCycle lineage through then .ok .cycle
    else
      let made : Durability E T I :=
        { d with
          lineages := d.lineages.insert lineage
            { st with sealedThrough := some through, nextSeal := st.nextSeal + 1 }
          sealsMade := d.sealsMade + 1 }
      match d.pinnedBy lineage through with
      | none => do
        let c ← advance (recordEmpty (begin_ made) lineage (Empty.new d.sealsMade through))
        .ok (.submitted c)
      | some op =>
        let recorded : Seal E :=
          { seq := st.nextSeal, made := d.sealsMade, through := through, stage := .waiting,
            answered := false, trailing := none, pin := some op }
        match made.seals.insertWithin d.capacity.operations ⟨lineage, st.nextSeal⟩ recorded with
        | none => .error .sealsFull
        | some seals => do
          let window ← made.window.hold d.capacity.operations op .pin
          let c ← advance (begin_ { made with seals := seals, window := window })
          .ok (.submitted c)

def retainSealing (lineage : Key) : Except Inconsistency (Durability E T I) := do
  let stays := fun (s : Seal E) =>
    match s.stage with
    | .flushing unanswered _ => decide (0 < unanswered)
    | .waiting => false
    | .done _ => false
  let gone := (sealsOf d.seals lineage).filter fun s => !stays s
  let window ← gone.foldlM (fun (window : Window) s => window.unpin s.pin) d.window
  .ok { d with
    window := window
    sealDomains := gone.foldl (fun table s => forgetDomains table d.served lineage s.seq)
      d.sealDomains
    seals := d.seals.filter fun k s => decide (k.lineage ≠ lineage) || stays s }

def flushed (lineage : Key) (through : E) (file : IoTargetKey) (result : Option IoFault) : Except
    Inconsistency (Change E T I) :=
  match d.lineages.get lineage with
  | none => .ok (begin_ d)
  | some st =>
    if st.ended then
      match d.answer lineage through file result.isSome with
      | .error _ => advance (begin_ d)
      | .ok (seq, _, d) => do
        let d ← d.letGo fun w =>
          decide (w.lineage = lineage) && decide (w.file = file) && decide (w.stage = .named seq)
        let d ← d.retainSealing lineage
        advance (begin_ (d.retireIfDrained lineage))
    else do
      let (seq, domains, d) ← d.answer lineage through file result.isSome
      match result with
      | none => do
        let d ← d.cover lineage seq
        advance (begin_ d)
      | some fault => do
        let (_, c) ← observe (begin_ d) (.commit file fault) (Reach.ofFile domains) none
        advance c

def provided (lineage : Key) (seq : ℕ) (domain : DomainId) (outcome : Option FailureCause) : Except
    Inconsistency (Change E T I) :=
  if !d.isLive lineage then .ok (begin_ d)
  else
    match d.seals.get ⟨lineage, seq⟩ with
    | none => .error .answerOfNoSeal
    | some s =>
      match s.stage with
      | .waiting => .error .answerOfSealNotFlushing
      | .done _ => .error .answerOfSealNotFlushing
      | .flushing unanswered failed =>
        match d.sealDomains.get ⟨lineage, seq, domain⟩ with
        | none => .error .answerNotAsked
        | some part =>
          if part.answered then .error .answeredTwice
          else
            let answered : Durability E T I :=
              { d with
                sealDomains := d.sealDomains.insert ⟨lineage, seq, domain⟩
                  { answered := true, ok := outcome.isNone }
                seals := d.seals.insert ⟨lineage, seq⟩
                  { s with
                    stage := .flushing unanswered (failed || outcome.isSome)
                    answered := s.answered || outcome.isSome } }
            match outcome with
            | none => do
              let d ← answered.cover lineage seq
              advance (begin_ d)
            | some cause => do
              let (_, c) ← observe (begin_ answered) cause (.domain domain) none
              advance c

/-! ## Failures -/

def import_ (cause : FailureCause) (reach : Reach) (only : Option Key) : Except Inconsistency
    (FailureId × Change E T I) := do
  let (id, c) ← observe (begin_ d) cause reach only
  let c ← advance c
  .ok (id, c)

def dropToken (token : FailureToken) : Durability E T I :=
  if d.tokens[token.slot]? = some { failure := token.id.seq, live := true } then
    { d with tokens := d.tokens.set token.slot { failure := token.id.seq, live := false } }
  else d

def resolveOne (c : Change E T I) (item : FailureToken × Resolution) :
    Except Inconsistency (Change E T I) :=
  match c.core.failures.find? fun f => decide (f.id = item.1.id) with
  | none => .error .tokenOfNoFailure
  | some f =>
    let stands := fun (d : Durability E T I) (standing : Standing) =>
      ({ d with
        failures := d.failures.map fun g =>
          if g.id = f.id then { g with standing := standing } else g } : Durability E T I)
    match item.2 with
    | .abandon => do
      let d ← c.core.abandonEpochs f
      let c := abandonHeld
        { core := d, due := { c.due with events := c.due.events ++ [.abandoned f.id] } } f
      .ok { c with core := (stands c.core .resolved).dropToken item.1 }
    | .heal =>
      .ok { c with core := (stands c.core (.healing c.core.healNow)).dropToken item.1 }

def resolve (items : List (FailureToken × Resolution)) : Except Inconsistency
    (Except ResolveRefusal (Change E T I)) :=
  match items.find? fun item => decide (item.1.id.instance_ ≠ d.instance_) with
  | some item => .ok (.error (.foreign item.1.id))
  | none => do
    let c ← items.foldlM resolveOne (begin_ d)
    let c ← advance (releaseHealed c)
    .ok (.ok c)

def takeToken (id : FailureId) : Option (FailureToken × Durability E T I) :=
  match d.failures.find? fun f => decide (f.id = id) with
  | none => none
  | some f =>
    if f.standing = .open ∧ d.tokens[f.token]? = some { failure := id.seq, live := false } then
      some (⟨id, f.token⟩,
        { d with tokens := d.tokens.set f.token { failure := id.seq, live := true } })
    else none

def releaseSuspects (f : Failure I) : Except Inconsistency (Durability E T I) := do
  let window ← (d.suspects f).foldlM
    (fun (window : Window) w => window.release w.op .suspect) d.window
  .ok { d with
    window := window
    kept := d.kept.filter fun _ g => !(g.namedBy d.lists f) || window.suspected g.op }

def forget (id : FailureId) : Except Inconsistency (Durability E T I) :=
  match d.failures.find? fun f => decide (f.id = id) && decide (f.standing = .resolved) with
  | none => .error .forgotNotResolved
  | some f => do
    let d ← releaseSuspects
      { d with
        failures := d.failures.filter fun g => decide (g.id ≠ id)
        freeTokens := f.token :: d.freeTokens } f
    .ok (d.releaseReach f.reach)

/-! ## Held operations -/

def hold (op : OpId) (write : Option (Accepted E T)) (gate : Gate E) : Except Inconsistency
    (Durability E T I) :=
  if !(write.all fun w => d.isLive w.lineage) || !d.isLive gate.lineage then
    .error .heldOnLineageNotLive
  else do
    let d ← match write with
      | none => Except.ok d
      | some w =>
        match d.gated.insertWithin d.capacity.operations ⟨w.lineage, w.epoch, op⟩ gate,
          Counts.countUp d.heldByEpoch d.capacity.operations w.lineage w.epoch with
        | some gated, some heldByEpoch =>
          .ok { d with
            nextPush := max d.nextPush (op + 1), gated := gated, heldByEpoch := heldByEpoch }
        | some _, none => .error .heldWriteFull
        | none, _ => .error .heldWriteFull
    let h : HeldOp E T := { op := op, write := write, gate := gate, ready := false }
    match d.held.insertWithin d.capacity.operations op h with
    | none => .error .heldFull
    | some held => .ok { d with held := held }

def issued (op : OpId) : Except Inconsistency (Durability E T I) :=
  match d.held.get op with
  | none => .error .issuedNeverHeld
  | some h =>
    if !h.ready then .error .issuedBeforeGate
    else
      let taken : Durability E T I := { d with held := d.held.erase op }
      match h.write with
      | none => .ok taken
      | some w =>
        inFlight
          { taken with heldByEpoch := Counts.countDown taken.heldByEpoch w.lineage w.epoch } w true

/-! ## Lineages -/

def mint : Except Inconsistency (Key × Durability E T I) :=
  match d.lineages.insertWithin d.capacity.lineages d.nextLineage LineageState.new with
  | none => .error .lineagesFull
  | some lineages =>
    .ok (d.nextLineage, { d with lineages := lineages, nextLineage := d.nextLineage + 1 })

def abandonedThrough (lineage : Key) (st : LineageState E) : Option E :=
  let sealed := st.sealedThrough.filter (above st.durableThrough)
  let written := ((d.writes.vals.filter fun w => decide (w.lineage = lineage)).map Write.epoch ++
    (d.heldByEpoch.keys.filter fun k => decide (k.lineage = lineage)).map EpochKey.epoch).filter
      (above st.durableThrough)
  (sealed.toList ++ written).max?

def end_ (lineage : Key) : Except Inconsistency (Change E T I) :=
  match d.live lineage with
  | none => .error .endNotLive
  | some st =>
    if lineage = defaultLineage then .error .endNotLive
    else do
      let through := d.abandonedThrough lineage st
      let d : Durability E T I :=
        { d with
          lineages := d.lineages.insert lineage
            { st with ended := true, endUnpopped := true, leading := none } }
      let d ← d.forgetAbandoned lineage none
      let d : Durability E T I :=
        { d with
          writes := d.writes.map fun _ w =>
            if w.lineage = lineage then { w with until_ := some (w.until_.getD d.nextFailure) }
            else w }
      let d ← d.letGoEnded lineage
      let d ← retainSealing
        { d with
          seals := d.seals.map fun k s =>
            if k.lineage = lineage then { s with trailing := none } else s } lineage
      let due : Due E T I := Due.fresh
      let c := endHeld
        { core := d, due := { due with events := [.lineageEnded lineage through] } } lineage
      advance { c with core := c.core.retireIfDrained lineage }

def endPopped (lineage : Key) : Except Inconsistency (Durability E T I) :=
  match d.lineages.get lineage with
  | none => .error .endPoppedNotEnded
  | some st =>
    if st.ended && st.endUnpopped then
      .ok (retireIfDrained
        { d with lineages := d.lineages.insert lineage { st with endUnpopped := false } } lineage)
    else .error .endPoppedNotEnded

def retire (lineage : Key) : Except Inconsistency (Except LineageBusy (Durability E T I)) :=
  if !d.isLive lineage || decide (lineage = defaultLineage) then .error .retireNotLive
  else
    let busy : LineageBusy :=
      { lineage := ⟨d.instance_, lineage⟩
        inFlight := ((d.inFlightByEpoch.entries.filter fun e => e.1.lineage = lineage).map
          Prod.snd).sum
        heldForGate := d.heldForGate lineage
        uncovered := (d.writes.vals.filter fun w =>
          decide (w.lineage = lineage) && decide (w.stage ≠ .inFlight)).length
        failures := (d.lineageFailures lineage).length }
    if 0 < busy.inFlight ∨ 0 < busy.heldForGate ∨ 0 < busy.uncovered ∨ 0 < busy.failures then
      .ok (.error busy)
    else do
      let d ← d.forgetAbandoned lineage none
      .ok (.ok { d with lineages := d.lineages.erase lineage })

/-! ## Places -/

def admit_ (op : OpId) : Except Inconsistency (Durability E T I) := do
  let window ← d.window.hold d.capacity.operations op .operation
  .ok { d with window := window }

def popped (op : OpId) : Except Inconsistency (Durability E T I) := do
  let window ← d.window.release op .operation
  .ok { d with window := window }

end Durability

end WindowsThreadpoolSys.DurableIoring
