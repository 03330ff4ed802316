import WindowsThreadpoolSys.DurableIoring.Durability.Tables

/-! The queries of `suspects.rs`, `heals.rs`, `empties.rs`, `gates.rs` and `durability.rs` that change
nothing: which writes a failure suspects, which lineages it still holds, where a lineage's seals
stand, and whether a gate or a seal would close a cycle. -/
namespace WindowsThreadpoolSys.DurableIoring
open Library

/-! ## Suspects -/

structure Suspect (E : Type) where
  op : OpId
  lineage : Key
  epoch : E
  file : IoTargetKey
  deriving DecidableEq

namespace Failure

variable {I : Type}

/-- Whether the failure names a write recorded at failure clock `born`, nameable until `until_` if
it has stopped being, of `lineage`, to a file declared with `domains`: whether observation would
have, which is what freezes the set. -/
def names (f : Failure I) (lists : DomainLists) (born : ℕ) (until_ : Option ℕ) (lineage : Key)
    (domains : DomainList) : Bool :=
  decide (born ≤ f.id.seq) && until_.all (fun u => decide (f.id.seq < u)) &&
    f.only.all (fun l => decide (l = lineage)) && f.reach.reaches lists (lists.get domains)

def healingAt (f : Failure I) : Option HealAt :=
  match f.standing with
  | .healing at_ => some at_
  | .open => none
  | .resolved => none

end Failure

namespace Write

variable {E T I : Type}

def suspect (w : Write E T) : Suspect E :=
  { op := w.op, lineage := w.lineage, epoch := w.epoch, file := w.file }

def namedBy (w : Write E T) (lists : DomainLists) (f : Failure I) : Bool :=
  f.names lists w.born w.until_ w.lineage w.domains

end Write

namespace Gone

variable {E I : Type}

def suspect (g : Gone E) : Suspect E :=
  { op := g.op, lineage := g.lineage, epoch := g.epoch, file := g.file }

def namedBy (g : Gone E) (lists : DomainLists) (f : Failure I) : Bool :=
  f.names lists g.born (some g.until_) g.lineage g.domains

end Gone

structure SealPoint (E : Type) where
  made : ℕ
  through : E
  finished : Bool
  deriving DecidableEq

def Empty.point {E : Type} (e : Empty E) : SealPoint E :=
  { made := e.made, through := e.through, finished := e.finished }

def SealStage.isDone : SealStage → Bool
  | .done _ => true
  | .waiting => false
  | .flushing _ _ => false

def Seal.point {E : Type} (s : Seal E) : SealPoint E :=
  { made := s.made, through := s.through, finished := s.stage.isDone }

def LineageState.sealPoints {E : Type} (st : LineageState E) (seals : Seals E) (lineage : Key) :
    List (SealPoint E) :=
  (st.leading.toList.map Empty.point) ++
    (sealsOf seals lineage).flatMap fun s => s.point :: s.trailing.toList.map Empty.point

inductive State where
  | open
  | pending
  | blocked (by_ : FailureId)
  | durable
  | abandoned
  deriving DecidableEq

inductive GateState where
  | unknown
  | abandoned
  | durable
  | waiting
  deriving DecidableEq

def above {E : Type} [LinearOrder E] (lower : Option E) (epoch : E) : Bool :=
  lower.all fun l => decide (l < epoch)

namespace Durability

variable {E T I : Type} [LinearOrder E] (d : Durability E T I)

def live (lineage : Key) : Option (LineageState E) :=
  (d.lineages.get lineage).filter fun st => !st.ended

def isLive (lineage : Key) : Bool := (d.live lineage).isSome

def uncoveredSuspects (f : Failure I) : List (Suspect E) :=
  (d.writes.vals.filter fun w => w.namedBy d.lists f).map Write.suspect

def keptSuspects (f : Failure I) : List (Suspect E) :=
  (d.kept.vals.filter fun g => g.namedBy d.lists f).map Gone.suspect

def suspects (f : Failure I) : List (Suspect E) :=
  d.uncoveredSuspects f ++ d.keptSuspects f

def visitSuspects (f : Failure I) : List (Suspect E) :=
  (d.uncoveredSuspects f).merge (d.keptSuspects f) fun a b => decide (a.op ≤ b.op)

def suspectsOp (f : Failure I) (op : OpId) : Bool :=
  match d.writes.get op with
  | some w => decide (w.op = op) && w.namedBy d.lists f
  | none =>
    match d.kept.get op with
    | some g => decide (g.op = op) && g.namedBy d.lists f
    | none => false

def pendingOn (f : Failure I) (lineage : Key) : Bool :=
  match f.standing with
  | .open => true
  | .healing at_ =>
    match d.lineages.get lineage with
    | none => false
    | some st => !st.ended && st.released.all fun done => decide (done < at_)
  | .resolved => false

def holdsWithin (f : Failure I) (lineage : Key) (covers : E → Bool) : Bool :=
  d.pendingOn f lineage &&
    (d.suspects f).any fun w => decide (w.lineage = lineage) && covers w.epoch

def blocking (lineage : Key) (through : E) : Option FailureId :=
  match d.lineages.get lineage with
  | none => none
  | some st =>
    if above st.durableThrough through then
      (d.failures.find? fun f =>
        d.holdsWithin f lineage fun e => above st.durableThrough e && decide (e ≤ through)).map
          Failure.id
    else none

def refuses (lineage : Key) (epoch : E) : Option E :=
  match d.live lineage with
  | none => none
  | some st => st.sealedThrough.filter fun s => decide (epoch ≤ s)

def isAbandoned (lineage : Key) (epoch : E) : Bool :=
  d.isLive lineage && (d.abandoned.get ⟨lineage, epoch⟩).isSome

def state (lineage : Key) (epoch : E) : Option State :=
  match d.live lineage with
  | none => none
  | some st =>
    if (d.abandoned.get ⟨lineage, epoch⟩).isSome then some .abandoned
    else if above st.sealedThrough epoch then some .open
    else if !above st.durableThrough epoch then some .durable
    else
      let finished :=
        ((st.sealPoints d.seals lineage).find? fun p => decide (epoch ≤ p.through)).any
          SealPoint.finished
      match d.blocking lineage epoch with
      | some blocker => some (if finished then .blocked blocker else .pending)
      | none => some .pending

def gateState (gate : Gate E) : GateState :=
  match d.state gate.lineage gate.epoch with
  | none => .unknown
  | some .abandoned => .abandoned
  | some .durable => .durable
  | some .open => .waiting
  | some .pending => .waiting
  | some (.blocked _) => .waiting

/-! ## Outstanding writes and heals -/

def lesser (a b : Option E) : Option E :=
  match a, b with
  | some a, some b => some (min a b)
  | some a, none => some a
  | none, b => b

def oldestOutstanding (lineage : Key) : Option E :=
  lesser (Counts.lowest d.inFlightByEpoch lineage) (Counts.lowest d.heldByEpoch lineage)

def pinnedBy (lineage : Key) (through : E) : Option OpId :=
  match d.lineages.get lineage with
  | none => none
  | some st =>
    let covers := fun (at_ : Key) (epoch : E) =>
      decide (at_ = lineage) && above st.sealedThrough epoch && decide (epoch ≤ through)
    let written := (d.writes.entries.find? fun e => covers e.2.lineage e.2.epoch).map Prod.fst
    let held :=
      (d.held.entries.find? fun e => e.2.write.any fun w => covers w.lineage w.epoch).map Prod.fst
    match written, held with
    | some a, some b => some (min a b)
    | some a, none => some a
    | none, b => b

def toCommit (lineage : Key) (pushes : ℕ) : List E :=
  (d.writes.vals.filter fun w => decide (w.lineage = lineage) && decide (w.op < pushes)).map
      Write.epoch ++
    ((d.held.vals.filter fun h => decide (h.op < pushes)).filterMap HeldOp.write |>.filter fun w =>
      decide (w.lineage = lineage)).map Accepted.epoch

def healReach (lineage : Key) (at_ : HealAt) : Option E :=
  (d.toCommit lineage at_.pushes).max?

def releases (lineage : Key) (made : ℕ) (through : E) (at_ : HealAt) : Bool :=
  decide (at_.seals ≤ made) && (d.healReach lineage at_).all fun reach => decide (reach ≤ through)

def healNow : HealAt := { pushes := d.nextPush, seals := d.sealsMade }

/-! ## Cycles -/

def extent (target : Gate E) (extra : Option (Gate E)) : Option E :=
  match d.live target.lineage with
  | none => none
  | some st =>
    if !above st.durableThrough target.epoch then none
    else
      let considered :=
        (extra.filter fun s => decide (s.lineage = target.lineage)).toList.map fun s =>
          (d.sealsMade, s.epoch)
      let seals := (st.sealPoints d.seals target.lineage).map (fun p => (p.made, p.through)) ++
        considered
      let first :=
        match seals.find? fun s => decide (target.epoch ≤ s.2) with
        | some s => max target.epoch s.2
        | none => target.epoch
      some (d.failures.foldl (fun extent f =>
        match f.standing with
        | .open => extent
        | .resolved => extent
        | .healing at_ =>
          if d.holdsWithin f target.lineage fun e =>
              above st.durableThrough e && decide (e ≤ target.epoch) then
            match seals.find? fun s => d.releases target.lineage s.1 s.2 at_ with
            | some s => max extent s.2
            | none => extent
          else extent) first)

/-- Whether reaching every gate on `work` needs, transitively, `goal`'s lineage to complete its
writes at or above `goal`'s epoch. `bounds` says how far each lineage has been searched. A search
visits a gate for each seed and each gated write at most once, so that much fuel is enough. -/
def needs (goal : Gate E) (extra : Option (Gate E)) : ℕ → List (Gate E) → Table Key E → Bool
  | 0, _, _ => false
  | _ + 1, [], _ => false
  | fuel + 1, gate :: work, bounds =>
    match d.extent gate extra with
    | none => needs goal extra fuel work bounds
    | some extent =>
      if gate.lineage = goal.lineage ∧ goal.epoch ≤ extent then true
      else
        let lower := bounds.get gate.lineage
        if above lower extent then
          let found := gatedOf d.gated gate.lineage fun e => above lower e && decide (e ≤ extent)
          needs goal extra fuel ((found.map Prod.snd).reverse ++ work)
            (bounds.insert gate.lineage extent)
        else needs goal extra fuel work bounds

def search (goal : Gate E) (extra : Option (Gate E)) (seeds : List (Gate E)) : Bool :=
  d.needs goal extra (seeds.length + d.gated.size) seeds.reverse Table.empty

def writeCycle (write gate : Gate E) : Bool := d.search write none [gate]

/-- Whether sealing `lineage` through `through` would close a cycle. One search from all its held
writes at once is the cheap test; only if it needs the lowest of them is each tested alone. -/
def sealCycle (lineage : Key) (through : E) : Bool :=
  let extra : Option (Gate E) := some ⟨lineage, through⟩
  let covered := gatedOf d.gated lineage fun e => decide (e ≤ through)
  match d.isLive lineage, covered with
  | true, (lowest, _) :: _ =>
    d.search ⟨lineage, lowest.epoch⟩ extra (covered.map Prod.snd) &&
      covered.any fun e => d.search ⟨lineage, e.1.epoch⟩ extra [e.2]
  | _, _ => false

/-! ## What holds a lineage -/

def heldForGate (lineage : Key) : ℕ :=
  (d.held.vals.filter fun h =>
    (h.write.any fun w => decide (w.lineage = lineage)) ||
      (!h.ready && decide (h.gate.lineage = lineage))).length

def lineageFailures (lineage : Key) : List (Failure I) :=
  d.failures.filter fun f => d.holdsWithin f lineage fun _ => true

end Durability

end WindowsThreadpoolSys.DurableIoring
