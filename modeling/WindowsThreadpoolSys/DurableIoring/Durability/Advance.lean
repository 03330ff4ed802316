import WindowsThreadpoolSys.DurableIoring.Durability.Transitions

/-! What every change ends with. For each live lineage: start every seal whose writes have all
completed, finish every seal whose parts have all answered. Then report the heals that took effect,
advance each lineage's high-water mark over its finished seals, and answer the seals a failure
holds. -/
namespace WindowsThreadpoolSys.DurableIoring
open Library

namespace SealStage

def isWaiting : SealStage → Bool
  | .waiting => true
  | .flushing _ _ => false
  | .done _ => false

def finish : SealStage → SealStage
  | .waiting => .waiting
  | .done succeeded => .done succeeded
  | .flushing _ failed => .done !failed

def hasFailed : SealStage → Bool
  | .waiting => false
  | .flushing _ failed => failed
  | .done succeeded => !succeeded

end SealStage

def Empty.answerable {E : Type} (e : Empty E) : Option E :=
  if e.finished && !e.answered then some e.through else none

inductive Place where
  | leading
  | recorded (seq : ℕ)
  | trailing (seq : ℕ)
  deriving DecidableEq

namespace Durability

variable {E T I : Type} [LinearOrder E] (d : Durability E T I)

/-! ## Starting seals -/

def touch (touched served domains : List DomainId) : List DomainId :=
  (domains.filter fun domain => served.contains domain).foldl
    (fun touched domain => DomainLists.insertSorted domain touched) touched

/-- What naming a seal's writes collects: the span entries, the domains touched, the flushes made
due and how many of them there are. -/
structure Naming (E T : Type) where
  spans : Spans
  touched : List DomainId
  flushes : List (Flush E T)
  unanswered : ℕ

def nameWrite (lineage : Key) (s : Seal E) (n : Naming E T) (w : Write E T) : Except Inconsistency
    (Naming E T) := do
  let left ← n.spans.leave ⟨lineage, w.file, .unsealed⟩ .namedInNoSpan
  let touched :=
    if w.routing.provider then touch n.touched d.served (d.lists.get w.domains) else n.touched
  let key : SpanKey := ⟨lineage, w.file, .sealed s.seq⟩
  let spans ← left.enter d.capacity.operations key w.domains
  if w.routing.default && !(spans.get key).any SpanFile.flushed then
    .ok { spans := spans.modify key fun entry => { entry with flushed := true }
          touched := touched
          flushes := n.flushes ++
            [{ lineage := lineage, through := s.through, file := w.file, target := w.target }]
          unanswered := n.unanswered + 1 }
  else .ok { n with spans := spans, touched := touched }

def isNamedBy (lineage : Key) (s : Seal E) (w : Write E T) : Bool :=
  decide (w.lineage = lineage) && decide (w.stage = .completed) && decide (w.epoch ≤ s.through)

def askDomains (table : SealDomains) (limit : ℕ) (lineage : Key) (seq : ℕ)
    (touched : List DomainId) : Except Inconsistency SealDomains :=
  touched.foldlM (fun table domain =>
    match table.insertWithin limit ⟨lineage, seq, domain⟩ { answered := false, ok := false } with
    | none => .error .sealDomainsFull
    | some table => .ok table) table

def startSeal (c : Change E T I) (lineage : Key) (s : Seal E) :
    Except Inconsistency (Change E T I) := do
  let d := c.core
  let n ← (d.writes.vals.filter (isNamedBy lineage s)).foldlM (d.nameWrite lineage s)
    { spans := d.spans, touched := [], flushes := [], unanswered := 0 }
  let sealDomains ← askDomains d.sealDomains (d.capacity.providerParts d.served.length) lineage
    s.seq n.touched
  .ok
    { core :=
        { d with
          spans := n.spans
          writes := d.writes.map fun _ w =>
            if isNamedBy lineage s w then { w with stage := .named s.seq } else w
          sealDomains := sealDomains
          seals := d.seals.insert ⟨lineage, s.seq⟩ { s with stage := .flushing n.unanswered false } }
      due :=
        { c.due with
          flushes := c.due.flushes ++ n.flushes
          calls := if n.touched.isEmpty then c.due.calls
            else c.due.calls ++ [{ lineage := lineage, seq := s.seq }] } }

def startSealsFrom (lineage : Key) (oldest : Option E) :
    List (Seal E) → Change E T I → Except Inconsistency (Change E T I)
  | [], c => .ok c
  | s :: rest, c =>
    match s.stage with
    | .flushing _ _ => startSealsFrom lineage oldest rest c
    | .done _ => startSealsFrom lineage oldest rest c
    | .waiting =>
      if oldest.any fun o => decide (o ≤ s.through) then .ok c
      else do
        let c ← startSeal c lineage s
        startSealsFrom lineage oldest rest c

def startSeals (c : Change E T I) (lineage : Key) : Except Inconsistency (Change E T I) :=
  startSealsFrom lineage (c.core.oldestOutstanding lineage) (sealsOf c.core.seals lineage) c

/-! ## Finishing seals -/

def later (a b : Option HealAt) : Option HealAt :=
  match a, b with
  | some a, some b => some (max a b)
  | some a, none => some a
  | none, b => b

def releaseHeals (lineage : Key) (made : ℕ) (through : E) : Durability E T I :=
  let latest :=
    ((d.failures.filterMap Failure.healingAt).filter fun at_ =>
      d.releases lineage made through at_).foldl (fun a b => later a (some b)) none
  { d with
    lineages := d.lineages.modify lineage fun st =>
      { st with released := later st.released latest } }

def finishesEmpty (oldest : Option E) (e : Empty E) : Bool :=
  !e.finished && oldest.all fun o => decide (e.through < o)

def finishEmpty (oldest : Option E) (e : Empty E) : Empty E :=
  if finishesEmpty oldest e then { e with finished := true } else e

def finishEmpties (lineage : Key) : Durability E T I :=
  match d.lineages.get lineage with
  | none => d
  | some st =>
    let oldest := d.oldestOutstanding lineage
    let started := (sealsOf d.seals lineage).takeWhile fun s => !s.stage.isWaiting
    let empties := st.leading.toList ++ started.flatMap fun s => s.trailing.toList
    let finished : Durability E T I :=
      { d with
        lineages := d.lineages.insert lineage
          { st with leading := st.leading.map (finishEmpty oldest) }
        seals := d.seals.map fun k s =>
          if k.lineage = lineage ∧ k.seq ∈ started.map Seal.seq then
            { s with trailing := s.trailing.map (finishEmpty oldest) }
          else s }
    match (empties.filter (finishesEmpty oldest)).getLast? with
    | none => finished
    | some e => finished.releaseHeals lineage e.made e.through

def hasAnswered (lineage : Key) (s : Seal E) : Bool :=
  match s.stage with
  | .waiting => false
  | .done _ => false
  | .flushing unanswered _ =>
    decide (unanswered = 0) && !d.served.any fun domain =>
      (d.sealDomains.get ⟨lineage, s.seq, domain⟩).any fun asked => !asked.answered

def finishSeals (lineage : Key) : Durability E T I :=
  let finishing := (sealsOf d.seals lineage).filter (d.hasAnswered lineage)
  let finished : Durability E T I :=
    { d with
      seals := d.seals.map fun k s =>
        if k.lineage = lineage ∧ d.hasAnswered lineage s = true then
          { s with stage := s.stage.finish }
        else s }
  match (finishing.filter fun s => !s.stage.hasFailed).getLast? with
  | none => finished
  | some s => finished.releaseHeals lineage s.made s.through

/-! ## Healed failures -/

def isHealed (f : Failure I) : Bool :=
  f.healingAt.isSome && !(d.suspects f).any fun w => d.pendingOn f w.lineage

def releaseHealed (c : Change E T I) : Change E T I :=
  let d := c.core
  { core :=
      { d with
        failures := d.failures.map fun f =>
          if d.isHealed f then { f with standing := .resolved } else f }
    due := { c.due with events := c.due.events ++
      (d.failures.filter d.isHealed).map fun f => .healed f.id } }

/-! ## The mark -/

def nextFinished (lineage : Key) (st : LineageState E) : Option (E × Option (Seal E)) :=
  match st.leading with
  | some e => if e.finished then some (e.through, none) else none
  | none =>
    match sealsOf d.seals lineage with
    | [] => none
    | s :: _ => if s.stage.isDone then some (s.through, some s) else none

def takeSeal (lineage : Key) (st : LineageState E) (through : E) : Option (Seal E) → Except
    Inconsistency (Durability E T I)
  | none =>
    .ok { d with
      lineages := d.lineages.insert lineage
        { st with leading := none, durableThrough := some through } }
  | some s => do
    let window ← d.window.unpin s.pin
    .ok { d with
      seals := d.seals.erase ⟨lineage, s.seq⟩
      sealDomains := forgetDomains d.sealDomains d.served lineage s.seq
      lineages := d.lineages.insert lineage
        { st with leading := s.trailing, durableThrough := some through }
      window := window }

def passSeal (c : Change E T I) (lineage : Key) (st : LineageState E) (through : E)
    (recorded : Option (Seal E)) : Except Inconsistency (Change E T I) := do
  let d ← c.core.takeSeal lineage st through recorded
  let d ← d.letGo fun w => decide (w.lineage = lineage) && decide (w.epoch ≤ through)
  let d ← d.forgetAbandoned lineage (some through)
  .ok (releaseThrough
    { core := d, due := { c.due with events := c.due.events ++ [.durable lineage through] } }
    lineage through)

/-- Advance `lineage`'s mark over its finished seals, in order, while no failure holds them. Each
seal is passed once, so one round for each seal there is passes all it can. -/
def passSeals (lineage : Key) : ℕ → Change E T I → Except Inconsistency (Change E T I)
  | 0, c => .ok c
  | fuel + 1, c =>
    match c.core.lineages.get lineage with
    | none => .ok c
    | some st =>
      match c.core.nextFinished lineage st with
      | none => .ok c
      | some (through, recorded) =>
        if (c.core.blocking lineage through).isSome then .ok c
        else do
          let c ← passSeal c lineage st through recorded
          passSeals lineage fuel c

def places (seals : Seals E) (lineage : Key) : List Place :=
  .leading :: (sealsOf seals lineage).flatMap fun s => [.recorded s.seq, .trailing s.seq]

def answerable (lineage : Key) (place : Place) : Option E :=
  match d.lineages.get lineage with
  | none => none
  | some st =>
    match place with
    | .leading => st.leading.bind Empty.answerable
    | .recorded seq =>
      (d.seals.get ⟨lineage, seq⟩).bind fun s =>
        if !s.answered && decide (s.stage = .done true) then some s.through else none
    | .trailing seq => (d.seals.get ⟨lineage, seq⟩).bind fun s => s.trailing.bind Empty.answerable

def answerAt (lineage : Key) (place : Place) : Durability E T I :=
  match place with
  | .leading =>
    { d with
      lineages := d.lineages.modify lineage fun st =>
        { st with leading := st.leading.map fun e => { e with answered := true } } }
  | .recorded seq =>
    { d with seals := d.seals.modify ⟨lineage, seq⟩ fun s => { s with answered := true } }
  | .trailing seq =>
    { d with
      seals := d.seals.modify ⟨lineage, seq⟩ fun s =>
        { s with trailing := s.trailing.map fun e => { e with answered := true } } }

def answerBlocked (lineage : Key) (c : Change E T I) (place : Place) : Change E T I :=
  match c.core.answerable lineage place with
  | none => c
  | some through =>
    match c.core.blocking lineage through with
    | none => c
    | some blocker =>
      { core := c.core.answerAt lineage place
        due := { c.due with events := c.due.events ++ [.blocked lineage through blocker] } }

def passFuel (lineage : Key) : ℕ := 2 * (sealsOf d.seals lineage).length + 1

def advanceMark (c : Change E T I) (lineage : Key) : Except Inconsistency (Change E T I) := do
  let c ← passSeals lineage (c.core.passFuel lineage) c
  .ok ((places c.core.seals lineage).foldl (answerBlocked lineage) c)

/-! ## One advance -/

def liveLineages : List Key :=
  (d.lineages.entries.filter fun e => !e.2.ended).map Prod.fst

def progress (c : Change E T I) (lineage : Key) : Except Inconsistency (Change E T I) := do
  let c ← startSeals c lineage
  .ok { c with core := (c.core.finishEmpties lineage).finishSeals lineage }

def advance (c : Change E T I) : Except Inconsistency (Change E T I) := do
  let live := c.core.liveLineages
  let c ← live.foldlM progress c
  live.foldlM advanceMark (releaseHealed c)

end Durability

end WindowsThreadpoolSys.DurableIoring
