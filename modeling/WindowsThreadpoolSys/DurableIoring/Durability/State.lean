import WindowsThreadpoolSys.DurableIoring.Types

/-! The records of `durability.rs` and its tables: each lineage's seals and high-water mark, the writes
not yet covered, the operations held for their gates, and the failures not yet resolved. Every table
is kept in key order, whether the source keeps it in an `Ordered` or in a hash table it never
iterates in order.

A failure keeps the writes observation listed (`Failure.listed`), as the source does for its census.
No operation reads them. -/
namespace WindowsThreadpoolSys.DurableIoring
open Library

/-! ## Keys -/

structure SealKey where
  lineage : Key
  seq : ℕ
  deriving Repr

instance : LinearOrder SealKey :=
  LinearOrder.lift' (fun k => toLex (k.lineage, k.seq)) fun a b h => by
    cases a
    cases b
    simpa using h

structure EpochKey (E : Type) where
  lineage : Key
  epoch : E
  deriving Repr

instance {E : Type} [LinearOrder E] : LinearOrder (EpochKey E) :=
  LinearOrder.lift' (fun k => toLex (k.lineage, k.epoch)) fun a b h => by
    cases a
    cases b
    simpa using h

structure GatedKey (E : Type) where
  lineage : Key
  epoch : E
  op : OpId
  deriving Repr

instance {E : Type} [LinearOrder E] : LinearOrder (GatedKey E) :=
  LinearOrder.lift' (fun k => toLex (k.lineage, toLex (k.epoch, k.op))) fun a b h => by
    cases a
    cases b
    simpa using h

inductive Span where
  | unsealed
  | sealed (seq : ℕ)
  deriving DecidableEq, Repr

namespace Span

def rank : Span → ℕ
  | unsealed => 0
  | sealed seq => seq + 1

theorem rank_injective : Function.Injective rank := by
  intro a b h
  cases a <;> cases b <;> simp_all [rank]

end Span

structure SpanKey where
  lineage : Key
  file : IoTargetKey
  span : Span
  deriving Repr

instance : LinearOrder SpanKey :=
  LinearOrder.lift' (fun k => toLex (k.lineage, toLex (k.file, k.span.rank))) fun a b h => by
    cases a
    cases b
    simpa [Span.rank_injective.eq_iff] using h

structure DomainKey where
  lineage : Key
  seq : ℕ
  domain : DomainId
  deriving Repr

instance : LinearOrder DomainKey :=
  LinearOrder.lift' (fun k => toLex (k.lineage, toLex (k.seq, k.domain))) fun a b h => by
    cases a
    cases b
    simpa using h

/-! ## Records -/

structure Gate (E : Type) where
  lineage : Key
  epoch : E
  deriving DecidableEq, Repr

inductive Stage where
  | inFlight
  /-- Completed successfully, and not yet named to a seal. -/
  | completed
  /-- Named to its lineage's seal with this sequence number. -/
  | named (seq : ℕ)
  deriving DecidableEq, Repr

def Span.ofStage : Stage → Span
  | .inFlight => .unsealed
  | .completed => .unsealed
  | .named seq => .sealed seq

structure Accepted (E T : Type) where
  op : OpId
  lineage : Key
  epoch : E
  file : IoTargetKey
  target : T
  routing : Routing
  domains : DomainList

/-- A write not yet covered successfully, failed, or passed by its lineage's mark. It is nameable by
the failures numbered from `born`, and before `until` once its lineage has ended. -/
structure Write (E T : Type) where
  op : OpId
  lineage : Key
  epoch : E
  file : IoTargetKey
  target : T
  routing : Routing
  domains : DomainList
  stage : Stage
  born : ℕ
  until_ : Option ℕ

structure HeldOp (E T : Type) where
  op : OpId
  write : Option (Accepted E T)
  gate : Gate E
  /-- The gate is durable, and the operation waits only to be pushed. -/
  ready : Bool

structure Gone (E : Type) where
  op : OpId
  lineage : Key
  epoch : E
  file : IoTargetKey
  domains : DomainList
  born : ℕ
  until_ : ℕ

structure SpanFile where
  writes : ℕ
  domains : DomainList
  flushed : Bool
  answered : Bool
  ok : Bool
  deriving DecidableEq, Repr

def SpanFile.new (domains : DomainList) : SpanFile :=
  { writes := 0, domains := domains, flushed := false, answered := false, ok := false }

structure SealDomain where
  answered : Bool
  ok : Bool
  deriving DecidableEq, Repr

inductive SealStage where
  /-- A write at or below the seal is still in flight. -/
  | waiting
  /-- Its parts are out: `unanswered` counts its files' flushes not yet answered. -/
  | flushing (unanswered : ℕ) (failed : Bool)
  /-- Every part answered. -/
  | done (succeeded : Bool)
  deriving DecidableEq, Repr

structure Empty (E : Type) where
  made : ℕ
  through : E
  finished : Bool
  answered : Bool
  deriving DecidableEq, Repr

def Empty.new {E : Type} (made : ℕ) (through : E) : Empty E :=
  { made := made, through := through, finished := false, answered := false }

structure Seal (E : Type) where
  seq : ℕ
  made : ℕ
  through : E
  stage : SealStage
  answered : Bool
  trailing : Option (Empty E)
  pin : Option OpId
  deriving DecidableEq, Repr

structure HealAt where
  pushes : ℕ
  seals : ℕ
  deriving Repr

instance : LinearOrder HealAt :=
  LinearOrder.lift' (fun at_ => toLex (at_.pushes, at_.seals)) fun a b h => by
    cases a
    cases b
    simpa using h

inductive Standing where
  | open
  | healing (at_ : HealAt)
  | resolved
  deriving DecidableEq

structure Failure (I : Type) where
  id : FailureId
  cause : FailureCause
  reach : Reach
  only : Option Key
  observed : I
  standing : Standing
  token : ℕ
  listed : List OpId

structure LineageState (E : Type) where
  sealedThrough : Option E
  durableThrough : Option E
  leading : Option (Empty E)
  nextSeal : ℕ
  ended : Bool
  endUnpopped : Bool
  released : Option HealAt

def LineageState.new {E : Type} : LineageState E :=
  { sealedThrough := none, durableThrough := none, leading := none, nextSeal := 0, ended := false,
    endUnpopped := false, released := none }

structure Holds where
  operation : Bool
  uncovered : Bool
  suspected : ℕ
  pinned : Bool
  abandoned : Bool
  deriving DecidableEq, Repr

def Holds.default : Holds :=
  { operation := false, uncovered := false, suspected := 0, pinned := false, abandoned := false }

structure TokenSlot where
  failure : ℕ
  live : Bool
  deriving DecidableEq, Repr

/-! ## What the failure observer is told -/

structure SuspectWrite (E : Type) where
  op : OpId
  target : IoTargetKey
  epoch : Gate E
  deriving DecidableEq

structure Marking (I : Type) where
  write : OpId
  observed : I
  kind : MarkingKind

inductive Told (E I : Type) where
  | failed (id : FailureId) (cause : FailureCause) (observed : I)
  | suspected (id : FailureId) (write : SuspectWrite E)
  | marked (id : FailureId) (marking : Marking I)

/-! ## What a change makes due -/

structure Flush (E T : Type) where
  lineage : Key
  through : E
  file : IoTargetKey
  target : T

structure ProviderCall where
  lineage : Key
  seq : ℕ
  deriving DecidableEq, Repr

structure Failed (I : Type) where
  id : FailureId
  token : FailureToken
  cause : FailureCause
  observed : I
  deriving DecidableEq

inductive Event (E I : Type) where
  | durable (lineage : Key) (through : E)
  | blocked (lineage : Key) (through : E) (blocker : FailureId)
  | failed (failed : Failed I)
  | abandoned (failure : FailureId)
  | healed (failure : FailureId)
  | superseded (lineage : Key) (through : E)
  | lineageEnded (lineage : Key) (abandonedThrough : Option E)
  | neverIssued (op : OpId) (abandoned : Gate E)
  deriving DecidableEq

structure Due (E T I : Type) where
  flushes : List (Flush E T)
  events : List (Event E I)
  released : List OpId
  calls : List ProviderCall

def Due.fresh {E T I : Type} : Due E T I :=
  { flushes := [], events := [], released := [], calls := [] }

/-! ## The tables -/

abbrev Window := Table OpId Holds

abbrev Spans := Table SpanKey SpanFile

abbrev Seals (E : Type) := Table SealKey (Seal E)

abbrev Counts (E : Type) [LinearOrder E] := Table (EpochKey E) ℕ

abbrev Kept (E : Type) := Table OpId (Gone E)

abbrev SealDomains := Table DomainKey SealDomain

/-! ## The core -/

/-- An instance's durability state. The clock is the sequence of readings it will give, and `reads`
counts those taken; `told` is what the observer was told so far, if one was given. -/
structure Durability (E T I : Type) [LinearOrder E] where
  instance_ : InstanceId
  lineages : Table Key (LineageState E)
  nextLineage : Key
  writes : Table OpId (Write E T)
  seals : Seals E
  inFlightByEpoch : Counts E
  heldByEpoch : Counts E
  gated : Table (GatedKey E) (Gate E)
  spans : Spans
  sealDomains : SealDomains
  window : Window
  failures : List (Failure I)
  kept : Kept E
  abandoned : Table (EpochKey E) OpId
  tokens : List TokenSlot
  freeTokens : List ℕ
  lists : DomainLists
  nextFailure : ℕ
  nextPush : ℕ
  sealsMade : ℕ
  held : Table OpId (HeldOp E T)
  served : List DomainId
  clock : ℕ → I
  reads : ℕ
  told : Option (List (Told E I))
  capacity : Capacity

/-! ## Inconsistencies -/

inductive Inconsistency where
  | flushOfNoSeal
  | flushOfSealNotFlushing
  | flushNotIssued
  | pushedToLineageNotLive
  | inFlightFull
  | spansFull
  | writesFull
  | completedNeverPushed
  | completedTwice
  | sealOfLineageNotLive
  | sealsFull
  | noTokenSlot
  | failuresFull
  | markedNotKept
  | sealDomainsFull
  | namedInNoSpan
  | uncoveredInNoSpan
  | placesFull
  | admittedTwice
  | uncoveredTwice
  | twoSealsOnePlace
  | twoAbandonedOnePlace
  | releasedNoPlace
  | releasedNotHeld
  | keptTwice
  | keptFull
  | heldOnLineageNotLive
  | heldWriteFull
  | heldFull
  | issuedBeforeGate
  | issuedNeverHeld
  | lineagesFull
  | endNotLive
  | endPoppedNotEnded
  | retireNotLive
  | abandonedFull
  | tokenOfNoFailure
  | forgotNotResolved
  | answerOfNoSeal
  | answerOfSealNotFlushing
  | answerNotAsked
  | answeredTwice
  deriving DecidableEq, Repr

structure Change (E T I : Type) [LinearOrder E] where
  core : Durability E T I
  due : Due E T I

end WindowsThreadpoolSys.DurableIoring
