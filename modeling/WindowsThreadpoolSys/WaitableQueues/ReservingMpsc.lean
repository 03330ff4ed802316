import WindowsThreadpoolSys.WaitableQueues.ClaimLayout
import WindowsThreadpoolSys.Library.Execution
import WindowsThreadpoolSys.Library.TableCount

/-! The bounded queue of many producers and one consumer whose producers may reserve a slot in advance. A
step is one load, one compare-exchange or one store of one handle's call, in a single total order. A
handle is used by one thread at a time, so what a handle's call does next is a `Pc` of the handle.

The doorbell and the counters the queue keeps about itself are left out: no step reads them here.
What has been claimed, accepted, received and disposed of and what each call returned is recorded beside
the queue, with a clock. -/
namespace WindowsThreadpoolSys.WaitableQueues
open Library

abbrev HandleId := ℕ

variable {T : Type}

structure Push (T : Type) where
  item : T
  start : ℕ
  deriving DecidableEq, Repr

inductive PublishPhase where
  /-- Waiting for a head that has freed the slot. -/
  | wait
  | write
  | store
  deriving DecidableEq, Repr

inductive Pc (T : Type) where
  /-- A producer, between calls. -/
  | producer
  | pushLoad (call : Push T)
  | pushRoom (call : Push T) (word : ℕ)
  | pushReread (call : Push T) (word : ℕ)
  /-- Refused: full, or disconnected if the consumer is gone. -/
  | pushRefused (call : Push T)
  | pushLive (call : Push T) (word : ℕ)
  | pushClaim (call : Push T) (word : ℕ)
  | reserveLoad
  | reserveRoom (word : ℕ)
  | reserveReread (word : ℕ)
  | reserveClaim (word : ℕ)
  /-- Granted, and about to be counted as a producer. -/
  | reserveCount
  /-- A reservation, neither redeemed nor dropped. -/
  | reservation
  | sendLive (item : T)
  | sendLoad (item : T)
  | sendClaim (item : T) (word : ℕ)
  | dropLoad
  | dropClaim (word : ℕ)
  /-- `publish`, of a reservation or of a producer. -/
  | publish (reserved : Bool) (position : ℕ) (item : T) (phase : PublishPhase)
  /-- `release_producer`, after which the handle is gone. -/
  | release
  deriving DecidableEq, Repr

namespace Pc

def holds : Pc T → Bool
  | .reserveCount | .reservation | .sendLive _ | .sendLoad _ | .sendClaim _ _ | .dropLoad
  | .dropClaim _ => true
  | _ => false

def isProducer : Pc T → Bool
  | .producer => true
  | _ => false

def isReservation : Pc T → Bool
  | .reservation => true
  | _ => false

def position : Pc T → Option ℕ
  | .publish _ position _ _ => some position
  | _ => none

end Pc

inductive ConsumerPc (T : Type) where
  | idle
  | takeLoad
  | takeSequence (position : ℕ)
  | takeRead (position : ℕ)
  | takeStore (position : ℕ) (item : T)
  /-- Nothing to take: empty, or disconnected if no producer is left. -/
  | popEmpty
  deriving DecidableEq, Repr

/-- What a call of a producer or a reservation returns; a refused item is handed back. -/
inductive Answer (T : Type) where
  /-- `Ok`, with the position the item was published at. -/
  | accepted (position : ℕ) (item : T)
  | full (item : T)
  | disconnected (item : T)
  /-- The reservation is handle `j`. -/
  | granted (j : HandleId)
  | refused
  deriving DecidableEq, Repr

structure Slot (T : Type) where
  sequence : ℕ
  value : Option T

structure Queue (T : Type) where
  claim : ℕ
  head : ℕ
  slots : ℕ → Slot T
  producers : ℕ
  consumerLive : Bool
  handles : Table HandleId (Pc T)
  /-- `none` once the consumer is dropped. -/
  consumer : Option (ConsumerPc T)
  /-- The items whose positions were claimed, in the order of the claims. -/
  claimed : List T
  /-- The items whose call has returned that they were accepted, with their positions. -/
  accepted : List (ℕ × T)
  received : List T
  /-- What was disposed of when the last handle went. -/
  disposed : Option (List T)
  answers : List (HandleId × Answer T)
  time : ℕ

namespace Queue

def new : Queue T :=
  { claim := 0
    head := 0
    slots := fun index => { sequence := index, value := none }
    producers := 1
    consumerLive := true
    handles := Table.empty.insert 0 .producer
    consumer := some .idle
    claimed := []
    accepted := []
    received := []
    disposed := none
    answers := []
    time := 0 }

variable (R : Ring) (q : Queue T)

def hasRoomBeyondReservations (position reserved : ℕ) : Bool :=
  decide (R.layout.distance position q.head < R.capacity - reserved)

def set (i : HandleId) (pc : Pc T) : Queue T :=
  { q with handles := q.handles.insert i pc }

/-- The call of producer `i` returns. -/
def return_ (i : HandleId) (answer : Answer T) : Queue T :=
  { q.set i .producer with answers := q.answers ++ [(i, answer)] }

/-- The item of `call` is claimed with `word`, its reservation count being `reserved` from now on. -/
def claimNext (i : HandleId) (reserved : Bool) (item : T) (word count : ℕ) : Queue T :=
  { q with
    claim := R.layout.claimWord count (R.layout.advance (R.layout.positionOf word))
    claimed := q.claimed ++ [item]
    handles := q.handles.insert i (.publish reserved (R.layout.positionOf word) item .wait) }

def writeValue (index : ℕ) (item : T) : Queue T :=
  { q with slots := Function.update q.slots index { q.slots index with value := some item } }

def storeSequence (index sequence : ℕ) : Queue T :=
  { q with slots := Function.update q.slots index { q.slots index with sequence := sequence } }

/-- One step of the call that handle `i` is in. A weak exchange may fail for no reason; a reservation
granted is handle `j`. -/
def stepHandle (i j : HandleId) (weak : Bool) : Pc T → Option (Queue T)
  | .producer => none
  | .pushLoad call => some (q.set i (.pushRoom call q.claim))
  | .pushRoom call word =>
    some (q.set i
      (if q.hasRoomBeyondReservations R (R.layout.positionOf word) (R.layout.reservedOf word) then
        .pushLive call word
      else .pushReread call word))
  | .pushReread call word =>
    -- The refusal stands only if the word it was computed from is still current.
    some (q.set i (if q.claim = word then .pushRefused call else .pushRoom call q.claim))
  | .pushRefused call =>
    some (q.return_ i (if q.consumerLive then .full call.item else .disconnected call.item))
  | .pushLive call word =>
    some (if q.consumerLive then q.set i (.pushClaim call word)
      else q.return_ i (.disconnected call.item))
  | .pushClaim call word =>
    some (if q.claim = word ∧ weak = false then
      q.claimNext R i false call.item word (R.layout.reservedOf word)
    else q.set i (.pushRoom call q.claim))
  | .reserveLoad => some (q.set i (.reserveRoom q.claim))
  | .reserveRoom word =>
    some (if q.hasRoomBeyondReservations R (R.layout.positionOf word) (R.layout.reservedOf word) then
      if R.layout.maxReserved ≤ R.layout.reservedOf word then q.return_ i .refused
      else q.set i (.reserveClaim word)
    else q.set i (.reserveReread word))
  | .reserveReread word =>
    some (if q.claim = word then q.return_ i .refused else q.set i (.reserveRoom q.claim))
  | .reserveClaim word =>
    some (if q.claim = word ∧ weak = false then
      { q.set i .reserveCount with
        claim := R.layout.claimWord (R.layout.reservedOf word + 1) (R.layout.positionOf word) }
    else q.set i (.reserveRoom q.claim))
  | .reserveCount =>
    if (q.handles.get j).isNone then
      some { (q.return_ i (.granted j)).set j .reservation with producers := q.producers + 1 }
    else none
  | .reservation => none
  | .sendLive item =>
    -- The item goes back at once; the call returns it when the reservation has been dropped.
    some (if q.consumerLive then q.set i (.sendLoad item)
      else { q.set i .dropLoad with answers := q.answers ++ [(i, .disconnected item)] })
  | .sendLoad item => some (q.set i (.sendClaim item q.claim))
  | .sendClaim item word =>
    some (if q.claim = word ∧ weak = false then
      q.claimNext R i true item word (R.layout.reservedOf word - 1)
    else q.set i (.sendClaim item q.claim))
  | .dropLoad => some (q.set i (.dropClaim q.claim))
  | .dropClaim word =>
    some (if q.claim = word ∧ weak = false then
      { q.set i .release with
        claim := R.layout.claimWord (R.layout.reservedOf word - 1) (R.layout.positionOf word) }
    else q.set i (.dropClaim q.claim))
  | .publish reserved position item .wait =>
    some (if R.layout.distance position q.head < R.capacity then
      q.set i (.publish reserved position item .write)
    else q)
  | .publish reserved position item .write =>
    some ((q.writeValue (R.slot position) item).set i (.publish reserved position item .store))
  | .publish reserved position item .store =>
    some
      { (q.storeSequence (R.slot position) (R.layout.advance position)).set i
          (if reserved then .release else .producer) with
        accepted := q.accepted ++ [(position, item)]
        answers := q.answers ++ [(i, .accepted position item)] }
  | .release => some { q with producers := q.producers - 1, handles := q.handles.erase i }

def stepConsumer : ConsumerPc T → Option (Queue T)
  | .idle => none
  | .takeLoad => some { q with consumer := some (.takeSequence q.head) }
  | .takeSequence position =>
    some { q with
      consumer := some (if (q.slots (R.slot position)).sequence = R.layout.advance position then
        .takeRead position
      else .popEmpty) }
  | .takeRead position =>
    match (q.slots (R.slot position)).value with
    | none => none
    | some item => some { q with consumer := some (.takeStore position item) }
  | .takeStore position item =>
    some { q with
      head := R.layout.advance position
      received := q.received ++ [item]
      consumer := some .idle }
  | .popEmpty => some { q with consumer := some .idle }

def drain (tail : ℕ) : ℕ → ℕ → List T
  | 0, _ => []
  | fuel + 1, position =>
    if position = tail then []
    else
      (if (q.slots (R.slot position)).sequence = R.layout.advance position then
        (q.slots (R.slot position)).value.toList
      else []) ++ drain tail fuel (R.layout.advance position)

end Queue

inductive Event (T : Type) where
  | push (i : HandleId) (item : T)
  | reserve (i : HandleId)
  | clone (i j : HandleId)
  | dropProducer (i : HandleId)
  | send (i : HandleId) (item : T)
  | dropReservation (i : HandleId)
  | handle (i j : HandleId) (weak : Bool)
  | pop
  | consumer
  | dropConsumer
  /-- The last handle is gone. -/
  | dispose

namespace Queue

variable (R : Ring) (q : Queue T)

/-- One step. A call is begun by a handle between calls; the consumer is dropped between calls too. -/
def act : Event T → Option (Queue T)
  | .push i item =>
    if (q.handles.get i).any Pc.isProducer then some (q.set i (.pushLoad ⟨item, q.time⟩)) else none
  | .reserve i => if (q.handles.get i).any Pc.isProducer then some (q.set i .reserveLoad) else none
  | .clone i j =>
    if (q.handles.get i).any Pc.isProducer ∧ (q.handles.get j).isNone then
      some { q.set j .producer with producers := q.producers + 1 }
    else none
  | .dropProducer i =>
    if (q.handles.get i).any Pc.isProducer then some (q.set i .release) else none
  | .send i item =>
    if (q.handles.get i).any Pc.isReservation then some (q.set i (.sendLive item)) else none
  | .dropReservation i =>
    if (q.handles.get i).any Pc.isReservation then some (q.set i .dropLoad) else none
  | .handle i j weak =>
    match q.handles.get i with
    | none => none
    | some pc => q.stepHandle R i j weak pc
  | .pop =>
    match q.consumer with
    | some .idle => some { q with consumer := some .takeLoad }
    | _ => none
  | .consumer =>
    match q.consumer with
    | none => none
    | some pc => q.stepConsumer R pc
  | .dropConsumer =>
    match q.consumer with
    | some .idle => some { q with consumerLive := false, consumer := none }
    | _ => none
  | .dispose =>
    if q.handles.size = 0 ∧ q.consumer.isNone ∧ q.disposed.isNone then
      some { q with
        disposed := some (q.drain R (R.layout.positionOf q.claim) (R.capacity + 1) q.head) }
    else none

def step (event : Event T) : Option (Queue T) :=
  (q.act R event).map fun q' => { q' with time := q.time + 1 }

end Queue

abbrev Tick (T : Type) := Taken (Queue T) (Event T)

abbrev Run (R : Ring) : List (Tick T) → Queue T → Prop := Execution (Allows (Queue.step R)) (· = .new)

end WindowsThreadpoolSys.WaitableQueues
