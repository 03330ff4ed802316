import WindowsThreadpoolSys.Topology.Machine

/-! The queries order what the topology reports by inclusion of processors, the whole machine being the
processors it lists. A description is a topology written down: `Domain` reads its processors with the
width of a word checked, the list of processors is read as it stands. -/
namespace WindowsThreadpoolSys.Topology
open Library

variable {w : ℕ}

inductive Granularity (w : ℕ)
  | relation (domain : Domain w)
  | machine

structure Proximity (w : ℕ) where
  shared : List (Granularity w)
  finerUnobserved : Bool
  unrepresentable : List ProcessorId

structure ProcessorFacts (w : ℕ) where
  id : ProcessorId
  online : Bool
  core : Option (Domain w)
  simultaneousMultithreading : Observed Bool
  efficiencyClass : Observed ℕ
  parked : Observed Bool
  allocatedToThisProcess : Observed Bool
  memoryDomain : Observed (Domain w)

def kindName : DomainKind → String
  | .group => "group"
  | .package => "package"
  | .die => "die"
  | .module => "module"
  | .core _ _ => "core"
  | .cache _ _ _ _ _ => "cache"
  | .memory _ => "memory"
  | .other _ _ => "other"

def reportedKinds : List String := ["cache", "core", "module", "die", "package"]

namespace MachineMemoryTopology

variable (topology : MachineMemoryTopology w)

/-! ## Granularity -/

def insertAll (set : ProcessorSet w) (ids : List ProcessorId) : Except Panic (ProcessorSet w) :=
  ids.foldlM (fun set id => set.insert id.group id.number) set

def machineProcessors : Except Panic (ProcessorSet w) :=
  insertAll .empty (topology.processors.map Processor.id)

def minimalOf (covering : List (Domain w)) : List (Domain w) :=
  covering.filter fun candidate =>
    !covering.any fun other =>
      other.processors.isSubset candidate.processors && other.processors != candidate.processors

def minimalShared (of : ProcessorSet w) : Except Panic (List (Granularity w)) := do
  let machine ← topology.machineProcessors
  if !of.isSubset machine then return []
  else
    let covering := topology.domains.filter fun domain => of.isSubset domain.processors
    if covering.isEmpty then return [.machine]
    else return (minimalOf covering).map .relation

/-- `kinds_covering`: the reported kinds that have a domain but none holding the processor. -/
def kindsCovering (processor : ProcessorId) : List String :=
  reportedKinds.filter fun kind =>
    (topology.domains.any fun domain => kindName domain.kind == kind) &&
      !topology.domains.any fun domain => kindName domain.kind == kind &&
        domain.processors.contains processor.group processor.number

/-- `proximity`: an identifier the word cannot hold is set aside, not inserted. -/
def proximity (processors : List ProcessorId) : Except Panic (Proximity w) := do
  let representable := processors.filter fun id => ProcessorSet.canRepresent w id.number
  let set ← insertAll .empty representable
  let shared ← topology.minimalShared set
  return {
    shared
    finerUnobserved := representable.any fun id => !(topology.kindsCovering id).isEmpty
    unrepresentable := processors.filter fun id => !ProcessorSet.canRepresent w id.number }

def processorsOf : Granularity w → Except Panic (ProcessorSet w)
  | .relation domain => .ok domain.processors
  | .machine => topology.machineProcessors

def isFinerThan (finer coarser : Granularity w) : Except Panic Bool := do
  let finer ← topology.processorsOf finer
  let coarser ← topology.processorsOf coarser
  return finer.isSubset coarser && finer != coarser

/-! ## Caches that partition the machine -/

def levelOf (domain : Domain w) : Option ℕ :=
  match domain.kind with
  | .cache level _ _ _ _ => some level
  | _ => none

def cacheLevels : List ℕ :=
  ((topology.domains.filterMap levelOf).insertionSort (· ≤ ·)).dedup

/-- `cache_partitions_at_level`: the first cache of each set of processors that is not empty. -/
def cachePartitionsAtLevel (level : ℕ) : List (Domain w) :=
  (topology.domains.filter fun domain =>
      levelOf domain == some level && !domain.processors.isEmpty).foldl
    (fun partitions domain =>
      if partitions.any fun kept => kept.processors == domain.processors then partitions
      else partitions ++ [domain]) []

def sliceFrom {α : Type} (list : List α) (start : ℕ) : Except Panic (List α) :=
  if start ≤ list.length then .ok (list.drop start) else .error .slice

def disjointFrom (domains : List (Domain w)) : List (Domain w) → ℕ → Except Panic Bool
  | [], _ => .ok true
  | left :: rest, index => do
    let others ← sliceFrom domains (index + 1)
    if others.all fun right => left.processors.isDisjoint right.processors then
      disjointFrom domains rest (index + 1)
    else return false

def arePairwiseDisjoint (domains : List (Domain w)) : Except Panic Bool :=
  disjointFrom domains domains 0

def samePartition (left right : List (Domain w)) : Bool :=
  left.length == right.length &&
    left.all fun block => right.any fun other => other.processors == block.processors

def refines (finer coarser : List (Domain w)) : Bool :=
  (finer.all fun block => coarser.any fun outer => block.processors.isSubset outer.processors) &&
    !samePartition finer coarser

def partitioningCaches : List ℕ → Except Panic (List (ℕ × List (Domain w)))
  | [] => .ok []
  | level :: rest => do
    let blocks := topology.cachePartitionsAtLevel level
    let partitions ← if 1 < blocks.length then arePairwiseDisjoint blocks else pure false
    let candidates ← partitioningCaches rest
    return if partitions then (level, blocks) :: candidates else candidates

def outermostPartitioningCache : Except Panic (Option (ℕ × List (Domain w))) := do
  let candidates ← topology.partitioningCaches topology.cacheLevels
  let maximal := candidates.filter fun candidate =>
    !candidates.any fun other => refines candidate.2 other.2
  match maximal with
  | [] => return none
  | first :: _ =>
    if maximal.all fun other => samePartition first.2 other.2 then
      -- `max_by_key` keeps the last of equal keys
      return maximal.foldl (fun best candidate =>
        match best with
        | none => some candidate
        | some kept => if kept.1 ≤ candidate.1 then some candidate else best) none
    else return none

/-! ## Facts about each processor -/

def memoryDomainOf (id : ProcessorId) : Observed (Domain w) :=
  match topology.domains.find? fun domain =>
      domain.kind.isMemory && domain.processors.contains id.group id.number with
  | some domain => .known domain
  | none => .notObserved

def factsOf (processor : Processor) : ProcessorFacts w :=
  let id := processor.id
  let core := topology.domains.find? fun domain =>
    domain.kind.isCore && domain.processors.contains id.group id.number
  let cpuSet := (topology.cpuSets.getD []).find? fun set =>
    set.group == id.group && set.logicalProcessorIndex == id.number
  { id
    online := processor.online
    core
    simultaneousMultithreading := match core.map Domain.kind with
      | some (.core smt _) => .known smt
      | _ => .notObserved
    efficiencyClass := match core.map Domain.kind with
      | some (.core _ efficiencyClass) => .known efficiencyClass
      | _ => .notObserved
    parked := match cpuSet with
      | some set => .known set.parked
      | none => .notObserved
    allocatedToThisProcess := match cpuSet with
      | some set => .known set.allocatedToTargetProcess
      | none => .notObserved
    memoryDomain := topology.memoryDomainOf id }

def shardSet : List (ProcessorFacts w) :=
  topology.processors.map topology.factsOf

end MachineMemoryTopology

/-! ## Descriptions -/

/-- Why a description is refused: a message of the crate's own readers, or one of the errors the
derived readers raise. -/
inductive DescriptionError
  | custom (message : String)
  | missingField (name : String)
  | invalidType

abbrev Reading := Except DescriptionError

abbrev Fields := List (String × AttributeValue)

def take (fields : Fields) (key : String) : Reading (AttributeValue × Fields) :=
  match fields.find? (·.1 == key) with
  | some (_, value) => .ok (value, fields.filter (·.1 != key))
  | none => .error (.custom ("domain is missing required field \"" ++ key ++ "\""))

def asBool : AttributeValue → Reading Bool
  | .bool value => .ok value
  | _ => .error (.custom "expected a boolean")

def asU64 : AttributeValue → Reading ℕ
  | .unsignedInteger n => .ok n
  | .signedInteger n =>
    if 0 ≤ n then .ok n.toNat else .error (.custom "expected a non-negative whole number")
  | .float (.finite q) =>
    if q.den = 1 ∧ 0 ≤ q ∧ q < 2 ^ 64 then .ok q.num.toNat
    else .error (.custom "expected a non-negative whole number")
  | _ => .error (.custom "expected a non-negative whole number")

def asUnsigned (bits : ℕ) (value : AttributeValue) : Reading ℕ := do
  let n ← asU64 value
  if n < 2 ^ bits then return n else .error (.custom "number is too large for this field")

def asI64 : AttributeValue → Reading ℤ
  | .signedInteger n => .ok n
  | .unsignedInteger n => if n < 2 ^ 63 then .ok n else .error (.custom "expected a whole number")
  | .float (.finite q) =>
    if q.den = 1 ∧ -2 ^ 63 ≤ q ∧ q < 2 ^ 63 then .ok q.num else .error (.custom "expected a whole number")
  | _ => .error (.custom "expected a whole number")

def asI32 (value : AttributeValue) : Reading ℤ := do
  let n ← asI64 value
  if -2 ^ 31 ≤ n ∧ n < 2 ^ 31 then return n
  else .error (.custom "number is too large for this field")

def cacheKindFromValue : AttributeValue → Reading CacheKind
  | .string "unified" => .ok .unified
  | .string "instruction" => .ok .instruction
  | .string "data" => .ok .data
  | .string "trace" => .ok .trace
  | .string other => .error (.custom ("unrecognised cache_type \"" ++ other ++ "\""))
  | .object [("other", raw)] => do return .other (← asI32 raw)
  | .object [_] => .error (.custom "cache_type object must have an \"other\" key")
  | _ => .error (.custom "cache_type must be a string or \x7b\"other\": <number>\x7d")

def outOfRange (w number : ℕ) : String :=
  "processor number " ++ toString number ++ " is out of range: a processor group has at most " ++
    toString w ++ " processors on this platform"

def processorFromValue : AttributeValue → Reading (ℕ × ℕ)
  | .object fields => do
    let (group, fields) ← take fields "group"
    let group ← asUnsigned 16 group
    let (number, _) ← take fields "number"
    let number ← asUnsigned 8 number
    return (group, number)
  | _ => .error (.custom "each processor must be an object with \"group\" and \"number\"")

/-- The loop of `processors_from_value`: the width is checked before the set is asked. -/
def processorsFromItems (set : ProcessorSet w) : List AttributeValue → Except Panic (Reading (ProcessorSet w))
  | [] => .ok (.ok set)
  | item :: rest =>
    match processorFromValue item with
    | .error e => .ok (.error e)
    | .ok (group, number) =>
      if w ≤ number then .ok (.error (.custom (outOfRange w number)))
      else do
        let set ← set.insert group number
        processorsFromItems set rest

def processorsFromValue : AttributeValue → Except Panic (Reading (ProcessorSet w))
  | .array items => processorsFromItems .empty items
  | _ => .ok (.error (.custom "domain \"processors\" must be an array"))

/-- The kind of a domain, from its name and the fields left after `kind`, `id` and `processors`. -/
def kindFromFields (name : String) (fields : Fields) : Reading DomainKind :=
  match name with
  | "group" => .ok .group
  | "package" => .ok .package
  | "die" => .ok .die
  | "module" => .ok .module
  | "core" => do
    let (smt, fields) ← take fields "simultaneous_multithreading"
    let smt ← asBool smt
    let (efficiencyClass, _) ← take fields "efficiency_class"
    return .core smt (← asUnsigned 8 efficiencyClass)
  | "cache" => do
    let (level, fields) ← take fields "level"
    let level ← asUnsigned 8 level
    let (associativity, fields) ← take fields "associativity"
    let associativity ← asUnsigned 8 associativity
    let (lineSize, fields) ← take fields "line_size"
    let lineSize ← asUnsigned 16 lineSize
    let (sizeBytes, fields) ← take fields "size_bytes"
    let sizeBytes ← asUnsigned 32 sizeBytes
    let (cacheType, _) ← take fields "cache_type"
    return .cache level associativity lineSize sizeBytes (← cacheKindFromValue cacheType)
  | "memory" =>
    match fields.find? (·.1 == "memory_bytes") with
    | none => .ok (.memory .notObserved)
    | some (_, .null) => .ok (.memory .absent)
    | some (_, value) => do return .memory (.known (← asU64 value))
  | other => .ok (.other other fields)

def domainFromValue : AttributeValue → Except Panic (Reading (Domain w))
  | .object fields =>
    match take fields "kind" with
    | .error e => .ok (.error e)
    | .ok (.string name, fields) =>
      match take (fields.filter (·.1 != "id")) "processors" with
      | .error e => .ok (.error e)
      | .ok (value, fields) => do
        match ← processorsFromValue value with
        | .error e => return .error e
        | .ok processors =>
          return (kindFromFields name fields).map fun kind => ⟨kind, processors, []⟩
    | .ok _ => .ok (.error (.custom "domain \"kind\" must be a string"))
  | _ => .ok (.error .invalidType)

def domainsFromItems : List AttributeValue → Except Panic (Reading (List (Domain w)))
  | [] => .ok (.ok [])
  | item :: rest => do
    match ← domainFromValue item with
    | .error e => return .error e
    | .ok domain =>
      match ← domainsFromItems rest with
      | .error e => return .error e
      | .ok domains => return .ok (domain :: domains)

def field (fields : Fields) (name : String) : Reading AttributeValue :=
  match fields.find? (·.1 == name) with
  | some (_, value) => .ok value
  | none => .error (.missingField name)

/-- A derived reader of an unsigned integer: numbers in range, of either sign's encoding. -/
def derivedUnsigned (bits : ℕ) : AttributeValue → Reading ℕ
  | .unsignedInteger n => if n < 2 ^ bits then .ok n else .error .invalidType
  | .signedInteger n => if 0 ≤ n ∧ n < 2 ^ bits then .ok n.toNat else .error .invalidType
  | _ => .error .invalidType

def derivedBool : AttributeValue → Reading Bool
  | .bool value => .ok value
  | _ => .error .invalidType

def processorFromDescription : AttributeValue → Reading Processor
  | .object fields => do
    match ← field fields "id" with
    | .object id =>
      let group ← derivedUnsigned 16 (← field id "group")
      let number ← derivedUnsigned 8 (← field id "number")
      let online ← derivedBool (← field fields "online")
      let capacity ← derivedUnsigned 32 (← field fields "capacity")
      return ⟨⟨group, number⟩, online, capacity⟩
    | _ => .error .invalidType
  | _ => .error .invalidType

def cpuSetFromDescription : AttributeValue → Reading CpuSet
  | .object fields => do
    let id ← derivedUnsigned 32 (← field fields "id")
    let group ← derivedUnsigned 16 (← field fields "group")
    let logicalProcessorIndex ← derivedUnsigned 8 (← field fields "logical_processor_index")
    let coreIndex ← derivedUnsigned 8 (← field fields "core_index")
    let lastLevelCacheIndex ← derivedUnsigned 8 (← field fields "last_level_cache_index")
    let numaNodeIndex ← derivedUnsigned 8 (← field fields "numa_node_index")
    let efficiencyClass ← derivedUnsigned 8 (← field fields "efficiency_class")
    let parked ← derivedBool (← field fields "parked")
    let allocated ← derivedBool (← field fields "allocated")
    let allocatedToTargetProcess ← derivedBool (← field fields "allocated_to_target_process")
    let realTime ← derivedBool (← field fields "real_time")
    let schedulingClass ← derivedUnsigned 8 (← field fields "scheduling_class")
    let allocationTag ← derivedUnsigned 64 (← field fields "allocation_tag")
    return ⟨id, group, logicalProcessorIndex, coreIndex, lastLevelCacheIndex, numaNodeIndex,
      efficiencyClass, parked, allocated, allocatedToTargetProcess, realTime, schedulingClass,
      allocationTag⟩
  | _ => .error .invalidType

def listFromValue {α : Type} (element : AttributeValue → Reading α) : AttributeValue → Reading (List α)
  | .array items => items.mapM element
  | _ => .error .invalidType

def cpuSetsFromFields (fields : Fields) : Reading (Option (List CpuSet)) :=
  match fields.find? (·.1 == "cpu_sets") with
  | none => .ok none
  | some (_, .null) => .ok none
  | some (_, value) => (listFromValue cpuSetFromDescription value).map some

/-- The field `provenance`: what a description claims is lowered to `restored` at the most. -/
def provenanceFromFields (fields : Fields) : Reading Provenance :=
  match fields.find? (·.1 == "provenance") with
  | none => .ok .synthetic
  | some (_, .string "synthetic") => .ok .synthetic
  | some (_, .string "restored") => .ok .restored
  | some (_, .string "measured") => .ok .restored
  | some _ => .error .invalidType

/-- The derived `Deserialize` of `MachineMemoryTopology`: the attributes, the anomalies and the
coherence are not read. -/
def deserialize : AttributeValue → Except Panic (Reading (MachineMemoryTopology w))
  | .object fields =>
    match field fields "domains" with
    | .error e => .ok (.error e)
    | .ok (.array items) => do
      match ← domainsFromItems items with
      | .error e => return .error e
      | .ok domains =>
        return do
          let processors ← listFromValue processorFromDescription (← field fields "processors")
          let cpuSets ← cpuSetsFromFields fields
          let provenance ← provenanceFromFields fields
          return ⟨processors, domains, cpuSets, [], provenance, [], .notCollected⟩
    | .ok _ => .ok (.error .invalidType)
  | _ => .ok (.error .invalidType)

end WindowsThreadpoolSys.Topology
