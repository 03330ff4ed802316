import WindowsThreadpoolSys.Topology.Records
import WindowsThreadpoolSys.Library.Fallible

/-! `MachineMemoryTopology::discover` asks Windows twice over: the relationship walk for cores, caches,
packages, nodes and groups, and the CPU sets for the same processors under other labels. The walk's
relations become domains (`fromRelations`), its groups the list of processors, and the CPU sets are
then folded in: a core or node of the same processors gains an observation, any other becomes a domain
of its own. -/
namespace WindowsThreadpoolSys.Topology
open Library

/-! ## The vocabulary -/

inductive CacheKind
  | unified
  | instruction
  | data
  | trace
  | other (raw : ℤ)
deriving DecidableEq

def cacheKindFromRaw : ℤ → CacheKind
  | 0 => .unified
  | 1 => .instruction
  | 2 => .data
  | 3 => .trace
  | other => .other other

inductive Observed (α : Type)
  | known (value : α)
  | absent
  | notObserved

/-- An `f64` as far as the readers of a description look at it. -/
inductive Float64
  | finite (value : ℚ)
  | infinite (negative : Bool)
  | nan

/-- `AttributeValue`. An object is the list of its entries. -/
inductive AttributeValue
  | null
  | bool (value : Bool)
  | unsignedInteger (value : ℕ)
  | signedInteger (value : ℤ)
  | float (value : Float64)
  | string (value : String)
  | array (items : List AttributeValue)
  | object (fields : List (String × AttributeValue))

inductive DomainKind
  | group
  | package
  | die
  | module
  | core (simultaneousMultithreading : Bool) (efficiencyClass : ℕ)
  | cache (level associativity lineSize sizeBytes : ℕ) (cacheType : CacheKind)
  | memory (memoryBytes : Observed ℕ)
  | other (name : String) (attributes : List (String × AttributeValue))

def DomainKind.isCore : DomainKind → Bool
  | .core _ _ => true
  | _ => false

def DomainKind.isMemory : DomainKind → Bool
  | .memory _ => true
  | _ => false

structure Observation where
  source : Source
  label : ℕ
deriving DecidableEq

structure Domain (w : ℕ) where
  kind : DomainKind
  processors : ProcessorSet w
  observations : List Observation

structure ProcessorId where
  group : ℕ
  number : ℕ
deriving DecidableEq

structure Processor where
  id : ProcessorId
  online : Bool
  capacity : ℕ
deriving DecidableEq

structure AttributeObservation where
  processor : ProcessorId
  value : ℕ
  source : Source
deriving DecidableEq

inductive Provenance
  | synthetic
  | restored
  | measured
deriving DecidableEq

inductive Coherence
  | notCollected
  | agreed
  | disagreed (walkOnly cpuSetsOnly : List ProcessorId) (attempts : ℕ)
deriving DecidableEq

structure MachineMemoryTopology (w : ℕ) where
  processors : List Processor
  domains : List (Domain w)
  cpuSets : Option (List CpuSet)
  processorAttributes : List AttributeObservation
  provenance : Provenance
  enumerationAnomalies : List EnumerationAnomaly
  coherence : Coherence

/-! ## Relations -/

structure CoreRelation (w : ℕ) where
  simultaneousMultithreading : Bool
  efficiencyClass : ℕ
  processors : ProcessorSet w

structure CacheRelation (w : ℕ) where
  level : ℕ
  associativity : ℕ
  lineSize : ℕ
  cacheSize : ℕ
  cacheType : CacheKind
  processors : ProcessorSet w

structure NumaNodeRelation (w : ℕ) where
  nodeNumber : ℕ
  processors : ProcessorSet w

structure GroupRelation (w : ℕ) where
  group : ℕ
  maximumProcessorCount : ℕ
  activeProcessorCount : ℕ
  activeProcessors : ProcessorSet w

structure Relations (w : ℕ) where
  cores : List (CoreRelation w)
  packages : List (ProcessorSet w)
  dies : List (ProcessorSet w)
  modules : List (ProcessorSet w)
  caches : List (CacheRelation w)
  numaNodes : List (NumaNodeRelation w)
  groups : List (GroupRelation w)
  anomalies : List EnumerationAnomaly

section Build

variable {w : ℕ}

def toProcessorSet (masks : List (GroupAffinity w)) : ProcessorSet w :=
  masks.foldl (fun set m => set.union (.fromGroupMask m.group m.mask)) .empty

def coreFrom (body : ProcessorBody w) : CoreRelation w where
  simultaneousMultithreading := body.flags.testBit 0
  efficiencyClass := body.efficiencyClass
  processors := toProcessorSet body.groupMasks

def cacheFrom (body : CacheBody w) : CacheRelation w where
  level := body.level
  associativity := body.associativity
  lineSize := body.lineSize
  cacheSize := body.cacheSize
  cacheType := cacheKindFromRaw body.cacheType
  processors := toProcessorSet body.groupMasks

def numaFrom (body : NumaNodeBody w) : NumaNodeRelation w where
  nodeNumber := body.nodeNumber
  processors := toProcessorSet body.groupMasks

/-- `groups_from`: a group's number is its place in the record, as a `u16`. -/
def groupsFrom (groupInfo : List (GroupInfo w)) : List (GroupRelation w) :=
  groupInfo.zipIdx.map fun (info, index) =>
    { group := index % 2 ^ 16
      maximumProcessorCount := info.maximumProcessorCount
      activeProcessorCount := info.activeProcessorCount
      activeProcessors := .fromGroupMask (index % 2 ^ 16) info.activeProcessorMask }

def Relations.push (relations : Relations w) : WalkRecord w → Relations w
  | .processorCore body => { relations with cores := relations.cores ++ [coreFrom body] }
  | .processorPackage body =>
    { relations with packages := relations.packages ++ [toProcessorSet body.groupMasks] }
  | .processorDie body =>
    { relations with dies := relations.dies ++ [toProcessorSet body.groupMasks] }
  | .processorModule body =>
    { relations with modules := relations.modules ++ [toProcessorSet body.groupMasks] }
  | .cache body => { relations with caches := relations.caches ++ [cacheFrom body] }
  | .numaNode body => { relations with numaNodes := relations.numaNodes ++ [numaFrom body] }
  | .group groupInfo => { relations with groups := relations.groups ++ groupsFrom groupInfo }
  | .unknown _ => relations

def discoverRelations (w : ℕ) (buffer : Bytes) : Except Panic (Relations w) := do
  let (records, anomalies) ← decodeWalk w buffer
  let relations := records.foldl Relations.push ⟨[], [], [], [], [], [], [], []⟩
  return { relations with anomalies }

/-! ## From relations to domains -/

def numbered {α : Type} (domain : α → DomainKind × ProcessorSet w) (items : List α) :
    List (Domain w) :=
  items.zipIdx.map fun (item, index) =>
    { kind := (domain item).1
      processors := (domain item).2
      observations := [⟨.relationshipWalk, index⟩] }

def Relations.domains (relations : Relations w) : List (Domain w) :=
  (relations.groups.map fun group =>
    { kind := .group
      processors := group.activeProcessors
      observations := [⟨.relationshipWalk, group.group⟩] }) ++
  numbered (fun processors => (.package, processors)) relations.packages ++
  numbered (fun processors => (.die, processors)) relations.dies ++
  numbered (fun processors => (.module, processors)) relations.modules ++
  numbered (fun core => (.core core.simultaneousMultithreading core.efficiencyClass, core.processors))
    relations.cores ++
  numbered (fun cache => (.cache cache.level cache.associativity cache.lineSize cache.cacheSize
    cache.cacheType, cache.processors)) relations.caches ++
  relations.numaNodes.map fun node =>
    { kind := .memory .notObserved
      processors := node.processors
      observations := [⟨.relationshipWalk, node.nodeNumber⟩] }

def classOf (id : ProcessorId) (domain : Domain w) : Option ℕ :=
  match domain.kind with
  | .core _ efficiencyClass =>
    if domain.processors.contains id.group id.number then some efficiencyClass else none
  | _ => none

/-- `processors_from`: one processor for each position below a group's maximum count. -/
def processorsFrom (relations : Relations w) (domains : List (Domain w)) : List Processor :=
  relations.groups.flatMap fun group =>
    (List.range group.maximumProcessorCount).map fun number =>
      let id := ⟨group.group, number⟩
      let online := group.activeProcessors.contains group.group number
      { id, online, capacity := bif online then (domains.findSome? (classOf id)).getD 0 else 0 }

def fromRelations (relations : Relations w) : MachineMemoryTopology w where
  processors := processorsFrom relations relations.domains
  domains := relations.domains
  cpuSets := none
  processorAttributes := []
  provenance := .synthetic
  enumerationAnomalies := relations.anomalies
  coherence := .notCollected

/-! ## Folding the CPU sets in -/

def groupedBy (cpuSets : List CpuSet) (key : CpuSet → ℕ) : Table ℕ (List CpuSet) :=
  cpuSets.foldl (fun grouped set =>
    grouped.insert (key set) ((grouped.get (key set)).getD [] ++ [set])) Table.empty

def changeFirst (fits : Domain w → Bool) (change : Domain w → Domain w) :
    List (Domain w) → Option (List (Domain w))
  | [] => none
  | domain :: rest =>
    if fits domain then some (change domain :: rest)
    else (changeFirst fits change rest).map (domain :: ·)

def membersOf (members : List CpuSet) : Except Panic (ProcessorSet w) :=
  members.foldlM (fun processors set => processors.insert set.group set.logicalProcessorIndex) .empty

def foldMembership (isKind : DomainKind → Bool) (makeKind : List CpuSet → DomainKind)
    (labelOf : List CpuSet → ℕ) (domains : List (Domain w)) (members : List CpuSet) :
    Except Panic (List (Domain w)) := do
  let processors ← membersOf members
  let observation : Observation := ⟨.cpuSets, labelOf members⟩
  match changeFirst (fun domain => isKind domain.kind && domain.processors == processors)
      (fun domain => { domain with observations := domain.observations ++ [observation] }) domains with
  | some domains => return domains
  | none => return domains ++ [⟨makeKind members, processors, [observation]⟩]

def foldMemberships (grouped : Table ℕ (List CpuSet)) (isKind : DomainKind → Bool)
    (makeKind : List CpuSet → DomainKind) (labelOf : List CpuSet → ℕ) (domains : List (Domain w)) :
    Except Panic (List (Domain w)) :=
  grouped.vals.foldlM (foldMembership isKind makeKind labelOf) domains

/-- The cores of `fold_in_cpu_sets`. A core's index is relative to its group, so the key carries
both. -/
def foldCores (cpuSets : List CpuSet) (domains : List (Domain w)) :
    Except Panic (List (Domain w)) :=
  foldMemberships (groupedBy cpuSets fun set => set.group <<< 8 ||| set.coreIndex) DomainKind.isCore
    (fun members => .core (decide (1 < members.length))
      ((members.map CpuSet.efficiencyClass).foldl max 0))
    (fun members => (members.head?.map CpuSet.coreIndex).getD 0) domains

def foldNodes (cpuSets : List CpuSet) (domains : List (Domain w)) :
    Except Panic (List (Domain w)) :=
  foldMemberships (groupedBy cpuSets fun set => set.numaNodeIndex) DomainKind.isMemory
    (fun _ => .memory .notObserved)
    (fun members => (members.head?.map CpuSet.numaNodeIndex).getD 0) domains

namespace MachineMemoryTopology

def foldInCpuSets (topology : MachineMemoryTopology w) (cpuSets : List CpuSet) :
    Except Panic (MachineMemoryTopology w) := do
  let domains ← foldCores cpuSets topology.domains
  let domains ← foldNodes cpuSets domains
  return { topology with
    domains
    processorAttributes := topology.processorAttributes ++ cpuSets.map fun set =>
      ⟨⟨set.group, set.logicalProcessorIndex⟩, set.efficiencyClass, .cpuSets⟩ }

def recordWalkAttributes (topology : MachineMemoryTopology w) : MachineMemoryTopology w :=
  { topology with
    processorAttributes := topology.processorAttributes ++
      (topology.domains.filter fun domain =>
        domain.observations.any fun observation => observation.source = .relationshipWalk).flatMap
      fun domain =>
        match domain.kind with
        | .core _ efficiencyClass => domain.processors.toList.map fun (group, number) =>
          ⟨⟨group, number⟩, efficiencyClass, .relationshipWalk⟩
        | _ => [] }

def inOrder (ids : List ProcessorId) : List ProcessorId :=
  ids.dedup.insertionSort fun a b => a.group < b.group ∨ a.group = b.group ∧ a.number ≤ b.number

def processorDivergence (topology : MachineMemoryTopology w) (cpuSets : List CpuSet) :
    List ProcessorId × List ProcessorId :=
  let walk := (topology.processors.filter Processor.online).map Processor.id
  let sets : List ProcessorId := cpuSets.map fun set => ⟨set.group, set.logicalProcessorIndex⟩
  (inOrder (walk.filter (· ∉ sets)), inOrder (sets.filter (· ∉ walk)))

def finish (topology : MachineMemoryTopology w) (cpuSets : List CpuSet) (coherence : Coherence) :
    Except Panic (MachineMemoryTopology w) := do
  let topology ← topology.foldInCpuSets cpuSets
  return { topology with cpuSets := some cpuSets, coherence, provenance := .measured }

end MachineMemoryTopology

structure Answers where
  walk : Except ℕ Bytes
  cpuSets : Except ℕ Bytes

def collectOnce (w : ℕ) (answers : Answers) :
    Except Panic (Except ℕ (MachineMemoryTopology w × List CpuSet)) :=
  match answers.walk with
  | .error code => .ok (.error code)
  | .ok walk => do
    let relations ← discoverRelations w walk
    let topology := (fromRelations relations).recordWalkAttributes
    match answers.cpuSets with
    | .error code => return .error code
    | .ok buffer =>
      let (cpuSets, anomaly) ← decodeCpuSets w buffer
      return .ok ({ topology with
        enumerationAnomalies := topology.enumerationAnomalies ++ anomaly.toList }, cpuSets)

/-- The loop of `discover`: the attempts left, the number of the next one, and what the last one
collected when it disagreed. -/
def discoverFrom (answers : ℕ → Answers) : ℕ → ℕ →
    Option (MachineMemoryTopology w × List CpuSet × List ProcessorId × List ProcessorId × ℕ) →
    Except Panic (Except ℕ (MachineMemoryTopology w))
  | 0, _, none => .error .expect
  | 0, _, some (topology, cpuSets, walkOnly, cpuSetsOnly, attempts) => do
    let topology ← topology.finish cpuSets (.disagreed walkOnly cpuSetsOnly attempts)
    return .ok topology
  | left + 1, attempt, _ => do
    match ← collectOnce w (answers attempt) with
    | .error code => return .error code
    | .ok (topology, cpuSets) =>
      let (walkOnly, cpuSetsOnly) := topology.processorDivergence cpuSets
      if walkOnly.isEmpty && cpuSetsOnly.isEmpty then do
        let topology ← topology.finish cpuSets .agreed
        return .ok topology
      else
        let last := (topology, cpuSets, walkOnly, cpuSetsOnly, attempt)
        discoverFrom answers left (attempt + 1) (some last)

def discover (w : ℕ) (answers : ℕ → Answers) : Except Panic (Except ℕ (MachineMemoryTopology w)) :=
  discoverFrom answers 3 1 none

end Build

end WindowsThreadpoolSys.Topology
