import WindowsThreadpoolSys.Topology.Queries

/-! Only `ProcessorSet::insert` can panic over what an enumeration or a description said, and only for a
processor number the word has no bit for. Reading a buffer never panics, and a domain's processors are
checked as they are read; but the index of a CPU set, the maximum count of a group and the number of a
described processor go unchecked to `insert`. -/
namespace WindowsThreadpoolSys.Topology
open Library List MachineMemoryTopology

variable {w : ℕ}

/-! ## Building -/

theorem insert_iff (set : ProcessorSet w) (group number : ℕ) :
    (∃ set',set.insert group number=.ok set') ↔ number < w := by
  refine ⟨?_,set.insert_ok group⟩
  rintro ⟨set',h⟩
  by_contra hge
  rw [ProcessorSet.insert,dif_neg hge] at h
  cases h

theorem insertAll_iff {set : ProcessorSet w} {ids : List ProcessorId} :
    (∃ result,insertAll set ids=.ok result) ↔ ∀ id ∈ ids,id.number < w :=
  foldlM_ok_iff fun set id=>insert_iff set id.group id.number

theorem insertAll_map (set : ProcessorSet w) (members : List CpuSet) :
    members.foldlM (fun processors cpu => processors.insert cpu.group cpu.logicalProcessorIndex) set =
      insertAll set (members.map fun cpu => ⟨cpu.group,cpu.logicalProcessorIndex⟩) := by
  unfold insertAll
  rw [foldlM_map]

variable {members cpuSets : List CpuSet} {key : CpuSet → ℕ}

theorem groupedBy_get (cpuSets : List CpuSet) (key : CpuSet → ℕ) (k : ℕ) :
    ((groupedBy cpuSets key).get k).getD []=cpuSets.filter fun set=>key set=k := by
  suffices hall : ∀ (left : List CpuSet) (grouped : Table ℕ (List CpuSet)),
      ((left.foldl (fun grouped set =>
        grouped.insert (key set) ((grouped.get (key set)).getD []++[set])) grouped).get k).getD [] =
          (grouped.get k).getD []++left.filter fun set=>key set=k by
    simpa [groupedBy] using hall cpuSets Table.empty
  intro left
  induction left with
  | nil=>simp
  | cons first rest ih =>
    intro grouped
    rw [foldl_cons,ih,Table.get_insert]
    by_cases hkey : k=key first
    · simp [← hkey]
    · simp [hkey,Ne.symm hkey]

theorem mem_groupedBy {set : CpuSet} :
    (∃ members ∈ (groupedBy cpuSets key).vals,set ∈ members) ↔ set ∈ cpuSets := by
  constructor
  · rintro ⟨members,hmembers,hset⟩
    obtain ⟨k,hk⟩:=Table.mem_vals.mp hmembers
    have hfilter:=groupedBy_get cpuSets key k
    rw [hk,Option.getD_some] at hfilter
    exact (mem_filter.mp (hfilter ▸ hset)).1
  · intro hset
    have hin : set ∈ cpuSets.filter fun other=>key other=key set:=mem_filter.mpr ⟨hset,by simp⟩
    rw [← groupedBy_get] at hin
    cases hk : (groupedBy cpuSets key).get (key set) with
    | none=>simp [hk] at hin
    | some members=>exact ⟨members,Table.mem_vals.mpr ⟨_,hk⟩,by simpa [hk] using hin⟩

variable {isKind : DomainKind → Bool} {makeKind : List CpuSet → DomainKind}
  {labelOf : List CpuSet → ℕ} {domains : List (Domain w)}

theorem foldMembership_iff :
    (∃ domains',foldMembership isKind makeKind labelOf domains members=.ok domains') ↔
      ∀ set ∈ members,set.logicalProcessorIndex < w := by
  have hmembers : (∃ processors : ProcessorSet w,membersOf members=.ok processors) ↔
      ∀ set ∈ members,set.logicalProcessorIndex < w :=
    foldlM_ok_iff fun set cpu=>insert_iff set cpu.group cpu.logicalProcessorIndex
  rw [← hmembers]
  simp only [foldMembership,bind_eq_ok]
  constructor
  · rintro ⟨_,processors,hprocessors,_⟩
    exact ⟨processors,hprocessors⟩
  · rintro ⟨processors,hprocessors⟩
    rw [exists_comm]
    refine ⟨processors,?_⟩
    simp only [hprocessors,true_and]
    split <;> exact ⟨_,rfl⟩

theorem foldMemberships_iff :
    (∃ domains',foldMemberships (groupedBy cpuSets key) isKind makeKind labelOf domains=.ok domains') ↔
      ∀ set ∈ cpuSets,set.logicalProcessorIndex < w := by
  unfold foldMemberships
  have hstep (domains : List (Domain w)) (members : List CpuSet) :
      (∃ domains',foldMembership isKind makeKind labelOf domains members=.ok domains') ↔
        ∀ set ∈ members,set.logicalProcessorIndex < w :=
    foldMembership_iff
  rw [foldlM_ok_iff hstep]
  constructor
  · intro h set hset
    obtain ⟨members,hmembers,hin⟩:=mem_groupedBy.mpr hset
    exact h members hmembers set hin
  · exact fun h members hmembers set hset=>h set (mem_groupedBy.mp ⟨members,hmembers,hset⟩)

theorem finish_iff {topology : MachineMemoryTopology w} {coherence : Coherence} :
    (∃ result,topology.finish cpuSets coherence=.ok result) ↔
      ∀ set ∈ cpuSets,set.logicalProcessorIndex < w := by
  simp only [finish,foldInCpuSets,bind_eq_ok]
  constructor
  · rintro ⟨_,_,⟨cores,hcores,_⟩,_⟩
    exact foldMemberships_iff.mp ⟨cores,hcores⟩
  · intro h
    obtain ⟨cores,hcores⟩ : ∃ cores,foldCores cpuSets topology.domains=.ok cores :=
      foldMemberships_iff.mpr h
    obtain ⟨nodes,hnodes⟩ : ∃ nodes,foldNodes cpuSets cores=.ok nodes:=foldMemberships_iff.mpr h
    exact ⟨_,_,⟨cores,hcores,nodes,hnodes,rfl⟩,rfl⟩

theorem finish_processors {topology result : MachineMemoryTopology w} {coherence : Coherence}
    (h : topology.finish cpuSets coherence=.ok result) : result.processors=topology.processors := by
  simp only [finish,foldInCpuSets,bind_eq_ok] at h
  obtain ⟨_,⟨_,_,_,_,hfolded⟩,hresult⟩:=h
  cases hfolded
  cases hresult
  rfl

/-! ## The pass that is kept -/

/-- The pass whose answers `discover` folds together: the first on which the two enumerations name the
same online processors, or else the last. A call that fails ends the search. -/
def keptFrom (w : ℕ) (answers : ℕ → Answers) : ℕ → ℕ → Option ℕ
  | 0, _ => none
  | left + 1, attempt =>
    match collectOnce w (answers attempt) with
    | .ok (.ok (topology, cpuSets)) =>
      if topology.processorDivergence cpuSets = ([], []) ∨ left = 0 then some attempt
      else keptFrom w answers left (attempt + 1)
    | _ => none

structure Collected (w : ℕ) (answers : Answers) (relations : Relations w) (cpuSets : List CpuSet) :
    Prop where
  walk : ∃ buffer, answers.walk = .ok buffer ∧ discoverRelations w buffer = .ok relations
  sets : ∃ buffer anomaly, answers.cpuSets = .ok buffer ∧
    decodeCpuSets w buffer = .ok (cpuSets, anomaly)

/-- What the enumerations said on the pass `discover` keeps. -/
def Keeps (w : ℕ) (answers : ℕ → Answers) (relations : Relations w) (cpuSets : List CpuSet) : Prop :=
  ∃ attempt, keptFrom w answers 3 1 = some attempt ∧ Collected w (answers attempt) relations cpuSets

theorem Keeps.unique {answers : ℕ → Answers} {relations relations' : Relations w}
    {cpuSets cpuSets' : List CpuSet} (h : Keeps w answers relations cpuSets)
    (h' : Keeps w answers relations' cpuSets') : relations'=relations ∧ cpuSets'=cpuSets := by
  obtain ⟨attempt,hkept,⟨walk,hwalk,hrelations⟩,sets,anomaly,hsets,hdecode⟩:=h
  obtain ⟨attempt',hkept',⟨walk',hwalk',hrelations'⟩,sets',anomaly',hsets',hdecode'⟩:=h'
  obtain rfl : attempt'=attempt:=Option.some.inj (hkept'.symm.trans hkept)
  obtain rfl : walk'=walk:=Except.ok.inj (hwalk'.symm.trans hwalk)
  obtain rfl : sets'=sets:=Except.ok.inj (hsets'.symm.trans hsets)
  have hpair:=Except.ok.inj (hdecode'.symm.trans hdecode)
  exact ⟨Except.ok.inj (hrelations'.symm.trans hrelations),congrArg Prod.fst hpair⟩

structure Builds (relations : Relations w) (topology : MachineMemoryTopology w) : Prop where
  domains : topology.domains = relations.domains
  processors : topology.processors = processorsFrom relations relations.domains

theorem collectOnce_cases (hw : 3 < w) (answers : Answers) :
    (∃ code,collectOnce w answers=.ok (.error code)) ∨
    ∃ relations cpuSets topology,Collected w answers relations cpuSets ∧ Builds relations topology ∧
      collectOnce w answers=.ok (.ok (topology,cpuSets)) := by
  unfold collectOnce
  cases hwalk : answers.walk with
  | error code=>exact .inl ⟨code,rfl⟩
  | ok buffer =>
    obtain ⟨⟨records,anomalies⟩,hrecords⟩:=(decode_ok hw buffer []).1
    obtain ⟨relations,hrelations⟩ : ∃ relations,discoverRelations w buffer=.ok relations:=by
      unfold discoverRelations
      rw [hrecords]
      exact ⟨_,rfl⟩
    simp only [hrelations,bind,Except.bind,pure,Except.pure]
    cases hsets : answers.cpuSets with
    | error code=>exact .inl ⟨code,rfl⟩
    | ok sets =>
      obtain ⟨⟨cpuSets,anomaly⟩,hdecode⟩:=(decode_ok hw [] sets).2
      simp only [hdecode]
      exact .inr ⟨relations,cpuSets,_,⟨⟨buffer,hwalk,hrelations⟩,sets,anomaly,hsets,hdecode⟩,
        ⟨rfl,rfl⟩,rfl⟩

theorem discoverFrom_cases (hw : 3 < w) (answers : ℕ → Answers) (left attempt : ℕ)
    (last : Option (MachineMemoryTopology w × List CpuSet × List ProcessorId × List ProcessorId × ℕ)) :
    (keptFrom w answers (left+1) attempt=none ∧
      ∃ code,discoverFrom answers (left+1) attempt last=.ok (.error code)) ∨
    ∃ pass relations cpuSets topology coherence,keptFrom w answers (left+1) attempt=some pass ∧
      Collected w (answers pass) relations cpuSets ∧ Builds relations topology ∧
      discoverFrom answers (left+1) attempt last =
        (topology.finish cpuSets coherence >>= fun finished => .ok (.ok finished)) := by
  induction left generalizing attempt last with
  | zero | succ left ih =>
    unfold keptFrom discoverFrom
    obtain ⟨code,hfailed⟩ | ⟨relations,cpuSets,topology,hread,hbuilds,hcollect⟩ :=
      collectOnce_cases hw (answers attempt)
    · rw [hfailed]
      exact .inl ⟨rfl,code,rfl⟩
    · rw [hcollect]
      by_cases hagree : topology.processorDivergence cpuSets=([],[])
      · refine .inr ⟨attempt,relations,cpuSets,topology,.agreed,?_,hread,hbuilds,?_⟩
        · simp [hagree]
        · simp only [hagree,bind,Except.bind]
          rfl
      · have hnot : ((topology.processorDivergence cpuSets).1.isEmpty &&
            (topology.processorDivergence cpuSets).2.isEmpty)=false:=by
          refine Bool.eq_false_iff.mpr fun hboth=>hagree ?_
          simp only [Bool.and_eq_true,List.isEmpty_iff] at hboth
          exact Prod.ext hboth.1 hboth.2
        simp only [hagree,hnot,bind,Except.bind,Bool.false_eq_true,if_false,false_or,if_true,
          Nat.add_eq_zero_iff,one_ne_zero,and_false]
        first
          | exact .inr ⟨attempt,relations,cpuSets,topology,_,rfl,hread,hbuilds,rfl⟩
          | exact ih (attempt+1) _

theorem discover_cases (hw : 3 < w) (answers : ℕ → Answers) :
    ((∀ relations cpuSets,¬Keeps w answers relations cpuSets) ∧
      ∃ code,discover w answers=.ok (.error code)) ∨
    ∃ relations cpuSets topology coherence,Keeps w answers relations cpuSets ∧
      Builds relations topology ∧
      discover w answers=(topology.finish cpuSets coherence >>= fun finished => .ok (.ok finished)) := by
  obtain ⟨hnone,herror⟩ | ⟨pass,relations,cpuSets,topology,coherence,hpass,hread,hrest⟩ :=
    discoverFrom_cases hw answers 2 1 none
  · refine .inl ⟨?_,herror⟩
    rintro relations cpuSets ⟨attempt,hattempt,_⟩
    rw [hnone] at hattempt
    cases hattempt
  · exact .inr ⟨relations,cpuSets,topology,coherence,⟨pass,hpass,hread⟩,hrest⟩

/-- Every processor number a pass brings to `insert` has a bit in the word. -/
structure Representable (relations : Relations w) (cpuSets : List CpuSet) : Prop where
  groups : ∀ group ∈ relations.groups, group.maximumProcessorCount ≤ w
  cpuSets : ∀ set ∈ cpuSets, set.logicalProcessorIndex < w

theorem processorsFrom_lt_iff {relations : Relations w} :
    (∀ processor ∈ processorsFrom relations domains,processor.id.number < w) ↔
      ∀ group ∈ relations.groups,group.maximumProcessorCount ≤ w := by
  constructor
  · intro h group hgroup
    by_contra hlt
    refine absurd (h _ (mem_flatMap.mpr ⟨group,hgroup,mem_map.mpr
      ⟨w,mem_range.mpr (not_le.mp hlt),rfl⟩⟩)) (lt_irrefl w)
  · intro h processor hmem
    obtain ⟨group,hgroup,hnumber⟩:=mem_flatMap.mp hmem
    obtain ⟨number,hrange,rfl⟩:=mem_map.mp hnumber
    exact (mem_range.mp hrange).trans_le (h group hgroup)

/-! ## Asking -/

structure Returns (topology : MachineMemoryTopology w) : Prop where
  machineProcessors : ∃ machine, topology.machineProcessors = .ok machine
  minimalShared : ∀ of, ∃ shared, topology.minimalShared of = .ok shared
  proximity : ∀ ids, ∃ proximity, topology.proximity ids = .ok proximity
  isFinerThan : ∀ finer coarser, ∃ answer, topology.isFinerThan finer coarser = .ok answer
  outermostPartitioningCache : ∃ cache, topology.outermostPartitioningCache = .ok cache
  shardSet : topology.shardSet.map ProcessorFacts.id = topology.processors.map Processor.id

theorem disjointFrom_eq {domains rest : List (Domain w)} {index : ℕ}
    (h : domains.drop index=rest) : MachineMemoryTopology.disjointFrom domains rest index =
      .ok (decide (rest.Pairwise fun left right =>
        left.processors.isDisjoint right.processors=true)) := by
  induction rest generalizing index with
  | nil=>rfl
  | cons left rest ih =>
    have hlen:=congrArg List.length h
    rw [length_drop,length_cons] at hlen
    have hrest : domains.drop (index+1)=rest:=by rw [← tail_drop,h,tail_cons]
    have hslice : sliceFrom domains (index+1)=.ok rest:=by
      unfold sliceFrom
      rw [if_pos (by omega),hrest]
    unfold disjointFrom
    simp only [hslice,bind,Except.bind,all_eq_true,ih hrest,pairwise_cons]
    by_cases hall : ∀ right ∈ rest,left.processors.isDisjoint right.processors=true
    · rw [if_pos hall]
      simpa using fun _=>hall
    · rw [if_neg hall]
      simp [hall,pure,Except.pure]

theorem partitioningCaches_eq (topology : MachineMemoryTopology w) (levels : List ℕ) :
    topology.partitioningCaches levels =
      .ok ((levels.map fun level => (level,topology.cachePartitionsAtLevel level)).filter
        fun candidate => decide (1 < candidate.2.length ∧ candidate.2.Pairwise fun left right =>
          left.processors.isDisjoint right.processors=true)) := by
  induction levels with
  | nil=>rfl
  | cons level rest ih =>
    have hdisjoint:=disjointFrom_eq (drop_zero (l:=topology.cachePartitionsAtLevel level))
    unfold partitioningCaches arePairwiseDisjoint
    simp only [ih,hdisjoint,bind,Except.bind,pure,Except.pure,map_cons,filter_cons]
    by_cases hlt : 1<(topology.cachePartitionsAtLevel level).length <;> simp [hlt]

theorem returns_iff {topology : MachineMemoryTopology w} :
    Returns topology ↔ ∀ processor ∈ topology.processors,processor.id.number < w := by
  have hlisted : (∃ machine,topology.machineProcessors=.ok machine) ↔
      ∀ processor ∈ topology.processors,processor.id.number < w :=
    insertAll_iff.trans forall_mem_map
  refine ⟨fun h=>hlisted.mp h.machineProcessors,fun h=>?_⟩
  have hmachine:=hlisted.mpr h
  have hshared : ∀ of,∃ shared,topology.minimalShared of=.ok shared:=by
    intro of
    obtain ⟨machine,hmachine⟩:=hmachine
    unfold minimalShared
    simp only [hmachine,bind,Except.bind,pure,Except.pure]
    split_ifs <;> exact ⟨_,rfl⟩
  have hprocessorsOf : ∀ granularity,∃ set,topology.processorsOf granularity=.ok set:=by
    intro granularity
    cases granularity with
    | relation domain=>exact ⟨_,rfl⟩
    | machine=>exact hmachine
  refine ⟨hmachine,hshared,fun ids=>?_,fun finer coarser=>?_,?_,?_⟩
  · have hfit : ∀ id ∈ ids.filter fun id=>ProcessorSet.canRepresent w id.number,
        id.number < w:=by
      intro id hid
      exact of_decide_eq_true (mem_filter.mp hid).2
    obtain ⟨set,hset⟩ : ∃ set : ProcessorSet w,insertAll .empty _=.ok set:=insertAll_iff.mpr hfit
    obtain ⟨shared,hanswer⟩:=hshared set
    unfold proximity
    simp only [hset,hanswer,bind,Except.bind]
    exact ⟨_,rfl⟩
  · obtain ⟨a,ha⟩:=hprocessorsOf finer
    obtain ⟨b,hb⟩:=hprocessorsOf coarser
    unfold isFinerThan
    simp only [ha,hb,bind,Except.bind]
    exact ⟨_,rfl⟩
  · unfold outermostPartitioningCache
    simp only [partitioningCaches_eq,bind,Except.bind,pure,Except.pure]
    split
    · exact ⟨_,rfl⟩
    · split_ifs <;> exact ⟨_,rfl⟩
  · unfold shardSet
    rw [map_map]
    rfl

/-! ## Reading a description -/

theorem processorsFromItems_ok (items : List AttributeValue) (set : ProcessorSet w) :
    ∃ result,processorsFromItems set items=.ok result := by
  induction items generalizing set with
  | nil=>exact ⟨_,rfl⟩
  | cons item rest ih =>
    unfold processorsFromItems
    split
    · exact ⟨_,rfl⟩
    · rename_i group number _
      split_ifs with hwidth
      · exact ⟨_,rfl⟩
      · obtain ⟨set',hset⟩:=set.insert_ok group (not_le.mp hwidth)
        simp only [hset,bind,Except.bind]
        exact ih set'

theorem domainFromValue_ok (value : AttributeValue) :
    ∃ result : Reading (Domain w),domainFromValue value=.ok result := by
  unfold domainFromValue
  split
  · split
    · exact ⟨_,rfl⟩
    · split
      · exact ⟨_,rfl⟩
      · rename_i processors _ _
        obtain ⟨result,hresult⟩ : ∃ result : Reading (ProcessorSet w),
            processorsFromValue processors=.ok result:=by
          unfold processorsFromValue
          split
          · exact processorsFromItems_ok _ _
          · exact ⟨_,rfl⟩
        simp only [hresult,bind,Except.bind]
        cases result <;> exact ⟨_,rfl⟩
    · exact ⟨_,rfl⟩
  · exact ⟨_,rfl⟩

theorem domainsFromItems_ok (items : List AttributeValue) :
    ∃ result : Reading (List (Domain w)),domainsFromItems items=.ok result := by
  induction items with
  | nil=>exact ⟨_,rfl⟩
  | cons item rest ih =>
    obtain ⟨first,hfirst⟩:=domainFromValue_ok (w:=w) item
    obtain ⟨others,hothers⟩:=ih
    unfold domainsFromItems
    simp only [hfirst,hothers,bind,Except.bind]
    cases first with
    | error e=>exact ⟨_,rfl⟩
    | ok domain=>cases others <;> exact ⟨_,rfl⟩

theorem deserialize_ok (value : AttributeValue) :
    ∃ result : Reading (MachineMemoryTopology w),deserialize value=.ok result := by
  unfold deserialize
  split
  · split
    · exact ⟨_,rfl⟩
    · rename_i items _
      obtain ⟨domains,hdomains⟩:=domainsFromItems_ok (w:=w) items
      simp only [hdomains,bind,Except.bind]
      cases domains <;> exact ⟨_,rfl⟩
    · exact ⟨_,rfl⟩
  · exact ⟨_,rfl⟩

/-- `discover` ends without a panic, in an error of the operating system or in a topology that answers
every query, exactly when the pass it keeps names only processors the word has a bit for. A description
is always refused or read, and answers every query exactly when its list of processors is so. -/
theorem content_returns (hw : 3 < w) :
    (∀ answers : ℕ → Answers,
      (∃ result, discover w answers = .ok result ∧
        ∀ topology, result = .ok topology → Returns topology) ↔
      ∀ relations cpuSets, Keeps w answers relations cpuSets → Representable relations cpuSets) ∧
    ∀ value, ∃ result : Reading (MachineMemoryTopology w), deserialize value = .ok result ∧
      ∀ topology, result = .ok topology →
        (Returns topology ↔ ∀ processor ∈ topology.processors, processor.id.number < w) := by
  constructor
  · intro answers
    obtain ⟨hnone,code,herror⟩ | ⟨relations,cpuSets,topology,coherence,hkeeps,hbuilds,hmade⟩ :=
      discover_cases hw answers
    · refine ⟨fun _ relations cpuSets hkeeps=>absurd hkeeps (hnone _ _),fun _=>?_⟩
      exact ⟨.error code,herror,fun _ hcontra=>by cases hcontra⟩
    constructor
    · rintro ⟨result,hresult,hreturns⟩ relations' cpuSets' hkeeps'
      obtain ⟨rfl,rfl⟩:=hkeeps.unique hkeeps'
      rw [hmade,bind_eq_ok] at hresult
      obtain ⟨finished,hfinish,hresult⟩:=hresult
      cases hresult
      have hlisted:=returns_iff.mp (hreturns finished rfl)
      rw [finish_processors hfinish,hbuilds.processors] at hlisted
      exact ⟨processorsFrom_lt_iff.mp hlisted,finish_iff.mp ⟨finished,hfinish⟩⟩
    · intro h
      have hfits:=h relations cpuSets hkeeps
      obtain ⟨finished,hfinish⟩ : ∃ finished,topology.finish cpuSets coherence=.ok finished :=
        finish_iff.mpr hfits.cpuSets
      refine ⟨.ok finished,by rw [hmade,hfinish]; rfl,fun _ hfinished=>?_⟩
      cases hfinished
      rw [returns_iff,finish_processors hfinish,hbuilds.processors]
      exact processorsFrom_lt_iff.mpr hfits.groups
  · intro value
    obtain ⟨result,hresult⟩:=deserialize_ok value
    exact ⟨result,hresult,fun topology _=>returns_iff⟩

def cpuSetRecord (group index : UInt8) : Bytes :=
  [32, 0, 0, 0, 0, 0, 0, 0, 0, 1, 0, 0, group, 0, index] ++ List.replicate 17 0

def groupRecord (count mask : UInt8) : Bytes :=
  [4, 0, 0, 0, 80, 0, 0, 0, 1, 0, 1, 0] ++ List.replicate 20 0 ++ [count, count] ++
    List.replicate 38 0 ++ mask :: List.replicate 7 0

def describedProcessor (number : ℕ) : AttributeValue :=
  .object [("domains", .array []), ("processors", .array [.object
    [("id", .object [("group", .unsignedInteger 0), ("number", .unsignedInteger number)]),
      ("online", .bool true), ("capacity", .unsignedInteger 0)]])]

def panicOf {α : Type} : Except Panic α → Option Panic
  | .error panic => some panic
  | .ok _ => none

def machinePanic {ε : Type} (made : Except Panic (Except ε (MachineMemoryTopology w))) :
    Option Panic :=
  match made with
  | .ok (.ok topology) => panicOf topology.machineProcessors
  | _ => none

theorem two_processors_read {relations : Relations 64}
    (h : discoverRelations 64 (groupRecord 2 3)=.ok relations) :
    (∀ domain ∈ relations.domains,domain.processors.isSubset (.fromGroupMask 0 3#64)=true) ∧
      ∃ info,relations.groups=[info] ∧ info.group=0 ∧ info.maximumProcessorCount=2 := by
  have hread : ((discoverRelations 64 (groupRecord 2 3)).toOption.any fun relations =>
      (relations.domains.all fun domain=>domain.processors.isSubset (.fromGroupMask 0 3#64)) &&
        relations.groups.map (fun info=>(info.group,info.maximumProcessorCount)) == [(0,2)])=true:=by
    decide +kernel
  rw [h] at hread
  simpa [Except.toOption,map_eq_singleton_iff] using hread

theorem two_sets_decoded {cpuSets : List CpuSet} {anomaly : Option EnumerationAnomaly}
    (h : decodeCpuSets 64 (cpuSetRecord 0 0++cpuSetRecord 0 1)=.ok (cpuSets,anomaly)) :
    ∀ set ∈ cpuSets,set.group=0 ∧ set.logicalProcessorIndex < 2 := by
  have hsets : ((decodeCpuSets 64 (cpuSetRecord 0 0++cpuSetRecord 0 1)).toOption.any
      fun decoded=>decoded.1.all fun set=>set.group=0 && set.logicalProcessorIndex<2)=true:=by
    decide +kernel
  rw [h] at hsets
  simpa [Except.toOption] using hsets

/-- The first pass names processor 64, which the walk does not know; the second agrees. -/
def settling (attempt : ℕ) : Answers :=
  if attempt = 1 then ⟨.ok (groupRecord 1 1), .ok (cpuSetRecord 0 64)⟩
  else ⟨.ok (groupRecord 2 3), .ok (cpuSetRecord 0 0 ++ cpuSetRecord 0 1)⟩

theorem content_returns_two_processors :
    (∃ topology, discover 64 settling = .ok (.ok topology) ∧ Returns topology) ∧
    ∃ topology : MachineMemoryTopology 64, deserialize (describedProcessor 63) = .ok (.ok topology) ∧
      Returns topology := by
  have hall:=content_returns (w:=64) (by decide)
  constructor
  · have hfit : ∀ relations cpuSets,Keeps 64 settling relations cpuSets →
        Representable relations cpuSets:=by
      rintro relations cpuSets ⟨attempt,hkept,⟨walk,hwalk,hrelations⟩,sets,anomaly,hsets,hdecode⟩
      have hsecond : keptFrom 64 settling 3 1=some 2:=by decide +kernel
      obtain rfl : attempt=2:=Option.some.inj (hkept.symm.trans hsecond)
      cases hwalk
      cases hsets
      obtain ⟨-,info,hgroups,-,hcount⟩:=two_processors_read hrelations
      refine ⟨fun group hgroup=>?_,fun set hset=>?_⟩
      · rw [hgroups,mem_singleton] at hgroup
        rw [hgroup,hcount]
        decide
      · exact (two_sets_decoded hdecode set hset).2.trans (by decide)
    obtain ⟨result,hresult,hreturns⟩:=(hall.1 settling).mpr hfit
    have hmade : ((discover 64 settling).toOption.any fun result=>result.toOption.isSome)=true:=by
      decide +kernel
    rw [hresult] at hmade
    cases result with
    | error code=>cases hmade
    | ok topology=>exact ⟨topology,hresult,hreturns topology rfl⟩
  · obtain ⟨result,hresult,hreturns⟩:=hall.2 (describedProcessor 63)
    have hmade : ((deserialize (w:=64) (describedProcessor 63)).toOption.any fun result =>
        result.toOption.any fun topology =>
          topology.processors.all fun processor=>processor.id.number<64)=true:=by
      decide +kernel
    rw [hresult] at hmade
    cases result with
    | error e=>cases hmade
    | ok topology =>
      exact ⟨topology,hresult,(hreturns topology rfl).mpr (by simpa [Except.toOption] using hmade)⟩

/-- Three doors let a number through that `insert` panics over: the index of a CPU set ends `discover`
itself, and a group's maximum count or a described processor ends the first query. -/
theorem content_panics :
    panicOf (discover 64 fun _ => ⟨.ok (groupRecord 1 1), .ok (cpuSetRecord 0 64)⟩) =
        some (.processorNumber 64) ∧
      machinePanic (discover 64 fun _ => ⟨.ok (groupRecord 65 1), .ok (cpuSetRecord 0 0)⟩) =
        some (.processorNumber 64) ∧
      machinePanic (deserialize (w := 64) (describedProcessor 64)) = some (.processorNumber 64) := by
  refine ⟨?_,?_,?_⟩
  · decide +kernel
  · decide +kernel
  · decide +kernel

end WindowsThreadpoolSys.Topology
