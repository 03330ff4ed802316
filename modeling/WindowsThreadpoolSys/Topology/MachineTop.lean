import WindowsThreadpoolSys.Topology.Minimal

/-! `Granularity::Machine` covers the processors the topology lists, and those come from the walk's groups
alone. It is above every domain as long as each processor either enumeration reports lies in a slot of
one of these groups. A processor only the CPU sets know becomes a domain the machine does not contain. -/
namespace WindowsThreadpoolSys.Topology
open Library List MachineMemoryTopology ProcessorSet

variable {w : ℕ}

/-! ## What is in a topology -/

variable {group number : ℕ} {topology : MachineMemoryTopology w}

theorem contains_membersOf {members : List CpuSet} {processors : ProcessorSet w}
    (h : membersOf members=.ok processors) : processors.contains group number=true ↔
      ∃ set ∈ members,set.group=group ∧ set.logicalProcessorIndex=number := by
  unfold membersOf at h
  rw [insertAll_map] at h
  simp [contains_insertAll h]

/-! ## What the fold adds -/

variable {domains domains' : List (Domain w)} {cpuSets : List CpuSet}

theorem changeFirst_spec {fits : Domain w → Bool} {change : Domain w → Domain w}
    (hchange : ∀ domain,(change domain).processors=domain.processors)
    (h : changeFirst fits change domains=some domains') :
    domains'.map Domain.processors=domains.map Domain.processors ∧
      ∃ domain ∈ domains,fits domain=true := by
  induction domains generalizing domains' with
  | nil=>cases h
  | cons first rest ih =>
    unfold changeFirst at h
    split_ifs at h with hfits
    · cases h
      exact ⟨by simp [hchange],first,mem_cons_self,hfits⟩
    · obtain ⟨rest',hrest,rfl⟩:=Option.map_eq_some_iff.mp h
      obtain ⟨hmap,domain,hmem,hfits⟩:=ih hrest
      exact ⟨by simp [hmap],domain,mem_cons_of_mem _ hmem,hfits⟩

variable {isKind : DomainKind → Bool} {makeKind : List CpuSet → DomainKind}
  {labelOf : List CpuSet → ℕ} {machine : ProcessorSet w}

/-- The processors of every domain are among the machine's. -/
def Under (machine : ProcessorSet w) (domains : List (Domain w)) : Prop :=
  ∀ set ∈ domains.map Domain.processors, set ≤ machine

theorem foldMembership_under {members : List CpuSet}
    (h : foldMembership isKind makeKind labelOf domains members=.ok domains') :
    Under machine domains' ↔ Under machine domains ∧
      ∀ set ∈ members,machine.contains set.group set.logicalProcessorIndex=true := by
  unfold foldMembership at h
  rw [bind_eq_ok] at h
  obtain ⟨processors,hprocessors,h⟩:=h
  have hmembers : (∀ set ∈ members,machine.contains set.group set.logicalProcessorIndex=true) ↔
      processors ≤ machine:=by
    rw [le_iff,isSubset_iff]
    constructor
    · intro hall group number hc
      obtain ⟨set,hset,rfl,rfl⟩:=(contains_membersOf hprocessors).mp hc
      exact hall set hset
    · exact fun hsub set hset=>hsub _ _ ((contains_membersOf hprocessors).mpr ⟨set,hset,rfl,rfl⟩)
  rw [hmembers]
  simp only at h
  split at h
  · rename_i changed hchanged
    cases h
    obtain ⟨hmap,domain,hmem,hfits⟩:=changeFirst_spec (by exact fun _=>rfl) hchanged
    simp only [Bool.and_eq_true,beq_iff_eq] at hfits
    rw [Under,Under,hmap]
    exact ⟨fun hunder=>⟨hunder,hfits.2 ▸ hunder _ (mem_map_of_mem hmem)⟩,And.left⟩
  · cases h
    simp [Under,or_imp,forall_and]

theorem foldMemberships_under {key : CpuSet → ℕ}
    (h : foldMemberships (groupedBy cpuSets key) isKind makeKind labelOf domains=.ok domains') :
    Under machine domains' ↔ Under machine domains ∧
      ∀ set ∈ cpuSets,machine.contains set.group set.logicalProcessorIndex=true := by
  -- What the machine has to contain moves from the groups still to be folded to the domains.
  have hend:=foldlM_progress (fun left folded=>(Under machine folded ∧ ∀ members ∈ left,∀ set ∈ members,
    machine.contains set.group set.logicalProcessorIndex=true) ↔ Under machine domains ∧
      ∀ members ∈ (groupedBy cpuSets key).vals,∀ set ∈ members,
        machine.contains set.group set.logicalProcessorIndex=true)
    (fun members rest folded folded' hleft hstep=>by
      rw [← hleft,foldMembership_under hstep,forall_mem_cons,and_assoc]) Iff.rfl h
  rw [← and_iff_left (a:=Under machine domains') (forall_mem_nil _),hend]
  have hmem : ∀ set,set ∈ cpuSets ↔ ∃ members ∈ (groupedBy cpuSets key).vals,set ∈ members :=
    fun _=>mem_groupedBy.symm
  simp only [hmem]
  grind

theorem finish_under {topology result : MachineMemoryTopology w} {coherence : Coherence}
    (h : topology.finish cpuSets coherence=.ok result) :
    Under machine result.domains ↔ Under machine topology.domains ∧
      ∀ set ∈ cpuSets,machine.contains set.group set.logicalProcessorIndex=true := by
  unfold finish foldInCpuSets at h
  simp only [bind_eq_ok] at h
  obtain ⟨folded,⟨cores,hcores,nodes,hnodes,hfolded⟩,hresult⟩:=h
  cases hfolded
  cases hresult
  rw [foldMemberships_under hnodes,foldMemberships_under hcores,and_assoc,and_self]

/-! ## Slots -/

/-- A slot the walk's groups have for a processor. -/
def Relations.HasSlot (relations : Relations w) (group number : ℕ) : Prop :=
  ∃ info ∈ relations.groups, info.group = group ∧ number < info.maximumProcessorCount

/-- Every processor the two readings of a pass name lies in a slot of the walk's groups. -/
structure Placed (relations : Relations w) (cpuSets : List CpuSet) : Prop where
  walk : ∀ domain ∈ relations.domains, ∀ group number,
    domain.processors.contains group number = true → relations.HasSlot group number
  sets : ∀ set ∈ cpuSets, relations.HasSlot set.group set.logicalProcessorIndex

theorem mem_processorsFrom {relations : Relations w} :
    ⟨group,number⟩ ∈ (processorsFrom relations domains).map Processor.id ↔
      relations.HasSlot group number := by
  simp [processorsFrom,Relations.HasSlot,and_assoc,and_comm (a:=_ = group)]

theorem discovered_under_iff (hw : 3 < w) {answers : ℕ → Answers}
    (h : discover w answers=.ok (.ok topology)) (hmachine : topology.machineProcessors=.ok machine) :
    Under machine topology.domains ↔
      ∀ relations cpuSets,Keeps w answers relations cpuSets → Placed relations cpuSets := by
  obtain ⟨-,code,herror⟩ | ⟨relations,cpuSets,collected,coherence,hkeeps,hbuilds,hmade⟩ :=
    discover_cases hw answers
  · rw [herror] at h
    cases h
  rw [hmade,bind_eq_ok] at h
  obtain ⟨finished,hfinish,h⟩:=h
  cases h
  have hslot (group number : ℕ) : machine.contains group number=true ↔
      relations.HasSlot group number:=by
    rw [contains_machine hmachine,finish_processors hfinish,hbuilds.processors,mem_processorsFrom]
  have hplaced : Under machine topology.domains ↔ Placed relations cpuSets:=by
    rw [finish_under hfinish,hbuilds.domains]
    simp only [Under,forall_mem_map,le_iff,isSubset_iff,hslot]
    exact ⟨fun h=>⟨h.1,h.2⟩,fun h=>⟨h.walk,h.sets⟩⟩
  rw [hplaced]
  refine ⟨fun h relations' cpuSets' hkeeps'=>?_,fun h=>h _ _ hkeeps⟩
  obtain ⟨rfl,rfl⟩:=hkeeps.unique hkeeps'
  exact h

/-- The machine is the top of the order exactly when every processor named on the kept pass has a slot
in a group of the walk: every domain is then among the machine's processors, and a set some domain
covers has a minimal covering domain. -/
theorem machine_is_top (hw : 3 < w) {answers : ℕ → Answers} {topology : MachineMemoryTopology w}
    {machine : ProcessorSet w} (h : discover w answers = .ok (.ok topology))
    (hmachine : topology.machineProcessors = .ok machine) :
    ((∀ domain ∈ topology.domains, domain.processors.isSubset machine = true ∧
      topology.isFinerThan .machine (.relation domain) = .ok false ∧
      (domain.processors = machine ∨ topology.isFinerThan (.relation domain) .machine = .ok true)) ∧
    ∀ of : ProcessorSet w, (∃ domain ∈ topology.domains, of.isSubset domain.processors = true) →
      ∃ shared, topology.minimalShared of = .ok shared ∧ shared ≠ []) ↔
    ∀ relations cpuSets, Keeps w answers relations cpuSets → Placed relations cpuSets := by
  rw [← discovered_under_iff hw h hmachine,Under,forall_mem_map]
  refine ⟨fun htop domain hdomain=>(htop.1 domain hdomain).1,fun hle=>?_⟩
  constructor
  · intro domain hdomain
    have hsub : domain.processors.isSubset machine=true:=hle domain hdomain
    have hcoarser : (machine.isSubset domain.processors && machine != domain.processors)=false:=by
      rw [Bool.eq_false_iff]
      intro hboth
      simp only [Bool.and_eq_true,bne_iff_ne] at hboth
      exact hboth.2 (le_antisymm hboth.1 hsub)
    refine ⟨hsub,?_,?_⟩
    · simp only [isFinerThan,processorsOf,hmachine,bind,Except.bind,pure,Except.pure,hcoarser]
    · by_cases heq : domain.processors=machine
      · exact .inl heq
      · refine .inr ?_
        have hne : (domain.processors != machine)=true:=by simpa using heq
        simp only [isFinerThan,processorsOf,hmachine,
          bind,Except.bind,pure,Except.pure,hsub,hne,Bool.true_and]
  · rintro of ⟨domain,hdomain,hcovers⟩
    have hof : of.isSubset machine=true :=
      le_iff.mp (le_trans (le_iff.mpr hcovers) (hle domain hdomain))
    obtain ⟨result,hresult,⟨hout,_⟩ | ⟨_,⟨hnone,_⟩ | ⟨_,rfl⟩⟩⟩:=minimalShared_eq hmachine of
    · exact absurd ((isSubset_machine_iff hmachine).mp hof) hout
    · exact absurd (covers_iff.mpr hcovers) (hnone domain hdomain)
    · obtain ⟨_,hinner,_⟩:=exists_minimalCover hdomain (covers_iff.mpr hcovers)
      exact ⟨_,hresult,ne_nil_of_mem hinner⟩

def agreeing : Answers :=
  ⟨.ok (groupRecord 2 3), .ok (cpuSetRecord 0 0 ++ cpuSetRecord 0 1)⟩

def disagreeing : Answers :=
  ⟨.ok (groupRecord 1 1), .ok (cpuSetRecord 0 0 ++ cpuSetRecord 1 0)⟩

/-- The first pass names a processor outside the groups, the second agrees. -/
def settled (attempt : ℕ) : Answers := if attempt = 1 then disagreeing else agreeing

theorem machine_is_top_agreeing :
    ∃ topology machine, discover 64 settled = .ok (.ok topology) ∧
      topology.machineProcessors = .ok machine ∧ topology.domains ≠ [] ∧
      ∀ domain ∈ topology.domains, domain.processors.isSubset machine = true := by
  have hplaced : ∀ relations cpuSets,Keeps 64 settled relations cpuSets →
      Placed relations cpuSets:=by
    rintro relations cpuSets ⟨attempt,hkept,⟨walk,hwalk,hrelations⟩,sets,anomaly,hsets,hdecode⟩
    have hsecond : keptFrom 64 settled 3 1=some 2:=by decide +kernel
    obtain rfl : attempt=2:=Option.some.inj (hkept.symm.trans hsecond)
    cases hwalk
    cases hsets
    obtain ⟨hinside,info,hgroups,hgroup,hcount⟩:=two_processors_read hrelations
    constructor
    · intro domain hdomain group number hc
      obtain ⟨rfl,hbit⟩:=contains_fromGroupMask.mp
        (isSubset_iff.mp (hinside domain hdomain) group number hc)
      refine ⟨info,hgroups ▸ mem_singleton_self _,hgroup,?_⟩
      rw [hcount]
      by_contra hge
      have hpow : (3#64).toNat<2 ^ number :=
        lt_of_lt_of_le (by decide) (Nat.pow_le_pow_right (by norm_num) (not_lt.mp hge))
      rw [BitVec.getLsbD,Nat.testBit_lt_two_pow hpow] at hbit
      cases hbit
    · intro set hset
      obtain ⟨hzero,hlt⟩:=two_sets_decoded hdecode set hset
      exact ⟨info,hgroups ▸ mem_singleton_self _,by rw [hgroup,hzero],by rw [hcount]; exact hlt⟩
  have hmade : ((discover 64 settled).toOption.any fun result=>result.toOption.any
      fun topology=>!topology.domains.isEmpty && topology.machineProcessors.toOption.isSome) =
      true:=by
    decide +kernel
  obtain ⟨_,hdiscover,hresult⟩:=ok_of_any hmade
  obtain ⟨topology,rfl,hchecks⟩:=ok_of_any hresult
  simp only [Bool.and_eq_true] at hchecks
  obtain ⟨machine,hmachine⟩:=Option.isSome_iff_exists.mp hchecks.2
  have hok:=ok_of_toOption hmachine
  refine ⟨topology,machine,hdiscover,hok,by simpa using hchecks.1,fun domain hdomain=>?_⟩
  exact (((machine_is_top (by decide) hdiscover hok).mpr hplaced).1 domain hdomain).1

/-- A processor the walk has no slot for gives a core incomparable with the machine, and the processors
of that core share nothing. -/
theorem core_outside_machine :
    ∃ topology, discover 64 (fun _ => disagreeing) = .ok (.ok topology) ∧
      ∃ domain ∈ topology.domains, domain.processors = .fromGroupMask 1 1#64 ∧
        topology.isFinerThan (.relation domain) .machine = .ok false ∧
        topology.isFinerThan .machine (.relation domain) = .ok false ∧
        topology.minimalShared domain.processors = .ok [] := by
  have hmade : ((discover 64 (fun _=>disagreeing)).toOption.any fun result=>result.toOption.any
      fun topology=>topology.domains.any fun domain =>
        domain.processors == .fromGroupMask 1 1#64 &&
          (topology.isFinerThan (.relation domain) .machine).toOption == some false &&
          (topology.isFinerThan .machine (.relation domain)).toOption == some false &&
          (topology.minimalShared domain.processors).toOption.any List.isEmpty)=true:=by
    decide +kernel
  obtain ⟨_,hdiscover,hresult⟩:=ok_of_any hmade
  obtain ⟨topology,rfl,hany⟩:=ok_of_any hresult
  obtain ⟨domain,hdomain,hchecks⟩:=any_eq_true.mp hany
  simp only [Bool.and_eq_true,beq_iff_eq] at hchecks
  obtain ⟨⟨⟨hprocessors,hfiner⟩,hcoarser⟩,hshared⟩:=hchecks
  obtain ⟨shared,hshared,hnil⟩:=ok_of_any hshared
  refine ⟨topology,hdiscover,domain,hdomain,hprocessors,ok_of_toOption hfiner,
    ok_of_toOption hcoarser,?_⟩
  rw [hshared,List.isEmpty_iff.mp hnil]

end WindowsThreadpoolSys.Topology
