import WindowsThreadpoolSys.Topology.NoPanic

/-! A set of processors stands for the pairs of a group and a number it contains. No mask is kept at zero,
so the operations on the masks are those on the pairs, comparison included. The relations that cover a
set are then ordered by inclusion of their pairs, and the query returns the minimal ones: the
memberships are finitely many, so below each covering relation there is one of them. -/
namespace WindowsThreadpoolSys.Topology
open Library List Table ProcessorSet

variable {w : ℕ}

namespace ProcessorSet

/-! ## Masks and pairs -/

def members (set : ProcessorSet w) : Finset (ℕ × ℕ) := set.toList.toFinset

variable {a b set : ProcessorSet w} {group number : ℕ}

theorem mem_toList : (group,number) ∈ set.toList ↔ set.contains group number=true := by
  rw [contains_iff]
  simp only [toList,mem_flatMap,mem_map,mem_filter,mem_range,Prod.exists,Prod.mk.injEq]
  constructor
  · rintro ⟨group',mask,hmem,number',⟨hlt,hbit⟩,rfl,rfl⟩
    rw [and_bit_ne_zero hlt] at hbit
    exact ⟨mask,mem_entries.mp hmem,hbit⟩
  · rintro ⟨mask,hget,hbit⟩
    have hlt : number < w:=lt_of_contains (contains_iff.mpr ⟨mask,hget,hbit⟩)
    refine ⟨group,mask,mem_entries.mpr hget,number,⟨hlt,?_⟩,rfl,rfl⟩
    rw [and_bit_ne_zero hlt]
    exact hbit

@[simp] theorem mem_members : (group,number) ∈ set.members ↔ set.contains group number=true := by
  rw [members,mem_toFinset,mem_toList]

theorem toList_nodup (set : ProcessorSet w) : set.toList.Nodup := by
  apply nodup_flatMap.mpr
  constructor
  · intro entry _
    apply List.Nodup.map
    · intro number number' heq
      exact congrArg Prod.snd heq
    · exact nodup_range.filter _
  · refine set.groups.sorted.imp fun {first second} hlt pair hfirst hsecond=>?_
    obtain ⟨_,_,rfl⟩:=mem_map.mp hfirst
    obtain ⟨_,_,heq⟩:=mem_map.mp hsecond
    exact (ne_of_lt hlt) (congrArg Prod.fst heq).symm

theorem len_eq_card (set : ProcessorSet w) : set.len=set.members.card := by
  rw [members,toFinset_card_of_nodup set.toList_nodup,toList,length_flatMap,len,Table.vals,map_map]
  congr 1
  apply map_congr_left
  intro entry _
  rw [length_map,← countP_eq_length_filter]
  apply countP_congr
  intro number hnumber
  rw [and_bit_ne_zero (mem_range.mp hnumber)]

theorem contains_foldl_join {other : ProcessorSet w}
    {l : List { entry // entry ∈ other.groups.entries }} :
    (l.foldl (fun result entry => result.join entry.1.1 entry.1.2
      (other.nonzero entry.1.1 entry.1.2 (Table.mem_entries.mp entry.2))) set).contains
        group number=true ↔
      set.contains group number=true ∨
        ∃ entry ∈ l,group=entry.1.1 ∧ entry.1.2.getLsbD number=true := by
  induction l generalizing set with
  | nil=>simp
  | cons entry rest ih=>simp only [foldl_cons,ih,contains_join,or_assoc,exists_mem_cons_iff]

theorem contains_union : (a.union b).contains group number=true ↔
    a.contains group number=true ∨ b.contains group number=true := by
  rw [union,contains_foldl_join]
  apply or_congr_right
  rw [contains_iff]
  constructor
  · rintro ⟨entry,_,rfl,hbit⟩
    exact ⟨entry.1.2,mem_entries.mp entry.2,hbit⟩
  · rintro ⟨mask,hget,hbit⟩
    exact ⟨⟨(group,mask),mem_entries.mpr hget⟩,mem_attach _ _,rfl,hbit⟩

theorem contains_intersection : (a.intersection b).contains group number=true ↔
    a.contains group number=true ∧ b.contains group number=true := by
  simp only [contains_iff,intersection,get_filter,get_map]
  cases ha : a.groups.get group with
  | none=>simp
  | some mask =>
    cases hb : b.groups.get group with
    | none=>simp
    | some other =>
      simp only [Option.map_some,Option.getD_some,Option.filter_eq_some_iff,Option.some.injEq,
        exists_eq_left']
      constructor
      · rintro ⟨combined,⟨rfl,_⟩,hbit⟩
        simpa using hbit
      · rintro ⟨hbit,hbit'⟩
        have hboth : (mask &&& other).getLsbD number=true:=by simp [hbit,hbit']
        refine ⟨_,⟨rfl,decide_eq_true fun hzero=>?_⟩,hboth⟩
        rw [hzero] at hboth
        simp at hboth

theorem isDisjoint_iff : a.isDisjoint b=true ↔
    ∀ group number,a.contains group number=true → ¬b.contains group number=true := by
  rw [isDisjoint,all_eq_true]
  constructor
  · intro h group number hca hcb
    obtain ⟨mask,hget,hbit⟩:=contains_iff.mp hca
    obtain ⟨other,hother,hbit'⟩:=contains_iff.mp hcb
    have hentry:=h (group,mask) (mem_entries.mpr hget)
    rw [hother,Option.all_some,beq_iff_eq] at hentry
    have hzero:=congrArg (fun word=>word.getLsbD number) hentry
    simp [hbit,hbit'] at hzero
  · rintro h ⟨group,mask⟩ hmem
    have hget:=mem_entries.mp hmem
    cases hother : b.groups.get group with
    | none=>simp
    | some other =>
      simp only [Option.all_some,beq_iff_eq]
      ext i hi
      have hi':=h group i
      rw [contains_iff,contains_iff,hget,hother] at hi'
      simp only [Option.some.injEq,exists_eq_left',BitVec.getLsbD_eq_getElem hi] at hi'
      simpa using hi'

theorem isEmpty_iff : set.isEmpty=true ↔ set=empty := by
  rw [isEmpty,List.isEmpty_iff]
  constructor
  · intro h
    apply ext_contains
    intro group number
    rw [Bool.eq_iff_iff,← mem_toList,toList,h]
    simp
  · rintro rfl
    rfl

theorem subset_iff : a.members ⊆ b.members ↔ a.isSubset b=true := by
  rw [isSubset_iff]
  constructor
  · intro h group number hc
    exact mem_members.mp (h (mem_members.mpr hc))
  · rintro h ⟨group,number⟩ hmem
    exact mem_members.mpr (h group number (mem_members.mp hmem))

theorem members_inj : a=b ↔ a.members=b.members := by
  constructor
  · rintro rfl
    rfl
  · intro h
    apply le_antisymm
    · exact subset_iff.mp (Finset.subset_of_eq h)
    · exact subset_iff.mp (Finset.subset_of_eq h.symm)

theorem ssubset_iff : a.members ⊂ b.members ↔ (a.isSubset b && a != b)=true := by
  rw [Finset.ssubset_iff_subset_ne,subset_iff,Ne,← members_inj,Bool.and_eq_true,bne_iff_ne]

/-- Every operation on the masks, against the pairs. -/
structure Agrees (w : ℕ) : Prop where
  empty : (empty : ProcessorSet w).members = ∅
  fromGroupMask : ∀ group (mask : BitVec w), (fromGroupMask group mask).members =
    ((Finset.range w).filter fun number => mask.getLsbD number = true).image (Prod.mk group)
  insert : ∀ (set : ProcessorSet w) group number, number < w →
    ∃ set', set.insert group number = .ok set' ∧ set'.members = set.members ∪ {(group, number)}
  contains : ∀ (set : ProcessorSet w) group number,
    set.contains group number = true ↔ (group, number) ∈ set.members
  iter : ∀ set : ProcessorSet w, set.toList.Nodup ∧ set.toList.toFinset = set.members
  isEmpty : ∀ set : ProcessorSet w, set.isEmpty = true ↔ set.members = ∅
  len : ∀ set : ProcessorSet w, set.len = set.members.card
  union : ∀ a b : ProcessorSet w, (a.union b).members = a.members ∪ b.members
  intersection : ∀ a b : ProcessorSet w, (a.intersection b).members = a.members ∩ b.members
  isDisjoint : ∀ a b : ProcessorSet w, a.isDisjoint b = true ↔ Disjoint a.members b.members
  isSubset : ∀ a b : ProcessorSet w, a.isSubset b = true ↔ a.members ⊆ b.members
  equal : ∀ a b : ProcessorSet w, a = b ↔ a.members = b.members

theorem members_empty : (empty : ProcessorSet w).members = ∅ := rfl

theorem agrees (w : ℕ) : Agrees w where
  empty := members_empty
  fromGroupMask group mask:=by
    ext ⟨group',number⟩
    rw [mem_members,contains_fromGroupMask]
    simp only [Finset.mem_image,Finset.mem_filter,Finset.mem_range,Prod.mk.injEq]
    constructor
    · rintro ⟨rfl,hbit⟩
      exact ⟨number,⟨BitVec.lt_of_getLsbD hbit,hbit⟩,rfl,rfl⟩
    · rintro ⟨_,⟨_,hbit⟩,rfl,rfl⟩
      exact ⟨rfl,hbit⟩
  insert set group number h:=by
    obtain ⟨set',hinsert⟩:=set.insert_ok group h
    refine ⟨set',hinsert,?_⟩
    ext ⟨group',number'⟩
    simp [contains_insert hinsert,or_comm]
  contains set group number:=mem_members.symm
  iter set:=⟨set.toList_nodup,rfl⟩
  isEmpty set:=by rw [isEmpty_iff,members_inj,members_empty]
  len:=len_eq_card
  union a b:=by
    ext ⟨group,number⟩
    simp [contains_union]
  intersection a b:=by
    ext ⟨group,number⟩
    simp [contains_intersection]
  isDisjoint a b:=by
    simp only [isDisjoint_iff,Finset.disjoint_left,Prod.forall,mem_members]
  isSubset a b:=subset_iff.symm
  equal a b:=members_inj

end ProcessorSet

/-! ## The processors of the machine -/

variable {topology : MachineMemoryTopology w} {group number : ℕ}

theorem contains_insertAll {set result : ProcessorSet w} {ids : List ProcessorId}
    (h : MachineMemoryTopology.insertAll set ids=.ok result) :
    result.contains group number=true ↔
      set.contains group number=true ∨ ⟨group,number⟩ ∈ ids := by
  unfold MachineMemoryTopology.insertAll at h
  induction ids generalizing set with
  | nil =>
    cases h
    simp
  | cons id rest ih =>
    rw [foldlM_cons,bind_eq_ok] at h
    obtain ⟨set',hinsert,hrest⟩:=h
    have hid : (⟨group,number⟩ : ProcessorId)=id ↔ group=id.group ∧ number=id.number:=by
      cases id
      simp
    rw [ih hrest,contains_insert hinsert,mem_cons,hid,or_assoc]

theorem contains_machine {machine : ProcessorSet w} (h : topology.machineProcessors=.ok machine) :
    machine.contains group number=true ↔
      ⟨group,number⟩ ∈ topology.processors.map Processor.id := by
  rw [contains_insertAll h,contains_empty]
  simp

/-! ## The minimal relations -/

def Covers (domain : Domain w) (of : ProcessorSet w) : Prop :=
  of.members ⊆ domain.processors.members

instance (domain : Domain w) (of : ProcessorSet w) : Decidable (Covers domain of) :=
  inferInstanceAs (Decidable (of.members ⊆ domain.processors.members))

/-- A domain that covers the set, with no covering domain strictly inside it. -/
def MinimalCover (domains : List (Domain w)) (of : ProcessorSet w) (domain : Domain w) : Prop :=
  Covers domain of ∧ ∀ other ∈ domains, Covers other of →
    ¬other.processors.members ⊂ domain.processors.members

instance (domains : List (Domain w)) (of : ProcessorSet w) (domain : Domain w) :
    Decidable (MinimalCover domains of domain) :=
  inferInstanceAs (Decidable (_ ∧ _))

def minimalCovers (domains : List (Domain w)) (of : ProcessorSet w) : List (Granularity w) :=
  (domains.filter fun domain => decide (MinimalCover domains of domain)).map .relation

def Lists (topology : MachineMemoryTopology w) (of : ProcessorSet w) : Prop :=
  ∀ pair ∈ of.members, ⟨pair.1, pair.2⟩ ∈ topology.processors.map Processor.id

variable {of : ProcessorSet w} {domains : List (Domain w)} {domain : Domain w}

theorem covers_iff : Covers domain of ↔ of.isSubset domain.processors=true := subset_iff

theorem mem_minimalCovers : .relation domain ∈ minimalCovers domains of ↔
    domain ∈ domains ∧ MinimalCover domains of domain := by
  simp [minimalCovers]

theorem minimalOf_eq : (MachineMemoryTopology.minimalOf
      (domains.filter fun domain => of.isSubset domain.processors)).map .relation =
    minimalCovers domains of := by
  rw [MachineMemoryTopology.minimalOf,List.filter_filter,minimalCovers]
  congr 1
  apply filter_congr
  intro domain _
  rw [Bool.eq_iff_iff,Bool.and_eq_true,decide_eq_true_iff,MinimalCover,and_comm,covers_iff,
    Bool.not_eq_true',List.any_eq_false]
  apply and_congr_right
  intro _
  simp only [mem_filter,covers_iff,ssubset_iff,and_imp]

/-- Below a covering domain there is a minimal one: the domains strictly inside it have fewer
processors. -/
theorem exists_minimalCover (hmem : domain ∈ domains) (hcovers : Covers domain of) :
    ∃ inner,.relation inner ∈ minimalCovers domains of ∧
      inner.processors.members ⊆ domain.processors.members := by
  induction hcard : domain.processors.members.card using Nat.strong_induction_on
    generalizing domain with
  | _ n ih =>
    by_cases hmin : MinimalCover domains of domain
    · exact ⟨domain,mem_minimalCovers.mpr ⟨hmem,hmin⟩,Finset.Subset.refl _⟩
    · simp only [MinimalCover,hcovers,true_and,not_forall,not_not] at hmin
      obtain ⟨other,hother,hcovers',hinside⟩:=hmin
      have hlt:=Finset.card_lt_card hinside
      obtain ⟨inner,hinner,hsub⟩:=ih _ (by omega) hother hcovers' rfl
      exact ⟨inner,hinner,hsub.trans hinside.subset⟩

theorem MinimalCover.apart {first second : Domain w}
    (hfirst : first ∈ domains ∧ MinimalCover domains of first)
    (hsecond : second ∈ domains ∧ MinimalCover domains of second) :
    first.processors.members=second.processors.members ∨
      ¬first.processors.members ⊆ second.processors.members ∧
      ¬second.processors.members ⊆ first.processors.members := by
  apply or_iff_not_imp_left.mpr
  intro hne
  constructor
  · intro hsub
    exact hsecond.2.2 first hfirst.1 hfirst.2.1 (hsub.ssubset_of_ne hne)
  · intro hsub
    exact hfirst.2.2 second hsecond.1 hsecond.2.1 (hsub.ssubset_of_ne (Ne.symm hne))

variable {machine : ProcessorSet w}

theorem isSubset_machine_iff (hmachine : topology.machineProcessors=.ok machine) :
    of.isSubset machine=true ↔ Lists topology of := by
  rw [isSubset_iff]
  simp only [Lists,Prod.forall,mem_members,contains_machine hmachine]

theorem minimalShared_eq (hmachine : topology.machineProcessors=.ok machine) (of : ProcessorSet w) :
    ∃ result,topology.minimalShared of=.ok result ∧
      (¬Lists topology of ∧ result=[] ∨
        Lists topology of ∧
          ((∀ domain ∈ topology.domains,¬Covers domain of) ∧ result=[.machine] ∨
          (∃ domain ∈ topology.domains,Covers domain of) ∧
            result=minimalCovers topology.domains of)) := by
  simp only [MachineMemoryTopology.minimalShared,hmachine,bind,Except.bind,pure,Except.pure,
    ← isSubset_machine_iff hmachine]
  cases of.isSubset machine with
  | false=>exact ⟨_,rfl,.inl ⟨Bool.false_ne_true,rfl⟩⟩
  | true =>
    cases hcovering : topology.domains.filter fun domain=>of.isSubset domain.processors with
    | nil =>
      refine ⟨_,rfl,.inr ⟨rfl,.inl ⟨fun domain hdomain hcovers=>?_,rfl⟩⟩⟩
      exact filter_eq_nil_iff.mp hcovering domain hdomain (covers_iff.mp hcovers)
    | cons domain rest =>
      obtain ⟨hdomain,hcovers⟩:=mem_filter.mp (hcovering ▸ mem_cons_self)
      refine ⟨_,rfl,.inr ⟨rfl,.inr ⟨⟨domain,hdomain,covers_iff.mpr hcovers⟩,?_⟩⟩⟩
      rw [← hcovering,minimalOf_eq]

/-- The query returns the minimal relations, and nothing or the machine where there are none to
return; the operations it rests on are those on the pairs. -/
theorem minimal_shared_exact (topology : MachineMemoryTopology w)
    (h : ∀ processor ∈ topology.processors, processor.id.number < w) (of : ProcessorSet w) :
    (∃ result, topology.minimalShared of = .ok result ∧
      (result = [] ↔ ¬Lists topology of) ∧
      (Lists topology of →
        (result = [.machine] ↔ ∀ domain ∈ topology.domains, ¬Covers domain of) ∧
        ((∃ domain ∈ topology.domains, Covers domain of) →
          result = minimalCovers topology.domains of ∧
          (∀ domain ∈ topology.domains, Covers domain of → ∃ inner, .relation inner ∈ result ∧
            inner.processors.members ⊆ domain.processors.members) ∧
          ∀ first second, .relation first ∈ result → .relation second ∈ result →
            first.processors.members = second.processors.members ∨
            ¬first.processors.members ⊆ second.processors.members ∧
            ¬second.processors.members ⊆ first.processors.members))) ∧
    ProcessorSet.Agrees w := by
  refine ⟨?_,agrees w⟩
  obtain ⟨machine,hmachine⟩:=(returns_iff.mpr h).machineProcessors
  obtain ⟨result,hresult,⟨hout,rfl⟩ | ⟨hin,⟨hnone,rfl⟩ | ⟨⟨domain,hdomain,hcovers⟩,rfl⟩⟩⟩ :=
    minimalShared_eq hmachine of
  · exact ⟨_,hresult,iff_of_true rfl hout,fun hin=>absurd hin hout⟩
  · refine ⟨_,hresult,by simp [hin],fun _=>⟨iff_of_true rfl hnone,?_⟩⟩
    rintro ⟨domain,hdomain,hcovers⟩
    exact absurd hcovers (hnone domain hdomain)
  · obtain ⟨least,hleast,_⟩:=exists_minimalCover hdomain hcovers
    have hne:=ne_nil_of_mem hleast
    refine ⟨_,hresult,iff_of_false hne (not_not.mpr hin),fun _=>⟨?_,fun _=>⟨rfl,?_,?_⟩⟩⟩
    · refine iff_of_false (fun heq=>?_) fun hall=>hall domain hdomain hcovers
      rw [heq] at hleast
      cases mem_singleton.mp hleast
    · intro domain hdomain hcovers
      exact exists_minimalCover hdomain hcovers
    · intro first second hfirst hsecond
      exact MinimalCover.apart (mem_minimalCovers.mp hfirst) (mem_minimalCovers.mp hsecond)

def nested : MachineMemoryTopology 64 where
  processors := [⟨⟨0, 0⟩, true, 0⟩, ⟨⟨0, 1⟩, true, 0⟩, ⟨⟨0, 2⟩, true, 0⟩]
  domains := [⟨.group, .fromGroupMask 0 7#64, []⟩, ⟨.package, .fromGroupMask 0 3#64, []⟩]
  cpuSets := none
  processorAttributes := []
  provenance := .synthetic
  enumerationAnomalies := []
  coherence := .notCollected

theorem minimal_shared_exact_nested :
    ∃ result, nested.minimalShared (.fromGroupMask 0 1#64) = .ok result ∧
      result ≠ [] ∧ result ≠ [.machine] := by
  have hlists : Lists nested (.fromGroupMask 0 1#64):=by
    unfold Lists
    decide +kernel
  have hcovers : ¬∀ domain ∈ nested.domains,¬Covers domain (.fromGroupMask 0 1#64):=by
    decide +kernel
  obtain ⟨result,hresult,hnil,hin⟩ :=
    (minimal_shared_exact nested (by decide) (.fromGroupMask 0 1#64)).1
  exact ⟨result,hresult,fun h=>hnil.mp h hlists,fun h=>hcovers ((hin hlists).1.mp h)⟩

end WindowsThreadpoolSys.Topology
