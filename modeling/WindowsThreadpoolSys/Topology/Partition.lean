import WindowsThreadpoolSys.Topology.MachineTop

/-! The caches of one level partition some of the processors when their distinct memberships are several
and pairwise disjoint. Such partitions are ordered by refinement, which is antisymmetric because no
block is empty. There are finitely many levels, so every one of them lies below a maximal one, and the
maximal ones agree exactly if there is a greatest. -/
namespace WindowsThreadpoolSys.Topology
open Library MachineMemoryTopology List ProcessorSet

variable {w : ℕ}

/-! ## Partitions and refinement -/

/-- Every block of the one lies inside a block of the other. -/
def Refines (finer coarser : Finset (ProcessorSet w)) : Prop :=
  ∀ block ∈ finer, ∃ outer ∈ coarser, block.members ⊆ outer.members

/-- Blocks that are not empty and have no processor in common. They need not cover the machine. -/
structure Partition (w : ℕ) where
  blocks : Finset (ProcessorSet w)
  nonempty : ∀ block ∈ blocks, block.members.Nonempty
  apart : ∀ block ∈ blocks, ∀ other ∈ blocks, block ≠ other → Disjoint block.members other.members

namespace Partition

theorem subset_of_refines {P Q : Partition w} (h : Refines P.blocks Q.blocks)
    (h' : Refines Q.blocks P.blocks) : P.blocks ⊆ Q.blocks := by
  intro block hblock
  obtain ⟨outer,houter,hsub⟩:=h block hblock
  obtain ⟨around,haround,hsub'⟩:=h' outer houter
  have hsame : block=around:=by
    by_contra hne
    have hdisjoint:=P.apart block hblock around haround hne
    have hempty:=hdisjoint.mono_right (hsub.trans hsub')
    exact (P.nonempty block hblock).ne_empty (Finset.disjoint_self_iff_empty _ |>.mp hempty)
  have heq : block=outer:=members_inj.mpr (hsub.antisymm (hsame ▸ hsub'))
  exact heq ▸ houter

instance : PartialOrder (Partition w) where
  le P Q := Refines P.blocks Q.blocks
  le_refl P block h := ⟨block, h, subset_rfl⟩
  le_trans P Q R hPQ hQR block h := by
    obtain ⟨middle, hmiddle, hsub⟩ := hPQ block h
    obtain ⟨outer, houter, hsub'⟩ := hQR middle hmiddle
    exact ⟨outer, houter, hsub.trans hsub'⟩
  le_antisymm P Q hPQ hQP := by
    have heq := (subset_of_refines hPQ hQP).antisymm (subset_of_refines hQP hPQ)
    cases P
    cases Q
    cases heq
    rfl

end Partition

/-! ## The caches of a level -/

def memberships (topology : MachineMemoryTopology w) (level : ℕ) : Finset (ProcessorSet w) :=
  ((topology.domains.filter fun domain =>
    levelOf domain == some level && !domain.processors.isEmpty).map Domain.processors).toFinset

def Candidate (topology : MachineMemoryTopology w) (level : ℕ) : Prop :=
  2 ≤ (memberships topology level).card ∧
    ∀ block ∈ memberships topology level, ∀ other ∈ memberships topology level,
      block ≠ other → Disjoint block.members other.members

def Greatest (topology : MachineMemoryTopology w) (level : ℕ) : Prop :=
  Candidate topology level ∧ ∀ other, Candidate topology other →
    Refines (memberships topology other) (memberships topology level)

variable {topology : MachineMemoryTopology w} {level : ℕ}

/-- The loop of `cache_partitions_at_level` keeps the first domain of each membership. -/
theorem firsts_spec (l : List (Domain w)) : ∃ firsts,l.foldl (fun partitions domain =>
      if partitions.any fun kept => kept.processors == domain.processors then partitions
      else partitions++[domain]) []=firsts ∧
    firsts.Sublist l ∧ (firsts.map Domain.processors).Nodup ∧
      (firsts.map Domain.processors).toFinset=(l.map Domain.processors).toFinset := by
  induction l using reverseRecOn with
  | nil=>exact ⟨[],rfl,.slnil,.nil,rfl⟩
  | append_singleton l domain ih =>
    obtain ⟨firsts,hfold,hsub,hnodup,hset⟩:=ih
    rw [foldl_append,hfold,foldl_cons,foldl_nil]
    refine ⟨_,rfl,?_⟩
    rw [map_append,toFinset_append,← hset]
    by_cases hany : (firsts.any fun kept=>kept.processors == domain.processors)=true
    · rw [if_pos hany]
      refine ⟨hsub.trans (sublist_append_left _ _),hnodup,?_⟩
      have hkept : domain.processors ∈ (firsts.map Domain.processors).toFinset:=by
        simpa using hany
      simp only [map_singleton,toFinset_cons,toFinset_nil]
      exact (Finset.union_eq_left.mpr (Finset.singleton_subset_iff.mpr hkept)).symm
    · rw [if_neg hany,map_append,toFinset_append]
      refine ⟨hsub.append (List.Sublist.refl _),nodup_append.mpr ⟨hnodup,by simp,?_⟩,rfl⟩
      simpa using hany

theorem cachePartitions_spec (topology : MachineMemoryTopology w) (level : ℕ) :
    (topology.cachePartitionsAtLevel level).Sublist (topology.domains.filter fun domain =>
      levelOf domain == some level && !domain.processors.isEmpty) ∧
    ((topology.cachePartitionsAtLevel level).map Domain.processors).Nodup ∧
    ((topology.cachePartitionsAtLevel level).map Domain.processors).toFinset =
      memberships topology level := by
  obtain ⟨_,hfold,hspec⟩:=firsts_spec (topology.domains.filter fun domain =>
    levelOf domain == some level && !domain.processors.isEmpty)
  rw [cachePartitionsAtLevel,hfold]
  exact hspec

theorem card_memberships : (memberships topology level).card =
    (topology.cachePartitionsAtLevel level).length := by
  obtain ⟨_,hnodup,heq⟩:=cachePartitions_spec topology level
  rw [← heq,toFinset_card_of_nodup hnodup,length_map]

theorem mem_memberships {set : ProcessorSet w} : set ∈ memberships topology level ↔
    ∃ domain ∈ topology.cachePartitionsAtLevel level,domain.processors=set := by
  rw [← (cachePartitions_spec topology level).2.2,mem_toFinset,mem_map]

theorem candidate_iff : Candidate topology level ↔
    1<(topology.cachePartitionsAtLevel level).length ∧
      (topology.cachePartitionsAtLevel level).Pairwise fun left right =>
        left.processors.isDisjoint right.processors=true := by
  rw [Candidate,card_memberships]
  apply and_congr_right
  intro _
  have hnodup:=pairwise_map.mp (cachePartitions_spec topology level).2.1
  constructor
  · intro h
    refine hnodup.imp_of_mem fun {left right} hleft hright hne=>?_
    rw [(agrees w).isDisjoint]
    exact h _ (mem_memberships.mpr ⟨left,hleft,rfl⟩) _ (mem_memberships.mpr ⟨right,hright,rfl⟩) hne
  · intro h block hblock other hother hne
    obtain ⟨left,hleft,rfl⟩:=mem_memberships.mp hblock
    obtain ⟨right,hright,rfl⟩:=mem_memberships.mp hother
    have hsymm : Std.Symm fun left right : Domain w =>
        left.processors.isDisjoint right.processors=true:=by
      constructor
      intro left right
      rw [(agrees w).isDisjoint,(agrees w).isDisjoint]
      exact fun hdisjoint=>hdisjoint.symm
    rw [← (agrees w).isDisjoint]
    exact h.forall hleft hright fun heq=>hne (congrArg Domain.processors heq)

theorem samePartition_iff {other : ℕ} : samePartition (topology.cachePartitionsAtLevel level)
    (topology.cachePartitionsAtLevel other)=true ↔
      memberships topology level=memberships topology other := by
  simp only [samePartition,Bool.and_eq_true,beq_iff_eq,all_eq_true,any_eq_true,
    ← card_memberships,← mem_memberships]
  constructor
  · rintro ⟨hcard,hall⟩
    apply Finset.eq_of_subset_of_card_le
    · intro set hset
      obtain ⟨domain,hdomain,rfl⟩:=mem_memberships.mp hset
      exact hall domain hdomain
    · exact hcard.ge
  · intro heq
    rw [heq]
    refine ⟨rfl,fun domain hdomain=>?_⟩
    rw [← heq]
    exact mem_memberships.mpr ⟨domain,hdomain,rfl⟩

theorem refines_iff {other : ℕ} : refines (topology.cachePartitionsAtLevel level)
    (topology.cachePartitionsAtLevel other)=true ↔
      Refines (memberships topology level) (memberships topology other) ∧
        memberships topology level ≠ memberships topology other := by
  rw [refines,Bool.and_eq_true,Bool.not_eq_true',← Bool.not_eq_true,samePartition_iff]
  apply and_congr_left
  intro _
  simp only [Refines,all_eq_true,any_eq_true,← subset_iff]
  constructor
  · intro h block hblock
    obtain ⟨domain,hdomain,rfl⟩:=mem_memberships.mp hblock
    obtain ⟨outer,houter,hsub⟩:=h domain hdomain
    exact ⟨_,mem_memberships.mpr ⟨outer,houter,rfl⟩,hsub⟩
  · intro h domain hdomain
    obtain ⟨_,hset,hsub⟩:=h _ (mem_memberships.mpr ⟨domain,hdomain,rfl⟩)
    obtain ⟨outer,houter,rfl⟩:=mem_memberships.mp hset
    exact ⟨outer,houter,hsub⟩

/-! ## The order of the levels -/

/-- A level whose caches partition; the levels are ordered as their partitions are. -/
structure CandidateLevel (topology : MachineMemoryTopology w) where
  level : ℕ
  candidate : Candidate topology level

def CandidateLevel.partition (c : CandidateLevel topology) : Partition w where
  blocks := memberships topology c.level
  nonempty block h := by
    obtain ⟨domain, hdomain, rfl⟩ := List.mem_map.mp (List.mem_toFinset.mp h)
    have hne := (List.mem_filter.mp hdomain).2
    rw [Bool.and_eq_true, Bool.not_eq_true', ← Bool.not_eq_true,
      (ProcessorSet.agrees w).isEmpty] at hne
    exact Finset.nonempty_iff_ne_empty.mpr hne.2
  apart := c.candidate.2

instance : Preorder (CandidateLevel topology) := Preorder.lift CandidateLevel.partition

theorem Candidate.mem_cacheLevels (h : Candidate topology level) : level ∈ topology.cacheLevels := by
  have hpos : 0<(memberships topology level).card:=by
    have hcard:=h.1
    omega
  obtain ⟨_,hset⟩:=Finset.card_pos.mp hpos
  obtain ⟨domain,hdomain,_⟩:=mem_map.mp (mem_toFinset.mp hset)
  obtain ⟨hmem,hlevel⟩:=mem_filter.mp hdomain
  rw [Bool.and_eq_true,beq_iff_eq] at hlevel
  rw [cacheLevels,mem_dedup,mem_insertionSort,mem_filterMap]
  exact ⟨domain,hmem,hlevel.1⟩

instance : Finite (CandidateLevel topology) := by
  have hfinite : Finite { level // Candidate topology level } :=
    ((List.finite_toSet topology.cacheLevels).subset fun _ => Candidate.mem_cacheLevels).to_subtype
  apply Finite.of_injective fun c : CandidateLevel topology => Subtype.mk c.level c.candidate
  rintro ⟨level, _⟩ ⟨other, _⟩ heq
  cases heq
  rfl

def Outermost (topology : MachineMemoryTopology w) (level : ℕ) : Prop :=
  Candidate topology level ∧ ∀ other, Candidate topology other →
    Refines (memberships topology level) (memberships topology other) →
      memberships topology level = memberships topology other

theorem Candidate.antisymm {other : ℕ} (h : Candidate topology level)
    (h' : Candidate topology other)
    (hle : Refines (memberships topology level) (memberships topology other))
    (hge : Refines (memberships topology other) (memberships topology level)) :
    memberships topology level=memberships topology other :=
  congrArg Partition.blocks (le_antisymm (a:=CandidateLevel.partition ⟨level,h⟩)
    (b:=CandidateLevel.partition ⟨other,h'⟩) hle hge)

theorem Candidate.exists_outermost (h : Candidate topology level) :
    ∃ top,Outermost topology top ∧ Refines (memberships topology level) (memberships topology top) := by
  have habove : ∃ top : CandidateLevel topology,⟨level,h⟩ ≤ top ∧ Maximal (fun _=>True) top :=
    Finite.exists_le_maximal trivial
  obtain ⟨top,hle,hmax⟩:=habove
  refine ⟨top.level,⟨top.candidate,fun other hother hrefines=>?_⟩,hle⟩
  have hge : (⟨other,hother⟩ : CandidateLevel topology) ≤ top:=hmax.2 trivial hrefines
  exact top.candidate.antisymm hother hrefines hge

theorem Greatest.outermost (h : Greatest topology level) : Outermost topology level :=
  ⟨h.1,fun other hother hrefines=>h.1.antisymm hother hrefines (h.2 other hother)⟩

theorem Greatest.same {top : ℕ} (h : Greatest topology level) (htop : Outermost topology top) :
    memberships topology top=memberships topology level :=
  htop.2 level h.1 (h.2 top htop.1)

theorem Outermost.greatest (h : Outermost topology level)
    (hsame : ∀ top,Outermost topology top →
      memberships topology top=memberships topology level) : Greatest topology level := by
  refine ⟨h.1,fun other hother=>?_⟩
  obtain ⟨top,htop,hrefines⟩:=hother.exists_outermost
  rw [← hsame top htop]
  exact hrefines

theorem best_spec {α : Type} (l : List (ℕ × α)) (kept : ℕ × α) :
    ∃ best ∈ kept::l,(∀ candidate ∈ kept::l,candidate.1 ≤ best.1) ∧
      ∀ step : Option (ℕ × α) → ℕ × α → Option (ℕ × α),
        (∀ kept candidate,step (some kept) candidate =
          if kept.1 ≤ candidate.1 then some candidate else some kept) →
        l.foldl step (some kept)=some best := by
  induction l generalizing kept with
  | nil=>exact ⟨kept,by simp,by simp,fun _ _=>rfl⟩
  | cons candidate rest ih =>
    simp only [foldl_cons]
    by_cases hle : kept.1 ≤ candidate.1
    · obtain ⟨best,hmem,hhigh,hbest⟩:=ih candidate
      refine ⟨best,mem_cons_of_mem _ hmem,?_,fun step hstep=>?_⟩
      · rw [forall_mem_cons]
        exact ⟨hle.trans (hhigh candidate mem_cons_self),hhigh⟩
      · rw [hstep,if_pos hle,hbest step hstep]
    · obtain ⟨best,hmem,hhigh,hbest⟩:=ih kept
      rw [forall_mem_cons] at hhigh
      refine ⟨best,?_,?_,fun step hstep=>?_⟩
      · exact mem_cons.mpr ((mem_cons.mp hmem).imp_right (mem_cons_of_mem _))
      · simp only [forall_mem_cons]
        exact ⟨hhigh.1,by omega,hhigh.2⟩
      · rw [hstep,if_neg hle,hbest step hstep]

theorem outermost_cases (topology : MachineMemoryTopology w) :
    ∃ result,topology.outermostPartitioningCache=.ok result ∧
      ((∀ level,¬Greatest topology level) ∧ result=none ∨
        ∃ level,Greatest topology level ∧ (∀ other,Greatest topology other → other ≤ level) ∧
          result=some (level,topology.cachePartitionsAtLevel level)) := by
  simp only [outermostPartitioningCache,partitioningCaches_eq,bind,Except.bind,pure,Except.pure]
  generalize hcandidates : List.filter _ (List.map _ _)=candidates
  have hcandidate : ∀ level blocks,(level,blocks) ∈ candidates ↔
      Candidate topology level ∧ blocks=topology.cachePartitionsAtLevel level:=by
    intro level blocks
    rw [← hcandidates,mem_filter,mem_map]
    constructor
    · rintro ⟨⟨_,_,heq⟩,hcandidate⟩
      cases heq
      exact ⟨candidate_iff.mpr (of_decide_eq_true hcandidate),rfl⟩
    · rintro ⟨hcandidate,rfl⟩
      exact ⟨⟨level,hcandidate.mem_cacheLevels,rfl⟩,decide_eq_true (candidate_iff.mp hcandidate)⟩
  generalize hmaximal : candidates.filter (fun candidate =>
    !candidates.any fun other=>refines candidate.2 other.2)=maximal
  have houtermost : ∀ level blocks,(level,blocks) ∈ maximal ↔
      Outermost topology level ∧ blocks=topology.cachePartitionsAtLevel level:=by
    intro level blocks
    rw [← hmaximal,mem_filter,hcandidate,Bool.not_eq_true',any_eq_false]
    simp only [hcandidate,Prod.forall,and_imp,Outermost]
    constructor
    · rintro ⟨⟨hlevel,rfl⟩,hnone⟩
      refine ⟨⟨hlevel,fun other hother hrefines=>?_⟩,rfl⟩
      by_contra hne
      exact hnone other _ hother rfl (refines_iff.mpr ⟨hrefines,hne⟩)
    · rintro ⟨⟨hlevel,hall⟩,rfl⟩
      refine ⟨⟨hlevel,rfl⟩,fun other _ hother heq hrefines=>?_⟩
      subst heq
      obtain ⟨hrefines,hne⟩:=refines_iff.mp hrefines
      exact hne (hall other hother hrefines)
  cases maximal with
  | nil =>
    refine ⟨none,rfl,.inl ⟨fun level hgreatest=>?_,rfl⟩⟩
    exact not_mem_nil ((houtermost level _).mpr ⟨hgreatest.outermost,rfl⟩)
  | cons first rest =>
    obtain ⟨first,blocks⟩:=first
    obtain ⟨hfirst,rfl⟩:=(houtermost first blocks).mp mem_cons_self
    have hsame : ((first,topology.cachePartitionsAtLevel first)::rest).all (fun other =>
        samePartition (topology.cachePartitionsAtLevel first) other.2)=true ↔
          ∀ top,Outermost topology top → memberships topology top=memberships topology first:=by
      simp only [all_eq_true,Prod.forall,houtermost,and_imp]
      constructor
      · intro h top htop
        exact (samePartition_iff.mp (h top _ htop rfl)).symm
      · rintro h top _ htop rfl
        exact samePartition_iff.mpr (h top htop).symm
    by_cases hall : ∀ top,Outermost topology top →
        memberships topology top=memberships topology first
    · obtain ⟨⟨best,blocks⟩,hmem,hhigh,hbest⟩ :=
        best_spec rest (first,topology.cachePartitionsAtLevel first)
      obtain ⟨hout,rfl⟩:=(houtermost best blocks).mp hmem
      refine ⟨_,(if_pos (hsame.mpr hall)).trans (congrArg Except.ok (hbest _ fun _ _=>rfl)),
        Or.inr ⟨best,?_,fun other hother=>?_,rfl⟩⟩
      · exact hout.greatest fun top htop=>(hall top htop).trans (hall best hout).symm
      · exact hhigh (other,_) ((houtermost other _).mpr ⟨hother.outermost,rfl⟩)
    · refine ⟨none,if_neg (mt hsame.mp hall),.inl ⟨fun level hgreatest=>?_,rfl⟩⟩
      apply hall
      intro top htop
      rw [hgreatest.same htop,hgreatest.same hfirst]

/-- The answer is the greatest partition, at the highest level that names it, and there is none where
there is no greatest. Its blocks are the first domain of each of the level's memberships. -/
theorem outermost_partitioning_cache_greatest (topology : MachineMemoryTopology w) :
    (∃ result, topology.outermostPartitioningCache = .ok result ∧
      (∀ level blocks, result = some (level, blocks) ↔
        Greatest topology level ∧ (∀ other, Greatest topology other → other ≤ level) ∧
          blocks = topology.cachePartitionsAtLevel level) ∧
      (result = none ↔ ∀ level, ¬Greatest topology level)) ∧
    ∀ level, (topology.cachePartitionsAtLevel level).Sublist (topology.domains.filter fun domain =>
        levelOf domain == some level && !domain.processors.isEmpty) ∧
      ((topology.cachePartitionsAtLevel level).map Domain.processors).Nodup ∧
      ((topology.cachePartitionsAtLevel level).map Domain.processors).toFinset =
        memberships topology level := by
  refine ⟨?_,cachePartitions_spec topology⟩
  obtain ⟨result,hresult,⟨hnone,rfl⟩ | ⟨top,htop,hhigh,rfl⟩⟩:=outermost_cases topology
  · refine ⟨none,hresult,fun level blocks=>iff_of_false (Option.some_ne_none _).symm fun h=>hnone level h.1,?_⟩
    exact iff_of_true rfl hnone
  · refine ⟨_,hresult,fun level blocks=>⟨fun heq=>?_,fun ⟨hgreatest,hhigh',hblocks⟩=>?_⟩,?_⟩
    · cases heq
      exact ⟨htop,hhigh,rfl⟩
    · have hlevel:=(hhigh level hgreatest).antisymm (hhigh' top htop)
      rw [hblocks,hlevel]
    · exact iff_of_false (Option.some_ne_none _) fun hnone=>hnone top htop

end WindowsThreadpoolSys.Topology
