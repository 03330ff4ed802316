import WindowsThreadpoolSys.Library.Table

/-! A `ProcessorSet` is one word of processor bits for each processor group, `usize::BITS` bits wide. No
group is kept with no bit set, so two sets with the same members are the same value, and inclusion is
an order. -/
namespace WindowsThreadpoolSys.Topology
open Library Table Option

/-- Why a call of the crate panics: the assertion of `ProcessorSet::insert`, an unchecked subtraction
or addition that leaves its type, a slice that starts past the end, or an `expect` on nothing. -/
inductive Panic
  | processorNumber (number : ℕ)
  | arithmetic
  | slice
  | expect
deriving DecidableEq

structure ProcessorSet (w : ℕ) where
  groups : Table ℕ (BitVec w)
  nonzero : ∀ group mask, groups.get group = some mask → mask ≠ 0

namespace ProcessorSet

variable {w : ℕ}

/-! ## Operations -/

def empty : ProcessorSet w := ⟨Table.empty, fun _ _ h => by cases h⟩

theorem or_ne_zero {mask other : BitVec w} (h : other ≠ 0) : mask ||| other ≠ 0 := by
  intro hor
  apply h
  ext i hi
  have hbit:=congrArg (fun word=>word.getLsbD i) hor
  simp only [BitVec.getLsbD_eq_getElem hi] at hbit
  simp_all

variable {number : ℕ}

theorem bit_ne_zero (h : number < w) : (1#w <<< number) ≠ 0 := by
  intro hzero
  have hbit:=congrArg (fun word=>word.getLsbD number) hzero
  simp [h] at hbit

def fromGroupMask (group : ℕ) (mask : BitVec w) : ProcessorSet w :=
  if h : mask ≠ 0 then
    ⟨Table.empty.insert group mask, by
      intro group' mask' hget
      rcases of_insert hget with ⟨-,rfl⟩ | hget
      · exact h
      · cases hget⟩
  else empty

def canRepresent (w number : ℕ) : Bool := number < w

def join (set : ProcessorSet w) (group : ℕ) (mask : BitVec w) (h : mask ≠ 0) : ProcessorSet w :=
  ⟨set.groups.insert group ((set.groups.get group).getD 0 ||| mask), by
    intro group' mask' hget
    rcases of_insert hget with ⟨-,rfl⟩ | hget
    · exact or_ne_zero h
    · exact set.nonzero group' mask' hget⟩

/-- `insert`: a processor number the word has no bit for is a panic. -/
def insert (set : ProcessorSet w) (group number : ℕ) : Except Panic (ProcessorSet w) :=
  if h : number < w then .ok (set.join group (1#w <<< number) (bit_ne_zero h))
  else .error (.processorNumber number)

def isEmpty (set : ProcessorSet w) : Bool := set.groups.entries.isEmpty

def contains (set : ProcessorSet w) (group number : ℕ) : Bool :=
  if w ≤ number then false
  else (set.groups.get group).any fun mask => mask &&& (1#w <<< number) != 0

def toList (set : ProcessorSet w) : List (ℕ × ℕ) :=
  set.groups.entries.flatMap fun entry =>
    ((List.range w).filter fun number => entry.2 &&& (1#w <<< number) != 0).map fun number =>
      (entry.1, number)

def len (set : ProcessorSet w) : ℕ :=
  (set.groups.vals.map fun mask => (List.range w).countP mask.getLsbD).sum

/-- `intersection`: a group the sets share no bit of is left out. -/
def intersection (set other : ProcessorSet w) : ProcessorSet w :=
  ⟨(set.groups.map fun group mask => mask &&& (other.groups.get group).getD 0).filter
    fun _ combined => combined ≠ 0, by
    intro group mask hget
    rw [Table.get_filter, Option.filter_eq_some_iff] at hget
    exact of_decide_eq_true hget.2⟩

/-- `union`: the masks of the other set are added group by group. -/
def union (set other : ProcessorSet w) : ProcessorSet w :=
  other.groups.entries.attach.foldl
    (fun result entry => result.join entry.1.1 entry.1.2
      (other.nonzero entry.1.1 entry.1.2 (Table.mem_entries.mp entry.2))) set

def isDisjoint (set other : ProcessorSet w) : Bool :=
  set.groups.entries.all fun entry =>
    (other.groups.get entry.1).all fun mask => entry.2 &&& mask == 0

def isSubset (set other : ProcessorSet w) : Bool :=
  set.groups.entries.all fun entry =>
    (other.groups.get entry.1).any fun mask => entry.2 &&& ~~~mask == 0

instance : DecidableEq (ProcessorSet w) := fun a b =>
  decidable_of_iff (a.groups.entries = b.groups.entries) (by
    constructor
    · intro h
      cases a with
      | mk groups nonzero =>
        cases b with
        | mk groups' nonzero' =>
          cases groups
          cases groups'
          cases h
          rfl
    · intro h
      rw [h])

/-! ## Membership -/

variable {mask : BitVec w}

theorem and_bit_ne_zero (h : number < w) :
    (mask &&& (1#w <<< number) != 0)=mask.getLsbD number := by
  have hand : mask &&& (1#w <<< number) =
      if mask.getLsbD number then BitVec.twoPow w number else 0#w:=BitVec.and_twoPow mask number
  rw [hand]
  have hbit : BitVec.twoPow w number≠0:=bit_ne_zero h
  cases mask.getLsbD number with
  | true=>simpa using hbit
  | false=>simp

variable {set : ProcessorSet w} {group : ℕ}

theorem contains_iff : set.contains group number=true ↔
      ∃ mask,set.groups.get group=some mask ∧ mask.getLsbD number=true := by
  unfold contains
  by_cases h : w ≤ number
  · simp only [h,if_true,Bool.false_eq_true,false_iff,not_exists,not_and]
    intro mask _
    simp [BitVec.getLsbD_of_ge mask number h]
  · simp only [h,if_false,any_eq_true]
    simp only [and_bit_ne_zero (not_le.mp h)]

theorem lt_of_contains (h : set.contains group number=true) : number < w := by
  by_contra hge
  simp [contains,not_lt.mp hge] at h

theorem exists_contains (h : set.groups.get group=some mask) :
    ∃ number,set.contains group number=true := by
  have hne:=set.nonzero group mask h
  by_contra hnone
  apply hne
  ext i hi
  have hi' : ¬set.contains group i=true:=fun hc=>hnone ⟨i,hc⟩
  rw [contains_iff] at hi'
  have hbit : mask.getLsbD i≠true:=fun hb=>hi' ⟨mask,h,hb⟩
  rw [BitVec.getLsbD_eq_getElem hi] at hbit
  simpa using hbit

variable {a b : ProcessorSet w}

theorem ext_contains (h : ∀ group number,a.contains group number=b.contains group number) :
    a=b := by
  have hgroups : a.groups=b.groups:=by
    apply ext_get
    intro group
    cases ha : a.groups.get group with
    | none =>
      cases hb : b.groups.get group with
      | none=>rfl
      | some mask =>
        obtain ⟨number,hc⟩:=exists_contains hb
        rw [← h,contains_iff,ha] at hc
        obtain ⟨_,hcontra,_⟩:=hc
        cases hcontra
    | some mask =>
      cases hb : b.groups.get group with
      | none =>
        obtain ⟨number,hc⟩:=exists_contains ha
        rw [h,contains_iff,hb] at hc
        obtain ⟨_,hcontra,_⟩:=hc
        cases hcontra
      | some mask' =>
        congr 1
        ext i hi
        have hi':=h group i
        rw [Bool.eq_iff_iff,contains_iff,contains_iff,ha,hb] at hi'
        simp only [some.injEq,exists_eq_left'] at hi'
        rw [← BitVec.getLsbD_eq_getElem hi,← BitVec.getLsbD_eq_getElem hi]
        exact Bool.eq_iff_iff.mpr hi'
  cases a
  cases b
  cases hgroups
  rfl

@[simp] theorem contains_empty (group number : ℕ) :
    (empty : ProcessorSet w).contains group number=false := by
  rw [Bool.eq_false_iff,Ne,contains_iff]
  rintro ⟨mask,hget,_⟩
  cases hget

variable {group' : ℕ}

theorem contains_join {h : mask ≠ 0} : (set.join group mask h).contains group' number=true ↔
      set.contains group' number=true ∨ group'=group ∧ mask.getLsbD number=true := by
  rw [contains_iff,contains_iff]
  simp only [join,get_insert]
  by_cases heq : group'=group
  · subst heq
    cases hget : set.groups.get group' with
    | none | some old=>simp
  · simp [heq]

theorem contains_insert {set set' : ProcessorSet w} (h : set.insert group number=.ok set')
    {number' : ℕ} : set'.contains group' number'=true ↔
      set.contains group' number'=true ∨ group'=group ∧ number'=number := by
  unfold insert at h
  split_ifs at h with hlt
  cases h
  rw [contains_join]
  have hbit : (1#w <<< number).getLsbD number'=true ↔ number'=number:=by
    have htwo : (1#w <<< number).getLsbD number'=(BitVec.twoPow w number).getLsbD number':=rfl
    rw [htwo,BitVec.getLsbD_twoPow]
    simp only [Bool.and_eq_true,decide_eq_true_eq]
    omega
  rw [hbit]

theorem insert_ok (set : ProcessorSet w) (group : ℕ) (h : number < w) :
    ∃ set',set.insert group number=.ok set' := by
  simp [insert,h]

theorem contains_fromGroupMask : (fromGroupMask group mask).contains group' number=true ↔
      group'=group ∧ mask.getLsbD number=true := by
  unfold fromGroupMask
  split_ifs with h
  · rw [contains_iff]
    simp only [get_insert]
    by_cases heq : group'=group
    · simp [heq]
    · simp only [heq,if_false,false_and,iff_false]
      rintro ⟨_,hcontra,_⟩
      cases hcontra
  · have hzero : mask=0:=not_not.mp h
    simp [hzero]

/-! ## Inclusion -/

theorem isSubset_iff : a.isSubset b=true ↔
      ∀ group number,a.contains group number=true → b.contains group number=true := by
  unfold isSubset
  rw [List.all_eq_true]
  constructor
  · intro h group number hc
    obtain ⟨mask,hget,hbit⟩:=contains_iff.mp hc
    have hentry:=h (group,mask) (mem_entries.mpr hget)
    obtain ⟨other,hother,hand⟩:=(any_eq_true _ _).mp hentry
    refine contains_iff.mpr ⟨other,hother,?_⟩
    have hzero:=congrArg (fun word=>word.getLsbD number) (beq_iff_eq.mp hand)
    have hlt:=lt_of_contains hc
    simpa [hbit,hlt] using hzero
  · rintro h ⟨group,mask⟩ hmem
    have hget:=mem_entries.mp hmem
    obtain ⟨number,hc⟩:=exists_contains hget
    obtain ⟨other,hother,_⟩:=contains_iff.mp (h group number hc)
    refine (any_eq_true _ _).mpr ⟨other,hother,?_⟩
    rw [beq_iff_eq]
    ext i hi
    by_cases hbit : mask.getLsbD i=true
    · obtain ⟨other',hother',hbit'⟩:=contains_iff.mp (h group i (contains_iff.mpr ⟨mask,hget,hbit⟩))
      rw [hother] at hother'
      cases hother'
      rw [BitVec.getLsbD_eq_getElem hi] at hbit'
      simp [hbit']
    · rw [BitVec.getLsbD_eq_getElem hi] at hbit
      simp [hbit]

instance : PartialOrder (ProcessorSet w) where
  le a b := a.isSubset b = true
  le_refl a := isSubset_iff.mpr fun _ _ h => h
  le_trans a b c hab hbc := isSubset_iff.mpr fun group number h =>
    isSubset_iff.mp hbc group number (isSubset_iff.mp hab group number h)
  le_antisymm a b hab hba := ext_contains fun group number => Bool.eq_iff_iff.mpr
    ⟨isSubset_iff.mp hab group number, isSubset_iff.mp hba group number⟩

theorem le_iff : a ≤ b ↔ a.isSubset b=true := Iff.rfl

end ProcessorSet

end WindowsThreadpoolSys.Topology
