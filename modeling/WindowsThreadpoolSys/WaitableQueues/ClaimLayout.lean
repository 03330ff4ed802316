import WindowsThreadpoolSys.Library.PackedWord

/-! A layout divides one word between the position the producers claim next and the count of reservations
outstanding. A ring is a layout together with a capacity its constructor accepts. -/
namespace WindowsThreadpoolSys.WaitableQueues
open Library

/-- A division of the word, with what `VALID` asserts of it. -/
structure ClaimLayout where
  wordBits : ℕ
  positionBits : ℕ
  count_read : 32 ≤ positionBits
  count_fits : positionBits < wordBits
  position_read : positionBits ≤ 64

def ClaimLayout.balanced : ClaimLayout := ⟨64, 32, by decide, by decide, by decide⟩
def ClaimLayout.enduring : ClaimLayout := ⟨64, 48, by decide, by decide, by decide⟩
def ClaimLayout.perpetual : ClaimLayout := ⟨64, 56, by decide, by decide, by decide⟩
def ClaimLayout.wide : ClaimLayout := ⟨128, 64, by decide, by decide, by decide⟩

namespace ClaimLayout

variable (L : ClaimLayout)

def positionMask : ℕ := 2 ^ L.positionBits - 1

def maxReserved : ℕ :=
  if 32 ≤ L.wordBits - L.positionBits then 2 ^ 32 - 1 else 2 ^ (L.wordBits - L.positionBits) - 1

/-- `BOUNDS_MAX`, for pointers of `pointerBits` bits. -/
def boundsMax (pointerBits : ℕ) : ℕ :=
  if pointerBits ≤ L.positionBits - 1 then 2 ^ (pointerBits - 2)
  else min (2 ^ (L.positionBits - 1)) (2 ^ (pointerBits - 2))

def positionOf (word : ℕ) : ℕ := word &&& L.positionMask

def reservedOf (word : ℕ) : ℕ := (word >>> L.positionBits) % 2 ^ 32

def claimWord (reserved position : ℕ) : ℕ := pack L.positionBits reserved position % 2 ^ L.wordBits

def advance (position : ℕ) : ℕ := ((position + 1) % 2 ^ 64) &&& L.positionMask

def distance (position head : ℕ) : ℕ := ((position + 2 ^ 64 - head) % 2 ^ 64) &&& L.positionMask

/-! ## Positions before the first wrap -/

variable {L}

theorem maxReserved_lt : L.maxReserved<2 ^ (L.wordBits-L.positionBits) := by
  have hpos:=Nat.two_pow_pos (L.wordBits-L.positionBits)
  unfold maxReserved
  split_ifs with hwide
  · have hle : 2 ^ 32≤2 ^ (L.wordBits-L.positionBits):=Nat.pow_le_pow_right (by decide) hwide
    omega
  · omega

theorem maxReserved_read : L.maxReserved<2 ^ 32 := by
  unfold maxReserved
  split_ifs with hwide
  · omega
  · have hle : 2 ^ (L.wordBits-L.positionBits)≤2 ^ 32:=Nat.pow_le_pow_right (by decide) (by omega)
    omega

variable {reserved : ℕ}

theorem claimWord_eq (position : ℕ) (h : reserved ≤ L.maxReserved) :
    L.claimWord reserved position=pack L.positionBits reserved position :=
  Nat.mod_eq_of_lt (pack_lt position L.count_fits.le (h.trans_lt maxReserved_lt))

theorem claimWord_zero (L : ClaimLayout) : L.claimWord 0 0=0 := by
  rw [claimWord_eq 0 (Nat.zero_le _),pack_eq,Nat.zero_mod,Nat.zero_mul]

variable {position : ℕ}

theorem positionOf_claimWord (h : reserved ≤ L.maxReserved) (hp : position<2 ^ L.positionBits) :
    L.positionOf (L.claimWord reserved position)=position := by
  rw [claimWord_eq position h]
  exact (pack_low _ _ _).trans (Nat.mod_eq_of_lt hp)

theorem reservedOf_claimWord (h : reserved ≤ L.maxReserved) :
    L.reservedOf (L.claimWord reserved position)=reserved := by
  rw [claimWord_eq position h,reservedOf,pack_high]
  exact Nat.mod_eq_of_lt (h.trans_lt maxReserved_read)

theorem bits_le : 2 ^ L.positionBits≤2 ^ 64 := Nat.pow_le_pow_right (by decide) L.position_read

theorem advance_eq (h : position+1<2 ^ L.positionBits) : L.advance position=position+1 := by
  have hbits:=L.bits_le
  have hword : (position+1) % 2 ^ 64=position+1:=Nat.mod_eq_of_lt (by omega)
  rw [advance,positionMask,Nat.and_two_pow_sub_one_eq_mod,hword,Nat.mod_eq_of_lt h]

theorem advance_last (h : position+1=2 ^ L.positionBits) : L.advance position=0 := by
  have hdvd : 2 ^ L.positionBits ∣ 2 ^ 64:=Nat.pow_dvd_pow 2 L.position_read
  rw [advance,positionMask,Nat.and_two_pow_sub_one_eq_mod,Nat.mod_mod_of_dvd _ hdvd,h,Nat.mod_self]

theorem distance_eq {head : ℕ} (hle : head ≤ position) (h : position<2 ^ L.positionBits) :
    L.distance position head=position-head := by
  have hbits:=L.bits_le
  have hsub : position+2 ^ 64-head=position-head+2 ^ 64:=by omega
  rw [distance,positionMask,Nat.and_two_pow_sub_one_eq_mod,hsub,Nat.add_mod_right,
    Nat.mod_eq_of_lt (by omega),Nat.mod_eq_of_lt (by omega)]

end ClaimLayout

structure Ring where
  layout : ClaimLayout
  pointerBits : ℕ
  shift : ℕ
  shift_pos : 0 < shift
  accepted : 2 ^ shift ≤ layout.boundsMax pointerBits

namespace Ring

variable (R : Ring)

def capacity : ℕ := 2 ^ R.shift

def slot (position : ℕ) : ℕ := (position % 2 ^ R.pointerBits) &&& (R.capacity - 1)

variable {R}

theorem capacity_pos : 0 < R.capacity := Nat.two_pow_pos R.shift

theorem shift_le_pointerBits : R.shift ≤ R.pointerBits := by
  have haccepted:=R.accepted
  have hle : 2 ^ R.shift≤2 ^ (R.pointerBits-2):=by
    unfold ClaimLayout.boundsMax at haccepted
    split_ifs at haccepted
    · exact haccepted
    · exact haccepted.trans (min_le_right _ _)
  have hshift:=(Nat.pow_le_pow_iff_right (by decide)).mp hle
  omega

theorem slot_eq (position : ℕ) : R.slot position=position % R.capacity :=
  ring_slot position R.shift_le_pointerBits

theorem slot_lt (position : ℕ) : R.slot position < R.capacity := by
  rw [slot_eq]
  exact Nat.mod_lt _ R.capacity_pos

end Ring

end WindowsThreadpoolSys.WaitableQueues
