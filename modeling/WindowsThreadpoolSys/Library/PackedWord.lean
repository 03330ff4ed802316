import Mathlib.Data.Nat.Bitwise
import Mathlib.Tactic.Ring
import Mathlib.Data.Nat.ModEq

/-! `pack` puts a high and a low field into one number, the low one in `bits` bits. Positions of a ring of
`capacity` slots that lie less than one lap apart have slots of their own. -/
namespace Library

def pack (bits high low : ℕ) : ℕ := (high <<< bits) ||| (low &&& (2 ^ bits - 1))

theorem pack_eq (bits high low : ℕ) : pack bits high low=high*2 ^ bits+low % 2 ^ bits := by
  have hlow : low % 2 ^ bits<2 ^ bits:=Nat.mod_lt _ (Nat.two_pow_pos bits)
  unfold pack
  rw [Nat.and_two_pow_sub_one_eq_mod,← Nat.shiftLeft_add_eq_or_of_lt hlow,Nat.shiftLeft_eq]

theorem pack_low (bits high low : ℕ) : pack bits high low &&& (2 ^ bits-1)=low % 2 ^ bits := by
  rw [Nat.and_two_pow_sub_one_eq_mod,pack_eq,Nat.add_comm,Nat.add_mul_mod_self_right,Nat.mod_mod]

theorem pack_high (bits high low : ℕ) : pack bits high low >>> bits=high := by
  have hlow : low % 2 ^ bits<2 ^ bits:=Nat.mod_lt _ (Nat.two_pow_pos bits)
  rw [Nat.shiftRight_eq_div_pow,pack_eq,Nat.add_comm,Nat.add_mul_div_right _ _ (Nat.two_pow_pos bits),
    Nat.div_eq_of_lt hlow,Nat.zero_add]

theorem pack_lt {bits word high : ℕ} (low : ℕ) (hbits : bits ≤ word) (hhigh : high<2 ^ (word-bits)) :
    pack bits high low<2 ^ word := by
  have hword : 2 ^ word=2 ^ (word-bits)*2 ^ bits:=by
    rw [← Nat.pow_add,Nat.sub_add_cancel hbits]
  rw [pack_eq,hword]
  calc high*2 ^ bits+low % 2 ^ bits < high*2 ^ bits+2 ^ bits:=by omega
    _=(high+1)*2 ^ bits:=by ring
    _≤2 ^ (word-bits)*2 ^ bits:=Nat.mul_le_mul_right _ hhigh

theorem ring_slot {bits k : ℕ} (position : ℕ) (hk : k ≤ bits) :
    (position % 2 ^ bits) &&& (2 ^ k-1)=position % 2 ^ k := by
  rw [Nat.and_two_pow_sub_one_eq_mod]
  exact Nat.mod_mod_of_dvd position (pow_dvd_pow 2 hk)

theorem ring_slot_inj {capacity head p q : ℕ} (hp : head ≤ p) (hp' : p < head+capacity)
    (hq : head ≤ q) (hq' : q < head+capacity) (h : p % capacity=q % capacity) : p=q := by
  rcases Nat.le_total p q with hle | hle
  · have hmod : (q-p) % capacity=0:=(Nat.modEq_iff_dvd' hle).mp h |> Nat.mod_eq_zero_of_dvd
    rw [Nat.mod_eq_of_lt (by omega)] at hmod
    omega
  · have hmod : (p-q) % capacity=0:=(Nat.modEq_iff_dvd' hle).mp h.symm |> Nat.mod_eq_zero_of_dvd
    rw [Nat.mod_eq_of_lt (by omega)] at hmod
    omega

end Library
