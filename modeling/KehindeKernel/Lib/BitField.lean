import Mathlib.Data.Nat.Bitwise

/-!
Bit fields of naturals as arithmetic. A mask that keeps bits `a .. b-1` is
`2 ^ b - 2 ^ a`; masking with it drops the high bits and rounds down.
-/

namespace BitField

theorem mask_bit (a b i : Nat) (order : a ≤ b) :
    (2 ^ b - 2 ^ a).testBit i = (decide (a ≤ i) && decide (i < b)) := by
  have shape : 2 ^ b - 2 ^ a = 2 ^ a * (2 ^ (b - a) - 1) := by
    rw [Nat.mul_sub, ← Nat.pow_add, Nat.add_sub_cancel' order, Nat.mul_one]
  rw [shape, Nat.testBit_two_pow_mul, Nat.testBit_two_pow_sub_one]
  by_cases low : a ≤ i
  · have inside : i - a < b - a ↔ i < b := by omega
    simp [low, inside]
  · simp [low]

/-- Keeping the bits `a .. b-1` of `x`. -/
theorem and_mask (x a b : Nat) (order : a ≤ b) :
    x &&& (2 ^ b - 2 ^ a) = x % 2 ^ b / 2 ^ a * 2 ^ a := by
  apply Nat.eq_of_testBit_eq
  intro i
  rw [Nat.testBit_and, mask_bit a b i order, Nat.mul_comm, Nat.testBit_two_pow_mul,
    Nat.testBit_div_two_pow, Nat.testBit_mod_two_pow]
  by_cases low : a ≤ i
  · have position : i - a + a = i := by omega
    simp only [low, position, decide_true, Bool.true_and]
    exact Bool.and_comm _ _
  · simp [low]

theorem and_low (x a : Nat) : x &&& (2 ^ a - 1) = x % 2 ^ a :=
  Nat.and_two_pow_sub_one_eq_mod x a

/-- A value whose set bits all lie in the field is left as it is. -/
theorem and_mask_self (x a b : Nat) (order : a ≤ b) (low : x % 2 ^ a = 0) (high : x < 2 ^ b) :
    x &&& (2 ^ b - 2 ^ a) = x := by
  rw [and_mask x a b order, Nat.mod_eq_of_lt high]
  exact Nat.div_mul_cancel (Nat.dvd_of_mod_eq_zero low)

theorem or_absorb (x y : Nat) : (x ||| y) &&& y = y := by
  apply Nat.eq_of_testBit_eq
  intro i
  rw [Nat.testBit_and, Nat.testBit_or]
  cases x.testBit i <;> cases y.testBit i <;> rfl

theorem or_disjoint (x y a : Nat) (low : x % 2 ^ a = 0) (small : y < 2 ^ a) :
    x ||| y = x + y := by
  have shape : x = 2 ^ a * (x / 2 ^ a) :=
    (Nat.mul_div_cancel' (Nat.dvd_of_mod_eq_zero low)).symm
  rw [shape]
  exact (Nat.two_pow_add_eq_or_of_lt small _).symm

end BitField
