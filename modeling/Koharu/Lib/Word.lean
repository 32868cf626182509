import Mathlib.Data.BitVec

/-!
# Masks

`x &&& mask`, where `mask` has the `w` bits from bit `a` on set, in arithmetic.
-/

namespace Koharu.Word

theorem land_mask (x a w : ℕ) : x &&& ((2 ^ w - 1) * 2 ^ a) = x / 2 ^ a % 2 ^ w * 2 ^ a := by
  apply Nat.eq_of_testBit_eq
  intro i
  rw [Nat.testBit_and, Nat.testBit_mul_two_pow, Nat.testBit_mul_two_pow,
    Nat.testBit_two_pow_sub_one, Nat.testBit_mod_two_pow, Nat.testBit_div_two_pow]
  by_cases hi : a ≤ i
  · rw [Nat.sub_add_cancel hi]
    simp [hi, Bool.and_comm]
  · simp [hi]

theorem toNat_and_mask {n : ℕ} {m : BitVec n} {a w : ℕ} (h : m.toNat = (2 ^ w - 1) * 2 ^ a)
    (x : BitVec n) : (x &&& m).toNat = x.toNat / 2 ^ a % 2 ^ w * 2 ^ a := by
  rw [BitVec.toNat_and, h, land_mask]

/-- Masking off the low bits rounds down. -/
theorem toNat_and_high {n a : ℕ} {mask : BitVec n} (h : mask.toNat = (2 ^ (n - a) - 1) * 2 ^ a)
    (ha : a ≤ n) (x : BitVec n) : (x &&& mask).toNat = x.toNat / 2 ^ a * 2 ^ a := by
  rw [toNat_and_mask h, Nat.mod_eq_of_lt]
  rw [Nat.div_lt_iff_lt_mul (Nat.two_pow_pos a), ← pow_add, Nat.sub_add_cancel ha]
  exact x.isLt

/-- Keeping the low bits is taking the remainder. -/
theorem toNat_and_low {n w : ℕ} {mask : BitVec n} (h : mask.toNat = 2 ^ w - 1) (x : BitVec n) :
    (x &&& mask).toNat = x.toNat % 2 ^ w := by
  have := toNat_and_mask (a := 0) (w := w) (by simpa using h) x
  simpa using this

end Koharu.Word
