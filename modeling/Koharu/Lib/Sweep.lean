import Mathlib.Data.BitVec

/-!
# Loops over ranges of words

`for (x = lo; x < hi; x += step)` over words that wrap around. The loop looks at `lo`, `lo + step`
and so on, in this order.

* `Ends lo step hi`: one of them is not below `hi`, so that the loop ends;
* `ends_iff`: this is a bound on `hi`, if the step divides the number of all words.
-/

namespace Sweep

variable {w : ℕ} {lo step hi : BitVec w}

/-- What the loop looks at after `k` iterations. -/
def pos (lo step : BitVec w) (k : ℕ) : BitVec w := lo + BitVec.ofNat w k * step

/-- The loop comes to its end. -/
def Ends (lo step hi : BitVec w) : Prop := ∃ k, ¬ pos lo step k < hi

theorem pos_zero (lo step : BitVec w) : pos lo step 0 = lo := by
  simp [pos]

theorem pos_succ (lo step : BitVec w) (k : ℕ) : pos lo step (k + 1) = pos (lo + step) step k := by
  rw [pos, pos, BitVec.ofNat_add, BitVec.add_mul, BitVec.one_mul,
    BitVec.add_comm (BitVec.ofNat w k * step), BitVec.add_assoc]

/-- The rule for loops that end. `P` is to be shown for what the loop starts with. -/
theorem Ends.rec_on {P : BitVec w → Prop} (h : Ends lo step hi)
    (hexit : ∀ x, ¬ x < hi → P x) (hnext : ∀ x, x < hi → P (x + step) → P x) : P lo := by
  obtain ⟨k, hk⟩ := h
  induction k generalizing lo with
  | zero =>
      rw [pos_zero] at hk
      exact hexit lo hk
  | succ k ih =>
      by_cases hlt : lo < hi
      · rw [pos_succ] at hk
        exact hnext lo hlt (ih hk)
      · exact hexit lo hlt

/-- A loop that does not end goes on, and does not end from there. -/
theorem next_of_not_ends (h : ¬ Ends lo step hi) : lo < hi ∧ ¬ Ends (lo + step) step hi := by
  refine ⟨by_contra fun hlt => h ⟨0, by rwa [pos_zero]⟩, ?_⟩
  rintro ⟨k, hk⟩
  exact h ⟨k + 1, by rwa [pos_succ]⟩

theorem toNat_pos (lo step : BitVec w) (k : ℕ) :
    (pos lo step k).toNat = (lo.toNat + k * step.toNat) % 2 ^ w := by
  rw [pos, BitVec.toNat_add, BitVec.toNat_mul, BitVec.toNat_ofNat]
  simp only [Nat.add_mod_mod, Nat.mod_mul_mod]

/-- The last word that a loop can look at is the largest with the remainder of the first one. -/
theorem ends_iff (hstep : step.toNat ∣ 2 ^ w) :
    Ends lo step hi ↔ hi.toNat ≤ 2 ^ w - step.toNat + lo.toNat % step.toNat := by
  obtain ⟨n, hn⟩ := hstep
  have hpos : 0 < step.toNat := by
    rcases Nat.eq_zero_or_pos step.toNat with hzero | hpos
    · rw [hzero, Nat.zero_mul] at hn
      exact absurd hn (Nat.two_pow_pos w).ne'
    · exact hpos
  have hlo : step.toNat * (lo.toNat / step.toNat) + lo.toNat % step.toNat = lo.toNat :=
    Nat.div_add_mod _ _
  have hmod := Nat.mod_lt lo.toNat hpos
  have hlast : 2 ^ w - step.toNat = step.toNat * (n - 1) := by rw [hn, Nat.mul_sub_one]
  have hn' : 0 < n := by
    rcases Nat.eq_zero_or_pos n with hzero | hpos
    · rw [hzero, Nat.mul_zero] at hn
      exact absurd hn (Nat.two_pow_pos w).ne'
    · exact hpos
  rw [hlast]
  constructor
  -- a position has the remainder of the first one, and its quotient is below `n`
  · rintro ⟨k, hk⟩
    rw [BitVec.not_lt, BitVec.le_def] at hk
    apply hk.trans
    have hrem : (pos lo step k).toNat % step.toNat = lo.toNat % step.toNat := by
      rw [toNat_pos, hn, Nat.mod_mul_right_mod, Nat.add_mul_mod_self_right]
    have hdiv : (pos lo step k).toNat / step.toNat < n := by
      rw [Nat.div_lt_iff_lt_mul hpos, Nat.mul_comm, ← hn]
      exact (pos lo step k).isLt
    calc (pos lo step k).toNat
        = step.toNat * ((pos lo step k).toNat / step.toNat) + lo.toNat % step.toNat := by
          rw [← hrem, Nat.div_add_mod]
      _ ≤ step.toNat * (n - 1) + lo.toNat % step.toNat :=
          Nat.add_le_add_right (Nat.mul_le_mul_left _ (by omega)) _
  -- the last position of that kind is reached after this many steps
  · intro hhi
    have hquot : lo.toNat / step.toNat ≤ n - 1 := by
      have : lo.toNat / step.toNat < n := by
        rw [Nat.div_lt_iff_lt_mul hpos, Nat.mul_comm, ← hn]
        exact lo.isLt
      omega
    refine ⟨n - 1 - lo.toNat / step.toNat, ?_⟩
    rw [BitVec.not_lt, BitVec.le_def, toNat_pos]
    have hsum : lo.toNat + (n - 1 - lo.toNat / step.toNat) * step.toNat =
        step.toNat * (n - 1) + lo.toNat % step.toNat := by
      have hsplit : (n - 1 - lo.toNat / step.toNat) * step.toNat +
          step.toNat * (lo.toNat / step.toNat) = step.toNat * (n - 1) := by
        rw [Nat.mul_comm _ step.toNat, ← Nat.mul_add, Nat.sub_add_cancel hquot]
      omega
    rw [hsum, Nat.mod_eq_of_lt]
    · exact hhi
    · rw [hn]
      calc step.toNat * (n - 1) + lo.toNat % step.toNat
          < step.toNat * (n - 1) + step.toNat := Nat.add_lt_add_left hmod _
        _ = step.toNat * n := by rw [← Nat.mul_succ, Nat.succ_eq_add_one, Nat.sub_add_cancel hn']

end Sweep
