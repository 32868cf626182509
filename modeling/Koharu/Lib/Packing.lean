import Mathlib.Algebra.BigOperators.Intervals
import Mathlib.Algebra.Order.BigOperators.Group.Finset

/-!
# Pieces that follow each other

The pieces `a`, ..., `b - 1` have the lengths `len k` and follow each other without gaps: the piece
`k` starts at `start len a k`. If each of them is padded with zeros from `file k` to `mem k`, there
are two ways to lay them out, with and without the padding. `R` is what there is without it, and
zero behind the last piece.

* `exists_piece`: the piece that a position is in;
* `Tight`: only zeros come after a padded piece;
* `Tight.read`: then `R` at a position of the padded layout is what is there in that layout;
* `tight_of_read`: and only then, even if it is not looked at where that is zero.
-/

namespace Packing

variable {β : Type*} [Zero β] {len file mem : ℕ → ℕ} {R : ℕ → β} {a b k t u : ℕ}

/-- Where the piece `k` starts. -/
def start (len : ℕ → ℕ) (a k : ℕ) : ℕ := ∑ l ∈ Finset.Ico a k, len l

@[simp]
theorem start_self (len : ℕ → ℕ) (a : ℕ) : start len a a = 0 := by
  rw [start, Finset.Ico_self, Finset.sum_empty]

theorem start_succ (len : ℕ → ℕ) (hk : a ≤ k) : start len a (k + 1) = start len a k + len k :=
  Finset.sum_Ico_succ_top hk len

theorem start_mono (len : ℕ → ℕ) (hk : k ≤ b) : start len a k ≤ start len a b :=
  Finset.sum_le_sum_of_subset (Finset.Ico_subset_Ico_right hk)

/-- Without the padding, pieces start earlier. -/
theorem start_le_start (hle : ∀ k, a ≤ k → k < b → file k ≤ mem k) (hk : k ≤ b) :
    start file a k ≤ start mem a k := by
  apply Finset.sum_le_sum
  intro l hl
  obtain ⟨hal, hlk⟩ := Finset.mem_Ico.mp hl
  exact hle l hal (by omega)

/-- Every position is in one of the pieces. -/
theorem exists_piece (hab : a ≤ b) (hu : u < start len a b) :
    ∃ k, a ≤ k ∧ k < b ∧ start len a k ≤ u ∧ u < start len a (k + 1) := by
  induction b, hab using Nat.le_induction with
  | base =>
      rw [start_self] at hu
      exact absurd hu (Nat.not_lt_zero u)
  | succ b hab ih =>
      by_cases hlast : start len a b ≤ u
      · exact ⟨b, hab, Nat.lt_succ_self b, hlast, hu⟩
      · obtain ⟨k, hak, hkb, hpiece⟩ := ih (by omega)
        exact ⟨k, hak, by omega, hpiece⟩

/-- The piece `k` at `t`, padded with zeros. -/
def padded (file : ℕ → ℕ) (R : ℕ → β) (a k t : ℕ) : β :=
  if t < file k then R (start file a k + t) else 0

/-- There are only zeros in the pieces after one that is padded. -/
def Tight (file mem : ℕ → ℕ) (R : ℕ → β) (a b : ℕ) : Prop :=
  ∀ i k, a ≤ i → i < k → k < b → file i = mem i ∨ ∀ t < file k, padded file R a k t = 0

section Read

variable (hzero : ∀ u, start file a b ≤ u → R u = 0)

include hzero

/-- Behind a padded piece there are only zeros. -/
theorem Tight.eq_zero (h : Tight file mem R a b) {i : ℕ} (hai : a ≤ i) (hib : i < b)
    (hpad : file i ≠ mem i) (hu : start file a (i + 1) ≤ u) : R u = 0 := by
  by_cases hend : start file a b ≤ u
  · exact hzero u hend
  · obtain ⟨k, hak, hkb, hlow, hhigh⟩ := exists_piece (by omega : a ≤ b) (not_le.mp hend)
    -- the piece that `u` is in comes after the padded one
    have hik : i < k := by
      by_contra hki
      have hmono := @start_mono a (i + 1) (k + 1) file (by omega)
      omega
    rw [start_succ file hak] at hhigh
    have hpiece := (h i k hai hik hkb).resolve_left hpad (u - start file a k) (by omega)
    rw [padded, if_pos (by omega), Nat.add_sub_cancel' hlow] at hpiece
    exact hpiece

variable (hle : ∀ k, a ≤ k → k < b → file k ≤ mem k)

include hle

/-- The padded layout is read off the other one. -/
theorem Tight.read (h : Tight file mem R a b) (hak : a ≤ k) (hkb : k < b) (ht : t < mem k) :
    R (start mem a k + t) = padded file R a k t := by
  by_cases hpad : ∀ i, a ≤ i → i < k → file i = mem i
  · -- no padding before this piece
    have hstart : start mem a k = start file a k := by
      apply Finset.sum_congr rfl
      intro i hi
      obtain ⟨hai, hik⟩ := Finset.mem_Ico.mp hi
      exact (hpad i hai hik).symm
    rw [padded, hstart]
    split
    case isTrue => rfl
    case isFalse hfile =>
      apply h.eq_zero hzero hak hkb (by omega)
      rw [start_succ file hak]
      omega
  · push Not at hpad
    obtain ⟨i, hai, hik, hpad⟩ := hpad
    have hpiece := (h i k hai hik hkb).resolve_left hpad
    have hright : padded file R a k t = 0 := by
      by_cases hfile : t < file k
      · exact hpiece t hfile
      · exact if_neg hfile
    rw [hright]
    apply h.eq_zero hzero hai (by omega) hpad
    have hmono := @start_mono a k (i + 1) file (by omega)
    have hshift := start_le_start hle (by omega : k ≤ b)
    omega

/-- Where the padded layout is read off the other one, at least where it is not zero, the padding is
at the end. -/
theorem tight_of_read (hread : ∀ k t, a ≤ k → k < b → t < mem k →
      padded file R a k t = 0 ∨ R (start mem a k + t) = padded file R a k t) :
    Tight file mem R a b := by
  intro i k hai hik hkb
  by_cases hpad : file i = mem i
  · exact Or.inl hpad
  -- from the end backwards: each byte is zero, or the same as one further on
  have hback : ∀ n u, start file a b ≤ u + n → start file a (i + 1) ≤ u → R u = 0 := by
    intro n
    induction n with
    | zero => exact fun u hend _ => hzero u hend
    | succ n ih =>
        intro u hend hu
        by_cases hlast : start file a b ≤ u
        · exact hzero u hlast
        obtain ⟨q, haq, hqb, hlow, hhigh⟩ := exists_piece (by omega : a ≤ b) (not_le.mp hlast)
        have hiq : i < q := by
          by_contra hqi
          have hmono := @start_mono a (i + 1) (q + 1) file (by omega)
          omega
        rw [start_succ file haq] at hhigh
        have hpiece : padded file R a q (u - start file a q) = R u := by
          rw [padded, if_pos (by omega), Nat.add_sub_cancel' hlow]
        have hfile := hle q haq hqb
        rcases hread q (u - start file a q) haq hqb (by omega) with hnull | hsame
        · rw [← hpiece, hnull]
        · rw [← hpiece, ← hsame]
          -- the padding of `i` lies between
          have hgap : start file a q < start mem a q := by
            refine Finset.sum_lt_sum (fun l hl => ?_) ⟨i, Finset.mem_Ico.mpr ⟨hai, hiq⟩, ?_⟩
            · obtain ⟨hal, hlq⟩ := Finset.mem_Ico.mp hl
              exact hle l hal (by omega)
            · exact lt_of_le_of_ne (hle i hai (by omega)) hpad
          exact ih _ (by omega) (by omega)
  apply Or.inr
  intro t ht
  rw [padded, if_pos ht]
  apply hback (start file a b) _ (Nat.le_add_left _ _)
  have hmono := @start_mono a k (i + 1) file (by omega)
  omega

end Read

end Packing
