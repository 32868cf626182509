import Mathlib.Data.Nat.Bitwise
import Mathlib.Data.Set.Pairwise.Lattice
import Mathlib.Order.CompletePartialOrder
import Mathlib.Order.Interval.Set.Basic
import Mathlib.Tactic.Ring

/-!
# Aligned blocks of a power of two

A block of order `k` is a run of `2 ^ k` consecutive numbers that starts at a multiple of
`2 ^ k`. Two blocks of one order make up one of the next order when they are buddies: their
starts differ in bit `k` alone. Buddy allocators compute the buddy by an exclusive or and the
start of the union by an and; this module turns both into additions.

The second part is about families of pairwise disjoint sets: replacing some members by new
ones inside their union keeps the family disjoint. Splitting a block, merging two buddies and
moving a block are all such replacements.
-/

/-- A run of `2 ^ order` consecutive numbers. -/
structure Block where
  /-- The first number. -/
  base : ℕ
  /-- The base-two logarithm of the length. -/
  order : ℕ
  deriving DecidableEq, Repr

namespace Block

/-- The numbers in the block. -/
def frames (b : Block) : Set ℕ := Set.Ico b.base (b.base + 2 ^ b.order)

/-- The block starts at a multiple of its length. -/
def Aligned (b : Block) : Prop := 2 ^ b.order ∣ b.base

/-- The frames of a block are those from its base on. -/
@[simp]
theorem mem_frames {b : Block} {f : ℕ} :
    f ∈ b.frames ↔ b.base ≤ f ∧ f < b.base + 2 ^ b.order := Iff.rfl

/-- A block is never empty. -/
theorem base_mem_frames (b : Block) : b.base ∈ b.frames :=
  ⟨le_rfl, Nat.lt_add_of_pos_right (Nat.two_pow_pos _)⟩

/-! ### Buddies

The buddy of a block is found by flipping the bit of its size. Both halves together are the block of
the next order. -/

private theorem two_mul_xor_one (t : ℕ) : (2 * t) ^^^ 1 = 2 * t + 1 := by
  apply Nat.eq_of_testBit_eq
  intro i
  cases i with
  | zero => simp
  | succ i => simp [Nat.testBit_succ, Nat.mul_add_div]

private theorem two_mul_add_one_xor_one (t : ℕ) : (2 * t + 1) ^^^ 1 = 2 * t := by
  rw [← two_mul_xor_one, Nat.xor_assoc, Nat.xor_self, Nat.xor_zero]

private theorem two_mul_and_succ (t : ℕ) : (2 * t) &&& (2 * t + 1) = 2 * t := by
  apply Nat.eq_of_testBit_eq
  intro i
  cases i with
  | zero => simp
  | succ i =>
      have hhalf : (2 * t + 1) / 2 = t := by omega
      rw [Nat.testBit_and, Nat.testBit_succ, Nat.testBit_succ, hhalf]
      simp

private theorem two_pow_mul_xor (k m n : ℕ) : (2 ^ k * m) ^^^ (2 ^ k * n) = 2 ^ k * (m ^^^ n) := by
  simp only [Nat.mul_comm (2 ^ k), ← Nat.shiftLeft_eq, Nat.shiftLeft_xor_distrib]

private theorem two_pow_mul_and (k m n : ℕ) : (2 ^ k * m) &&& (2 ^ k * n) = 2 ^ k * (m &&& n) := by
  simp only [Nat.mul_comm (2 ^ k), ← Nat.shiftLeft_eq, Nat.shiftLeft_and_distrib]

/-- The buddy of the lower half of a block is the upper half. -/
theorem xor_two_pow_of_dvd {p k : ℕ} (h : 2 ^ (k + 1) ∣ p) : p ^^^ 2 ^ k = p + 2 ^ k := by
  obtain ⟨t, rfl⟩ := h
  rw [pow_succ, mul_assoc]
  nth_rewrite 2 [← mul_one (2 ^ k)]
  rw [two_pow_mul_xor, two_mul_xor_one]
  ring

/-- A start and its buddy are the two halves of one block of the next order, which starts at
their bitwise and. -/
theorem and_xor_two_pow {p k : ℕ} (h : 2 ^ k ∣ p) :
    2 ^ (k + 1) ∣ p &&& (p ^^^ 2 ^ k) ∧
      ((p = p &&& (p ^^^ 2 ^ k) ∧ p ^^^ 2 ^ k = (p &&& (p ^^^ 2 ^ k)) + 2 ^ k) ∨
        (p ^^^ 2 ^ k = p &&& (p ^^^ 2 ^ k) ∧ p = (p &&& (p ^^^ 2 ^ k)) + 2 ^ k)) := by
  obtain ⟨m, rfl⟩ := h
  have hxor : 2 ^ k * m ^^^ 2 ^ k = 2 ^ k * (m ^^^ 1) := by
    conv_lhs => rw [← mul_one (2 ^ k), mul_assoc, one_mul]
    exact two_pow_mul_xor k m 1
  rw [hxor, two_pow_mul_and]
  rcases Nat.even_or_odd' m with ⟨t, rfl | rfl⟩
  · rw [two_mul_xor_one, two_mul_and_succ]
    exact ⟨⟨t, by ring⟩, Or.inl ⟨rfl, by ring⟩⟩
  · rw [two_mul_add_one_xor_one, Nat.and_comm, two_mul_and_succ]
    exact ⟨⟨t, by ring⟩, Or.inr ⟨rfl, by ring⟩⟩

/-- The lower half of an aligned block. -/
theorem frames_lower_subset (p k : ℕ) : (⟨p, k⟩ : Block).frames ⊆ (⟨p, k + 1⟩ : Block).frames := by
  intro f hf
  simp only [mem_frames, pow_succ] at hf ⊢
  omega

/-- The upper half of an aligned block. -/
theorem frames_upper_subset (p k : ℕ) :
    (⟨p + 2 ^ k, k⟩ : Block).frames ⊆ (⟨p, k + 1⟩ : Block).frames := by
  intro f hf
  simp only [mem_frames, pow_succ] at hf ⊢
  omega

/-- The two halves of a block are disjoint. -/
theorem disjoint_halves (p k : ℕ) :
    Disjoint (⟨p, k⟩ : Block).frames (⟨p + 2 ^ k, k⟩ : Block).frames := by
  rw [Set.disjoint_left]
  intro f hf hf'
  simp only [mem_frames] at hf hf'
  omega

/-- Merging a block with its buddy gives exactly their union. -/
theorem frames_merge_subset {p k : ℕ} (h : 2 ^ k ∣ p) :
    (⟨p &&& (p ^^^ 2 ^ k), k + 1⟩ : Block).frames ⊆
      (⟨p, k⟩ : Block).frames ∪ (⟨p ^^^ 2 ^ k, k⟩ : Block).frames := by
  intro f hf
  simp only [Set.mem_union, mem_frames, pow_succ] at hf ⊢
  rcases (and_xor_two_pow h).2 with ⟨h₁, h₂⟩ | ⟨h₁, h₂⟩ <;> omega

end Block

/-! ### Replacing members of a disjoint family

Splitting takes one block away and brings two, merging the other way round. Both are cases of one
lemma. -/

/-- Replacing the members `R` of a disjoint family by members `T` that lie inside their union
keeps it disjoint. -/
theorem Set.PairwiseDisjoint.replace {ι α : Type*} {f : ι → Set α} {S R T : Set ι}
    (hS : S.PairwiseDisjoint f) (hR : R ⊆ S) (hT : T.PairwiseDisjoint f)
    (hsub : ∀ t ∈ T, f t ⊆ ⋃ r ∈ R, f r) : ((S \ R) ∪ T).PairwiseDisjoint f := by
  have hcross : ∀ s ∈ S \ R, ∀ t ∈ T, Disjoint (f s) (f t) := by
    intro s hs t ht
    apply Disjoint.mono_right (hsub t ht)
    rw [Set.disjoint_iUnion₂_right]
    intro r hr
    exact hS hs.1 (hR hr) fun hsr => hs.2 (hsr ▸ hr)
  rw [Set.pairwiseDisjoint_union]
  exact ⟨hS.subset Set.sdiff_subset, hT, fun s hs t ht _ => hcross s hs t ht⟩
