import Mathlib.Data.Set.Card

/-!
# Counting keys by their values

A set of keys that have a value, or none, each. `Tally.count` is the number of keys with one value.
A counter for each value is exact if it is this number; what has to be known of a step is which keys
it adds or takes away for a value, and there is at most one at a time.
-/

namespace Tally

variable {K V : Type*}

/-- The keys with the value `v`. -/
def holders (keys : Set K) (value : K → Option V) (v : V) : Set K :=
  {x | x ∈ keys ∧ value x = some v}

/-- The number of keys with the value `v`. -/
noncomputable def count (keys : Set K) (value : K → Option V) (v : V) : ℕ :=
  (holders keys value v).ncard

variable {keys keys' : Set K} {value value' : K → Option V} {v : V} {x : K}

theorem mem_holders : x ∈ holders keys value v ↔ x ∈ keys ∧ value x = some v := Iff.rfl

theorem count_empty (value : K → Option V) (v : V) : count ∅ value v = 0 := by
  have hnone : holders ∅ value v = ∅ := by
    ext x
    exact iff_of_false (fun hx => hx.1) (Set.notMem_empty x)
  rw [count, hnone, Set.ncard_empty]

/-- Keys with other values do not count. -/
theorem count_congr (h : ∀ x, x ∈ holders keys' value' v ↔ x ∈ holders keys value v) :
    count keys' value' v = count keys value v :=
  congrArg Set.ncard (Set.ext h)

section Finite

variable [Finite K]

/-- One key more. -/
theorem count_succ (hnew : x ∈ holders keys' value' v) (hnot : x ∉ holders keys value v)
    (hrest : ∀ y ≠ x, (y ∈ holders keys' value' v ↔ y ∈ holders keys value v)) :
    count keys' value' v = count keys value v + 1 := by
  have hinsert : holders keys' value' v = insert x (holders keys value v) := by
    ext y
    by_cases hy : y = x
    · subst hy
      exact iff_of_true hnew (Set.mem_insert y _)
    · rw [hrest y hy, Set.mem_insert_iff, or_iff_right hy]
  rw [count, hinsert, Set.ncard_insert_of_notMem hnot]
  rfl

theorem count_eq_zero (h : ∀ x ∈ keys, value x ≠ some v) : count keys value v = 0 := by
  rw [count, Set.ncard_eq_zero (Set.toFinite _)]
  ext x
  exact iff_of_false (fun hx => h x hx.1 hx.2) (Set.notMem_empty x)

/-- Keys that are all one and the same. -/
theorem count_le_one (h : ∀ y ∈ keys, y = x) : count keys value v ≤ 1 :=
  (Set.ncard_le_one (Set.toFinite _)).mpr fun y hy z hz => (h y hy.1).trans (h z hz.1).symm

end Finite

end Tally
