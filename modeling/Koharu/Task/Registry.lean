import Koharu.Arch.Pmap

/-!
# The registry of threads

`kernel/task/thread.c`. The array `g_threads` has a pointer for each tid, and is moved to a larger
place by `krealloc` when a tid is not below its capacity. The result of `krealloc` is an argument
here; it keeps the old contents, and what is behind them is cleared.

A registry with room for threads has an array, so that `thread_lookup` finds what has been
registered.
-/

namespace Koharu

/-- The static variables of `thread.c`. -/
structure Registry where
  /-- `g_threads`. -/
  gThreads : Addr
  /-- `g_threads[i]`. -/
  slots : ℕ → Addr
  /-- `g_threads_cap`. -/
  cap : ℕ
  /-- `g_next_tid`. -/
  nextTid : BitVec 32
  /-- There is an array as soon as there is room. -/
  allocated : 0 < cap → gThreads ≠ 0

namespace Registry

variable (r : Registry)

/-- `thread_lookup`. -/
def threadLookup (tid : BitVec 64) : Addr :=
  if r.gThreads ≠ 0 ∧ tid.toNat < r.cap then r.slots tid.toNat else 0

/-- `thread_alloc_tid`. -/
def threadAllocTid : BitVec 32 × Registry := (r.nextTid, { r with nextTid := r.nextTid + 1 })

/-- `while (new_cap <= need) new_cap *= 2`, with a bound on its iterations. A tid has 32 bits. -/
def growCap (need : ℕ) : ℕ → ℕ → ℕ
  | 0, newCap => newCap
  | left + 1, newCap => if newCap ≤ need then growCap need left (newCap * 2) else newCap

/-- `new_cap` in `thread_reg_grow`. -/
def newCap (need : ℕ) : ℕ := growCap need 32 (if r.cap ≠ 0 then r.cap * 2 else 16)

/-- `thread_reg_grow`, where `newArr` is what `krealloc` returns. -/
def threadRegGrow (need : ℕ) (newArr : Addr) : Option Registry :=
  if h : newArr = 0 then none
  else some {
    gThreads := newArr
    slots := fun i => if i < r.cap then r.slots i else 0
    cap := r.newCap need
    nextTid := r.nextTid
    allocated := fun _ => h }

/-- `g_threads[tid] = t`. -/
def setSlot (tid : ℕ) (t : Addr) : Registry := { r with slots := Function.update r.slots tid t }

/-- `thread_register`, for the thread at `t`. -/
def threadRegister (tid : BitVec 32) (t newArr : Addr) : Option Registry :=
  if tid.toNat ≥ r.cap then do
    let r ← r.threadRegGrow tid.toNat newArr
    return r.setSlot tid.toNat t
  else some (r.setSlot tid.toNat t)

/-- `thread_destroy`. -/
def threadDestroy (tid : BitVec 32) : Registry :=
  if tid.toNat < r.cap then r.setSlot tid.toNat 0 else r

/-! ### Growing

The capacity is doubled until the tid fits. -/

/-- Doubling often enough gives room. -/
theorem lt_growCap {need : ℕ} (left newCap : ℕ) (h : need < newCap * 2 ^ left) :
    need < growCap need left newCap := by
  induction left generalizing newCap with
  | zero =>
      rw [growCap]
      simpa using h
  | succ left ih =>
      rw [growCap]
      split
      case isTrue => exact ih _ (by rwa [Nat.mul_assoc, ← Nat.pow_succ'])
      case isFalse hlt => exact Nat.lt_of_not_le hlt

/-- It never makes the table smaller. -/
theorem le_growCap (need left newCap : ℕ) : newCap ≤ growCap need left newCap := by
  induction left generalizing newCap with
  | zero => exact le_rfl
  | succ left ih =>
      rw [growCap]
      split
      case isTrue => exact (Nat.le_mul_of_pos_right _ (by decide)).trans (ih _)
      case isFalse => exact le_rfl

/-- Once there is room, more iterations change nothing. -/
theorem growCap_add {need left newCap : ℕ} (h : need < newCap * 2 ^ left) (more : ℕ) :
    growCap need (left + more) newCap = growCap need left newCap := by
  induction left generalizing newCap with
  | zero =>
      rw [Nat.pow_zero, Nat.mul_one] at h
      rw [Nat.zero_add]
      cases more with
      | zero => rfl
      | succ more => rw [growCap, growCap, if_neg (Nat.not_le.mpr h)]
  | succ left ih =>
      rw [Nat.succ_add, growCap, growCap]
      split
      case isTrue => exact ih (by rwa [Nat.mul_assoc, ← Nat.pow_succ'])
      case isFalse => rfl

/-- The capacity stops at twice what is needed. -/
theorem growCap_le (need left newCap : ℕ) : growCap need left newCap ≤ max newCap (2 * need) := by
  induction left generalizing newCap with
  | zero => exact le_max_left _ _
  | succ left ih =>
      rw [growCap]
      split
      case isTrue hle => exact (ih _).trans (by omega)
      case isFalse => exact le_max_left _ _

variable {r} {r' : Registry} {tid : BitVec 32} {t newArr : Addr}

/-- The loop starts with what has room after 32 iterations. -/
theorem lt_start_mul (tid : BitVec 32) :
    tid.toNat < (if r.cap ≠ 0 then r.cap * 2 else 16) * 2 ^ 32 := by
  refine tid.isLt.trans_le (Nat.le_mul_of_pos_left _ ?_)
  split <;> omega

/-- The loop ends with room for the tid. -/
theorem lt_newCap (tid : BitVec 32) : tid.toNat < r.newCap tid.toNat :=
  lt_growCap _ _ (lt_start_mul tid)

/-- It has ended by then. -/
theorem growCap_eq_newCap (tid : BitVec 32) {left : ℕ} (hleft : 32 ≤ left) :
    growCap tid.toNat left (if r.cap ≠ 0 then r.cap * 2 else 16) = r.newCap tid.toNat := by
  obtain ⟨more, rfl⟩ := Nat.exists_eq_add_of_le hleft
  exact growCap_add (lt_start_mul tid) more

/-- There is less than twice the room that is needed, or the least that there can be. -/
theorem newCap_le {need : ℕ} (h : r.cap ≤ need) : r.newCap need ≤ max 16 (2 * need) := by
  refine (growCap_le _ _ _).trans (max_le ?_ (le_max_right _ _))
  split <;> omega

/-- The new capacity is no smaller than the old one. -/
theorem cap_le_newCap (need : ℕ) : r.cap ≤ r.newCap need := by
  refine le_trans ?_ (le_growCap _ _ _)
  split <;> omega

/-! ### What is found

The array as a partial map from tids to threads. -/

/-- Inside the table the lookup reads the slot. -/
theorem threadLookup_of_lt {u : BitVec 64} (h : u.toNat < r.cap) :
    r.threadLookup u = r.slots u.toNat :=
  if_pos ⟨r.allocated (Nat.zero_lt_of_lt h), h⟩

/-- Outside it finds nothing. -/
theorem threadLookup_of_ge {u : BitVec 64} (h : r.cap ≤ u.toNat) : r.threadLookup u = 0 :=
  if_neg fun hlt => absurd hlt.2 (Nat.not_lt.mpr h)

/-- The array has moved, with the same threads in it. -/
theorem threadLookup_threadRegGrow {need : ℕ} (h : r.threadRegGrow need newArr = some r')
    (u : BitVec 64) : r'.threadLookup u = r.threadLookup u := by
  rw [threadRegGrow] at h
  split at h
  case isTrue => cases h
  case isFalse =>
    obtain rfl := Option.some.inj h
    by_cases hold : u.toNat < r.cap
    · rw [threadLookup_of_lt hold, threadLookup_of_lt (hold.trans_le (r.cap_le_newCap need))]
      exact if_pos hold
    · rw [threadLookup_of_ge (Nat.le_of_not_lt hold)]
      by_cases hnew : u.toNat < r.newCap need
      · rw [threadLookup_of_lt hnew]
        exact if_neg hold
      · exact threadLookup_of_ge (Nat.le_of_not_lt hnew)

/-- Setting a slot changes the lookup of one number. -/
theorem threadLookup_setSlot {i : ℕ} (hi : i < r.cap) (u : BitVec 64) :
    (r.setSlot i t).threadLookup u = if u.toNat = i then t else r.threadLookup u := by
  by_cases hu : u.toNat < r.cap
  · have hu' : u.toNat < (r.setSlot i t).cap := hu
    rw [threadLookup_of_lt hu', threadLookup_of_lt hu]
    exact Function.update_apply ..
  · have hu' : (r.setSlot i t).cap ≤ u.toNat := Nat.le_of_not_lt hu
    rw [threadLookup_of_ge hu', threadLookup_of_ge (Nat.le_of_not_lt hu), if_neg (by omega)]

/-- A thread that has been registered is found, and all others as before. -/
theorem threadLookup_threadRegister (h : r.threadRegister tid t newArr = some r') (u : BitVec 64) :
    r'.threadLookup u = if u.toNat = tid.toNat then t else r.threadLookup u := by
  rw [threadRegister] at h
  split at h
  case isTrue =>
    obtain ⟨r₁, hgrow, hr'⟩ := Option.bind_eq_some_iff.mp h
    obtain rfl := Option.some.inj hr'
    -- after growing there is a slot for the identifier; nothing else moves
    have hroom : tid.toNat < r₁.cap := by
      rw [threadRegGrow] at hgrow
      split at hgrow
      case isTrue => cases hgrow
      case isFalse =>
        obtain rfl := Option.some.inj hgrow
        exact lt_newCap tid
    rw [threadLookup_setSlot hroom, threadLookup_threadRegGrow hgrow]
  case isFalse hroom =>
    obtain rfl := Option.some.inj h
    exact threadLookup_setSlot (Nat.lt_of_not_le hroom) u

/-- A thread that has been destroyed is not found any more. -/
theorem threadLookup_threadDestroy (r : Registry) (tid : BitVec 32) (u : BitVec 64) :
    (r.threadDestroy tid).threadLookup u = if u.toNat = tid.toNat then 0 else r.threadLookup u := by
  rw [threadDestroy]
  split
  case isTrue hlt => exact threadLookup_setSlot hlt u
  case isFalse hlt =>
    split
    case isTrue hu => exact threadLookup_of_ge (by omega)
    case isFalse => rfl

end Registry

end Koharu
