import Mathlib.Data.List.Nodup
import Mathlib.Data.List.Sort
import Mathlib.Order.Interval.Finset.Nat
import Mathlib.Tactic.Ring

/-!
# The root pager's frame pool

The root server maps the kernel's pool bitmap at `ROOT_POOL_VA` and hands its frames out one
by one. `user/pager.c` keeps a cursor `pool_bit` into the bitmap: `pool_alloc` scans at most
`pool_bits` positions from the cursor, wraps at the end, and stops at the first set bit. It
never clears the bit it returns.

The module introduces:

* `Pager`, `pagerInit` and `poolAlloc`: the state and the allocator, as the source has them;
* `Pager.setBits`: the set positions of the bitmap in increasing order;
* `Pager.HandsOutOnce`: what a pool allocator is for. No frame is handed out twice, and once
  every frame of the pool is out, the allocator refuses.

The main fact is `allocs_pagerInit`: the `i`-th call returns the set bit number `i` modulo the
number of set bits. `handsOutOnce_iff` reads off that the cursor wraps onto frames already handed
out as soon as there are more calls than set bits.
-/

namespace Koharu

/-- The static variables of `user/pager.c` that `pool_alloc` reads and writes. -/
structure Pager where
  /-- The bytes of the bitmap at `ROOT_POOL_VA`. -/
  pool : ℕ → UInt8
  /-- The number of frames the bitmap describes. -/
  poolBits : ℕ
  /-- The cursor: the next position to look at. -/
  poolBit : ℕ

/-- `pager_init`: the cursor starts at the first frame. -/
def pagerInit (pool : ℕ → UInt8) (frameCount : ℕ) : Pager :=
  { pool, poolBits := frameCount, poolBit := 0 }

namespace Pager

/-- `pool[b / 8] & (1u << (b % 8))`, as a condition. -/
def bitSet (p : Pager) (b : ℕ) : Bool :=
  (p.pool (b / 8)).toNat &&& (1 <<< (b % 8)) != 0

/-- The loop of `pool_alloc`. The argument is `pool_bits - scanned`, the number of
iterations left; the loop leaves with `-1` when it is used up. -/
def poolScan (p : Pager) : ℕ → Option ℕ × Pager
  | 0 => (none, p)
  | left + 1 =>
      let p := if p.poolBit ≥ p.poolBits then { p with poolBit := 0 } else p
      if p.bitSet p.poolBit then
        (some p.poolBit, { p with poolBit := p.poolBit + 1 })
      else
        poolScan { p with poolBit := p.poolBit + 1 } left

/-- `pool_alloc`: the pfn stored in `*pfn_out`, or `none` for the result `-1`. -/
def poolAlloc (p : Pager) : Option ℕ × Pager :=
  p.poolScan p.poolBits

/-- The results of `n` successive calls of `pool_alloc`. -/
def allocs (p : Pager) : ℕ → List (Option ℕ)
  | 0 => []
  | n + 1 => p.poolAlloc.1 :: allocs p.poolAlloc.2 n

/-- The frames of the pool, in increasing order. -/
def setBits (p : Pager) : List ℕ :=
  (List.range p.poolBits).filter p.bitSet

/-- What the pool allocator is for, over `n` successive calls: the frames handed out are
pairwise distinct frames of the pool, and a call made when every frame of the pool is out is
refused. -/
structure HandsOutOnce (p : Pager) (n : ℕ) : Prop where
  /-- No frame is handed out twice. -/
  nodup : ((p.allocs n).filterMap id).Nodup
  /-- Only frames of the pool are handed out. -/
  mem_pool : ∀ b, some b ∈ p.allocs n → b < p.poolBits ∧ p.bitSet b
  /-- When every frame of the pool is out, the next call is refused. -/
  refused : ∀ i < n, (∀ b < p.poolBits, p.bitSet b → some b ∈ (p.allocs n).take i) →
    (p.allocs n)[i]? = some none

/-- The set bits are listed in strictly increasing order. -/
theorem setBits_pairwise (p : Pager) : p.setBits.Pairwise (· < ·) :=
  List.Pairwise.filter _ List.pairwise_lt_range

/-- A position is listed exactly when it is inside the bitmap and its bit is set. -/
theorem mem_setBits (p : Pager) (b : ℕ) : b ∈ p.setBits ↔ b < p.poolBits ∧ p.bitSet b := by
  simp [setBits]

/-- The pager with its cursor moved to `c`. -/
def seek (p : Pager) (c : ℕ) : Pager := { p with poolBit := c }

/-- The cursor after it was moved. -/
@[simp]
theorem seek_poolBit (p : Pager) (c : ℕ) : (p.seek c).poolBit = c := rfl

/-- Moving it leaves the number of bits. -/
@[simp]
theorem seek_poolBits (p : Pager) (c : ℕ) : (p.seek c).poolBits = p.poolBits := rfl

/-- The last move counts. -/
@[simp]
theorem seek_seek (p : Pager) (c d : ℕ) : (p.seek c).seek d = p.seek d := rfl

/-- The bits do not depend on the cursor. -/
@[simp]
theorem seek_bitSet (p : Pager) (c b : ℕ) : (p.seek c).bitSet b = p.bitSet b := rfl

/-- Nor does the list of those set. -/
@[simp]
theorem seek_setBits (p : Pager) (c : ℕ) : (p.seek c).setBits = p.setBits := rfl

/-! ### One scan

The scan stops at the first set bit from the cursor on. -/

/-- One iteration with the cursor inside the bitmap. -/
theorem poolScan_seek_of_lt {p : Pager} {c : ℕ} (left : ℕ) (h : c < p.poolBits) :
    (p.seek c).poolScan (left + 1) =
      if p.bitSet c then (some c, p.seek (c + 1)) else (p.seek (c + 1)).poolScan left := by
  have hneg : ¬ (p.seek c).poolBit ≥ (p.seek c).poolBits := by simpa using h
  simp only [poolScan, hneg, if_false]
  rfl

/-- A cursor at the end is the cursor `0`, as soon as one iteration runs. -/
theorem poolScan_seek_end (p : Pager) (left : ℕ) :
    (p.seek p.poolBits).poolScan (left + 1) = (p.seek 0).poolScan (left + 1) := by
  have hpos : (p.seek p.poolBits).poolBit ≥ (p.seek p.poolBits).poolBits := le_rfl
  simp only [poolScan, hpos, if_true]
  have hsame : (if (p.seek 0).poolBit ≥ (p.seek 0).poolBits then p.seek 0 else p.seek 0) =
      p.seek 0 := ite_self _
  exact congrArg (fun q : Pager => if q.bitSet q.poolBit then
    (some q.poolBit, q.seek (q.poolBit + 1)) else (q.seek (q.poolBit + 1)).poolScan left)
    hsame.symm

/-- A scan with enough iterations left stops at the first set bit at or after the cursor. -/
theorem poolScan_found {p : Pager} {c b left : ℕ} (hle : c ≤ b) (hb : b < p.poolBits)
    (hset : p.bitSet b) (hfirst : ∀ d, c ≤ d → d < b → ¬ p.bitSet d) (hleft : b < c + left) :
    (p.seek c).poolScan left = (some b, p.seek (b + 1)) := by
  induction left generalizing c with
  | zero => omega
  | succ left ih =>
      rw [poolScan_seek_of_lt left (by omega)]
      rcases Nat.eq_or_lt_of_le hle with rfl | hlt
      · rw [if_pos hset]
      · rw [if_neg (hfirst c le_rfl hlt)]
        exact ih hlt (fun d hd hdb => hfirst d (by omega) hdb) (by omega)

/-- With no set bit between the cursor and the end, the scan runs on to the end. -/
theorem poolScan_skip {p : Pager} {c left : ℕ} (hle : c ≤ p.poolBits)
    (hnone : ∀ d, c ≤ d → d < p.poolBits → ¬ p.bitSet d) (hleft : p.poolBits ≤ c + left) :
    (p.seek c).poolScan left =
      (p.seek p.poolBits).poolScan (left - (p.poolBits - c)) := by
  induction left generalizing c with
  | zero =>
      have heq : c = p.poolBits := by omega
      rw [heq, Nat.zero_sub]
  | succ left ih =>
      rcases Nat.eq_or_lt_of_le hle with rfl | hlt
      · rw [Nat.sub_self, Nat.sub_zero]
      · rw [poolScan_seek_of_lt left hlt, if_neg (hnone c le_rfl hlt),
          ih hlt (fun d hd hdb => hnone d (by omega) hdb) (by omega)]
        congr 1
        omega

/-- In a bitmap without set bits the scan finds nothing, wherever it starts. -/
theorem poolScan_eq_none {p : Pager} {c : ℕ} (left : ℕ) (hle : c ≤ p.poolBits)
    (hpos : 0 < p.poolBits) (hnone : ∀ d < p.poolBits, ¬ p.bitSet d) :
    ∃ c' ≤ p.poolBits, (p.seek c).poolScan left = (none, p.seek c') := by
  induction left generalizing c with
  | zero => exact ⟨c, hle, rfl⟩
  | succ left ih =>
      rcases Nat.eq_or_lt_of_le hle with rfl | hlt
      · rw [poolScan_seek_end, poolScan_seek_of_lt left hpos, if_neg (hnone 0 hpos)]
        exact ih (by omega)
      · rw [poolScan_seek_of_lt left hlt, if_neg (hnone c hlt)]
        exact ih hlt

/-! ### One call

A second scan starts from the beginning. No bit is cleared, so that frames may come up again. -/

/-- With a set bit at or after the cursor, the call returns the first of them. -/
theorem poolAlloc_found {p : Pager} {c b : ℕ} (hle : c ≤ b) (hb : b < p.poolBits)
    (hset : p.bitSet b) (hfirst : ∀ d, c ≤ d → d < b → ¬ p.bitSet d) :
    (p.seek c).poolAlloc = (some b, p.seek (b + 1)) :=
  poolScan_found hle hb hset hfirst (by simp; omega)

/-- With no set bit at or after the cursor, the call wraps and returns the first set bit of
the bitmap, handed out before or not. -/
theorem poolAlloc_wrap {p : Pager} {c b : ℕ} (hc : c ≤ p.poolBits) (hb : b < p.poolBits)
    (hset : p.bitSet b) (hfirst : ∀ d < b, ¬ p.bitSet d)
    (hnone : ∀ d, c ≤ d → d < p.poolBits → ¬ p.bitSet d) :
    (p.seek c).poolAlloc = (some b, p.seek (b + 1)) := by
  have hbc : b < c := by
    by_contra hge
    exact hnone b (by omega) hb hset
  rw [poolAlloc, poolScan_skip hc hnone (by simp)]
  obtain ⟨left, hleft⟩ : ∃ left, (p.seek c).poolBits - (p.poolBits - c) = left + 1 :=
    ⟨c - 1, by simp; omega⟩
  rw [hleft, poolScan_seek_end]
  apply poolScan_found (Nat.zero_le b) hb hset (fun d _ hd => hfirst d hd)
  simp only [seek_poolBits] at hleft
  omega

/-- In a bitmap without set bits every call is refused. -/
theorem poolAlloc_eq_none {p : Pager} {c : ℕ} (hle : c ≤ p.poolBits) (hempty : p.setBits = []) :
    ∃ c' ≤ p.poolBits, (p.seek c).poolAlloc = (none, p.seek c') := by
  rcases Nat.eq_zero_or_pos p.poolBits with hzero | hpos
  · refine ⟨c, hle, ?_⟩
    rw [poolAlloc, seek_poolBits, hzero, poolScan]
  · apply poolScan_eq_none _ hle hpos
    intro d hd hset
    have hmem : d ∈ p.setBits := (p.mem_setBits d).mpr ⟨hd, hset⟩
    rw [hempty] at hmem
    cases hmem

/-- Wherever the cursor is, a frame that is found is one of the pool. -/
theorem mem_setBits_of_poolScan {p : Pager} {b : ℕ} (left : ℕ) (hpos : 0 < p.poolBits)
    (h : (p.poolScan left).1 = some b) : b ∈ p.setBits := by
  induction left generalizing p with
  | zero => cases h
  | succ left ih =>
      -- past its end the scan starts over at bit zero
      obtain ⟨c, hc, hreset⟩ : ∃ c < p.poolBits,
          (if p.poolBit ≥ p.poolBits then { p with poolBit := 0 } else p) = p.seek c := by
        split
        next => exact ⟨0, hpos, rfl⟩
        next hlt => exact ⟨p.poolBit, not_le.mp hlt, rfl⟩
      rw [poolScan, hreset] at h
      split at h
      next hset =>
        obtain rfl := Option.some.inj h
        exact (p.mem_setBits c).mpr ⟨hc, hset⟩
      next => exact @ih (p.seek (c + 1)) hpos h

/-- A frame that is handed out has its bit set. -/
theorem mem_setBits_of_poolAlloc {p : Pager} {b : ℕ} (h : p.poolAlloc.1 = some b) :
    b ∈ p.setBits := by
  refine mem_setBits_of_poolScan p.poolBits (Nat.pos_of_ne_zero fun hzero => ?_) h
  rw [poolAlloc, hzero, poolScan] at h
  cases h

/-! ### Histories of calls

The set bits are returned in turn, which is once each if there are no more calls than bits. -/

/-- The cursor `c` stands just behind the first `j` set bits. -/
structure AtIndex (p : Pager) (c j : ℕ) : Prop where
  le_bits : c ≤ p.poolBits
  le_length : j ≤ p.setBits.length
  below_iff : ∀ m (hm : m < p.setBits.length), p.setBits[m] < c ↔ m < j

/-- The cursor `pager_init` sets stands before the first set bit. -/
theorem atIndex_zero (p : Pager) : p.AtIndex 0 0 :=
  ⟨Nat.zero_le _, Nat.zero_le _, fun _ _ => by simp⟩

/-- Behind the set bit number `j` stands the cursor for `j + 1`. -/
theorem atIndex_succ (p : Pager) {j : ℕ} (hj : j < p.setBits.length) :
    p.AtIndex (p.setBits[j] + 1) (j + 1) := by
  have hmem := (p.mem_setBits _).mp (List.getElem_mem hj)
  refine ⟨hmem.1, hj, fun m hm => ?_⟩
  rw [Nat.lt_succ_iff, Nat.lt_succ_iff]
  exact (List.sortedLT_iff_pairwise.mpr p.setBits_pairwise).strictMono_get.le_iff_le
    (a := ⟨m, hm⟩) (b := ⟨j, hj⟩)

/-- A set bit at or after the cursor has an index of at least `j`. -/
theorem AtIndex.exists_getElem {p : Pager} {c j d : ℕ} (h : p.AtIndex c j) (hcd : c ≤ d)
    (hd : d < p.poolBits) (hset : p.bitSet d) :
    ∃ m, ∃ hm : m < p.setBits.length, j ≤ m ∧ p.setBits[m] = d := by
  obtain ⟨m, hm, hmd⟩ := List.mem_iff_getElem.mp ((p.mem_setBits d).mpr ⟨hd, hset⟩)
  refine ⟨m, hm, ?_, hmd⟩
  by_contra hlt
  have := (h.below_iff m hm).mpr (by omega)
  omega

/-- One call from behind the first `j` of `k > 0` set bits returns the set bit number
`j % k`, and leaves the cursor just behind it. -/
theorem poolAlloc_of_atIndex {p : Pager} {c j : ℕ} (h : p.AtIndex c j)
    (hk : j % p.setBits.length < p.setBits.length) :
    (p.seek c).poolAlloc =
      (some p.setBits[j % p.setBits.length], p.seek (p.setBits[j % p.setBits.length] + 1)) := by
  have hmono := List.pairwise_iff_getElem.mp p.setBits_pairwise
  have hmem := (p.mem_setBits _).mp (List.getElem_mem hk)
  rcases Nat.eq_or_lt_of_le h.le_length with hend | hlt
  · -- every set bit is behind the cursor: the scan wraps to the first one
    have hzero : j % p.setBits.length = 0 := by rw [hend]; exact Nat.mod_self _
    refine poolAlloc_wrap h.le_bits hmem.1 hmem.2 (fun d hd hset => ?_)
      fun d hcd hd hset => ?_
    · obtain ⟨m, hm, -, rfl⟩ := (atIndex_zero p).exists_getElem (Nat.zero_le d)
        (by omega) hset
      have := hmono 0 m (by omega) hm
      rcases Nat.eq_zero_or_pos m with rfl | hpos
      · simp only [hzero, lt_self_iff_false] at hd
      · simp only [hzero] at hd
        omega
    · obtain ⟨m, hm, hjm, -⟩ := h.exists_getElem hcd hd hset
      omega
  · have hj : j % p.setBits.length = j := Nat.mod_eq_of_lt hlt
    refine poolAlloc_found ?_ hmem.1 hmem.2 fun d hcd hd hset => ?_
    · by_contra hlow
      have := (h.below_iff _ hk).mp (by omega)
      omega
    · obtain ⟨m, hm, hjm, rfl⟩ := h.exists_getElem hcd (by omega) hset
      rcases Nat.eq_or_lt_of_le hjm with rfl | hlt'
      · simp only [hj, lt_self_iff_false] at hd
      · have := hmono j m (by omega) hm hlt'
        simp only [hj] at hd
        omega

/-- A whole history: from behind the first `j` of `k` set bits, call number `i` returns the
set bit number `(j + i) % k`, and is refused when there is none. -/
theorem allocs_of_atIndex {p : Pager} {c j : ℕ} (h : p.AtIndex c j) (n : ℕ) :
    (p.seek c).allocs n =
      (List.range n).map fun i => p.setBits[(j + i) % p.setBits.length]? := by
  induction n generalizing c j with
  | zero => rfl
  | succ n ih =>
      rw [allocs, List.range_succ_eq_map, List.map_cons, List.map_map]
      -- an empty pool refuses every call; else each call gives the next set bit, around the end too
      rcases Nat.eq_zero_or_pos p.setBits.length with hzero | hpos
      · have hempty : p.setBits = [] := List.eq_nil_of_length_eq_zero hzero
        obtain ⟨c', hc', hcall⟩ := poolAlloc_eq_none h.le_bits hempty
        have hj : j = 0 := by have := h.le_length; omega
        rw [hcall, ih (c := c') (j := 0) ⟨hc', Nat.zero_le _, fun m hm => by omega⟩]
        simp [hempty, Function.comp_def]
      · have hk : j % p.setBits.length < p.setBits.length := Nat.mod_lt _ hpos
        rw [poolAlloc_of_atIndex h hk, ih (atIndex_succ p hk)]
        congr 1
        · exact (List.getElem?_eq_getElem hk).symm
        · apply List.map_congr_left
          intro i _
          have hmod : (j % p.setBits.length + 1 + i) % p.setBits.length =
              (j + (i + 1)) % p.setBits.length := by
            rw [show j % p.setBits.length + 1 + i = j % p.setBits.length + (i + 1) by ring,
              Nat.mod_add_mod]
          simp only [Function.comp, hmod]

/-- After `pager_init`, call number `i` returns the set bit number `i` modulo the number of
set bits. -/
theorem allocs_pagerInit (pool : ℕ → UInt8) (frameCount n : ℕ) :
    (pagerInit pool frameCount).allocs n = (List.range n).map fun i =>
      (pagerInit pool frameCount).setBits[i % (pagerInit pool frameCount).setBits.length]? := by
  have h := allocs_of_atIndex (atIndex_zero (pagerInit pool frameCount)) n
  simp only [Nat.zero_add] at h
  exact h

/-- Calls that are all refused hand out nothing. -/
theorem handsOutOnce_of_refused {p : Pager} {n : ℕ}
    (hcalls : p.allocs n = (List.range n).map fun _ => none) : p.HandsOutOnce n where
  nodup := by simp [hcalls]
  mem_pool b hb := by simp [hcalls] at hb
  refused i hi _ := by simp [hcalls, hi]

/-- While there are no more calls than set bits, the calls return the first set bits in
order, each once. -/
theorem handsOutOnce_of_le {p : Pager} {n : ℕ} (hn : n ≤ p.setBits.length)
    (hcalls : p.allocs n = (p.setBits.take n).map some) : p.HandsOutOnce n where
  nodup := by
    rw [hcalls, List.filterMap_map]
    simpa using p.setBits_pairwise.nodup.sublist (List.take_sublist n p.setBits)
  mem_pool b hb := by
    rw [hcalls, List.mem_map] at hb
    obtain ⟨b', hb', hbb⟩ := hb
    cases hbb
    exact (p.mem_setBits b).mp (List.mem_of_mem_take hb')
  refused i hi hall := by
    -- set bit number `i` is not among the first `i`, so not every frame is out yet
    exfalso
    have hi' : i < p.setBits.length := by omega
    obtain ⟨hlt, hset⟩ := (p.mem_setBits _).mp (List.getElem_mem hi')
    have hmem := hall _ hlt hset
    rw [hcalls, ← List.map_take, List.take_take, Nat.min_eq_left (by omega)] at hmem
    obtain ⟨b, hb, hbb⟩ := List.mem_map.mp hmem
    obtain ⟨m, hm, hmb⟩ := List.mem_take_iff_getElem.mp hb
    have hmono := List.pairwise_iff_getElem.mp p.setBits_pairwise m i (by omega) hi' (by omega)
    rw [hmb, Option.some.inj hbb] at hmono
    exact lt_irrefl _ hmono

/-- With at least one set bit, the call after all of them are out is not refused: it returns
the first set bit again. -/
theorem not_handsOutOnce_of_lt {p : Pager} {n : ℕ} (hpos : 0 < p.setBits.length)
    (hn : p.setBits.length < n)
    (hcalls : p.allocs n = (List.range n).map fun i => p.setBits[i % p.setBits.length]?) :
    ¬ p.HandsOutOnce n := by
  intro hspec
  have hrefused := hspec.refused p.setBits.length hn fun b hb hset => by
    obtain ⟨m, hm, rfl⟩ := List.mem_iff_getElem.mp ((p.mem_setBits b).mpr ⟨hb, hset⟩)
    rw [hcalls, ← List.map_take, List.take_range, Nat.min_eq_left (by omega), List.mem_map]
    refine ⟨m, List.mem_range.mpr hm, ?_⟩
    rw [Nat.mod_eq_of_lt hm, List.getElem?_eq_getElem hm]
  simp [hcalls, hn, hpos] at hrefused

/-- The pool allocator hands no frame out twice over `n` calls exactly when the pool is empty
or has at least `n` frames: the cursor wraps onto bits that are still set. -/
theorem handsOutOnce_iff (pool : ℕ → UInt8) (frameCount n : ℕ) :
    (pagerInit pool frameCount).HandsOutOnce n ↔
      (pagerInit pool frameCount).setBits = [] ∨
        n ≤ (pagerInit pool frameCount).setBits.length := by
  have hcalls := allocs_pagerInit pool frameCount n
  generalize pagerInit pool frameCount = p at hcalls ⊢
  constructor
  · intro hspec
    by_contra hneg
    rw [not_or, not_le, ← ne_eq, ← List.length_pos_iff] at hneg
    -- with more calls than set bits the first page comes twice
    exact not_handsOutOnce_of_lt hneg.1 hneg.2 hcalls hspec
  · rintro (hempty | hle)
    · exact handsOutOnce_of_refused (by simpa [hempty] using hcalls)
    · refine handsOutOnce_of_le hle (hcalls.trans ?_)
      -- up to that many calls no index is reduced, so that the pages are the set bits in order
      apply List.ext_getElem
      · simp [hle]
      · intro i hi _
        have hin : i < n := by simpa using hi
        have hlt : i < p.setBits.length := by omega
        simp [Nat.mod_eq_of_lt hlt, List.getElem?_eq_getElem hlt]

/-- A pool of one frame is handed out on every call. -/
theorem poolAlloc_twice :
    (pagerInit (fun _ => 1) 1).allocs 2 = [some 0, some 0] ∧
      ¬ (pagerInit (fun _ => 1) 1).HandsOutOnce 2 := by
  have hcalls : (pagerInit (fun _ => 1) 1).allocs 2 = [some 0, some 0] := by decide
  refine ⟨hcalls, fun hspec => ?_⟩
  have hnodup := hspec.nodup
  rw [hcalls] at hnodup
  revert hnodup
  decide

end Pager

end Koharu
