import Koharu.Lib.Word
import Mathlib.Data.Nat.Log
import Mathlib.Logic.Function.Basic
import Mathlib.Tactic.IntervalCases
import Mathlib.Tactic.NormNum

/-!
# The heap's size classes

`kernel/lib/tlsf.c` keeps the free blocks of a heap on lists, one for each pair of a first-level and
a second-level index, and two levels of bitmaps that say which lists have blocks. A block goes to
the list of the class that its size is in (`mappingInsert`); a request looks in the classes whose
blocks are all large enough (`mappingSearch`).

* `Control`: the lists with their bitmaps, which always agree;
* `tlsfMalloc`, `tlsfAddPool`: the functions, as far as the lists are concerned;
* `search_eq_none_iff`: when the bitmaps have nothing for a request;
* `tlsfMalloc_addPool`: a request for which there was nothing is served by a new pool if and only if
  it looks for a class that is not above the class of the pool.
-/

namespace Koharu.Tlsf

/-- `size_t`. -/
abbrev Size := BitVec 64

/-- `ALIGN_SIZE`. -/
def alignSize : ℕ := 8

/-- `SL_INDEX_COUNT_LOG2`. -/
def slIndexCountLog2 : ℕ := 5

/-- `FL_INDEX_SHIFT`. -/
def flIndexShift : ℕ := 8

/-- `FL_INDEX_COUNT`. -/
def flIndexCount : ℕ := 25

/-- `SMALL_BLOCK_SIZE`. -/
def smallBlockSize : Size := 256#64

/-- `block_header_overhead`. -/
def blockHeaderOverhead : Size := 8#64

/-- `sizeof(block_header_t)`. -/
def sizeofBlockHeader : Size := 32#64

/-- `block_start_offset`. -/
def blockStartOffset : Size := 16#64

/-- `block_size_min`. -/
def blockSizeMin : Size := 24#64

/-- `block_size_max`. -/
def blockSizeMax : Size := 0x100000000#64

/-- `tlsf_pool_overhead`. -/
def poolOverhead : Size := 2 * blockHeaderOverhead

/-! ### Sizes and classes

The two-level mapping of sizes to lists, computed on machine words as the source computes it. -/

/-- `align_up(x, ALIGN_SIZE)`. -/
def alignUp (x : Size) : Size := (x + 7#64) &&& ~~~7#64

/-- `adjust_request_size(size, ALIGN_SIZE)`. -/
def adjustRequestSize (size : Size) : Size :=
  if size = 0 then 0
  else if alignUp size < blockSizeMax then
    if alignUp size > blockSizeMin then alignUp size else blockSizeMin
  else 0

/-- `__builtin_clz`, whose result for `0` is not defined. -/
def clz (clzZero : ℕ) (x : BitVec 32) : ℕ := if x = 0 then clzZero else 31 - Nat.log2 x.toNat

/-- `tlsf_fls`. -/
def fls (x : BitVec 32) : ℤ := if x = 0 then -1 else 32 - clz 0 x - 1

/-- `tlsf_fls_sizet`. -/
def flsSizet (size : Size) : ℤ :=
  let high := (size >>> 32).setWidth 32
  if high ≠ 0 then 32 + fls high else fls (size.setWidth 32)

/-- The indices of a list. The second one is taken modulo `SL_INDEX_COUNT`. -/
abbrev Class := ℕ × Fin 32

/-- `mapping_insert`. -/
def mappingInsert (size : Size) : Class :=
  if size < smallBlockSize then (0, Fin.ofNat 32 (size.toNat / 8))
  else
    let fl := (flsSizet size).toNat
    (fl - (flIndexShift - 1),
      Fin.ofNat 32 ((size >>> (fl - slIndexCountLog2)).toNat ^^^ 1 <<< slIndexCountLog2))

/-- `mapping_search`. -/
def mappingSearch (size : Size) : Class :=
  if size ≥ smallBlockSize then
    mappingInsert (size + (BitVec.twoPow 64 ((flsSizet size).toNat - slIndexCountLog2) - 1))
  else mappingInsert size

/-- `tlsf_ffs` of a word that is not zero. -/
def ffs (x : BitVec 32) : ℕ := ((List.range 32).find? (x.getLsbD ·)).getD 0

/-! ### The lists of free blocks

`control_t` with its lists written out. The fields that tie the bitmaps to the lists are part of the
type, so that every operation shows that it keeps them. -/

/-- A free block: where its header is, and its `size` without the flags. -/
structure FreeBlock where
  addr : BitVec 64
  size : Size
  deriving DecidableEq

/-- `control_t`. The lists that `blocks` has the heads of are written out. -/
structure Control where
  blocks : ℕ → Fin 32 → List FreeBlock
  flBitmap : BitVec 32
  slBitmap : ℕ → BitVec 32
  /-- A bit of the second level is set if the list has a block. -/
  mem_sl : ∀ fl (sl : Fin 32), (slBitmap fl).getLsbD sl = true ↔ blocks fl sl ≠ []
  /-- A bit of the first level is set if there is one on the second level. -/
  mem_fl : ∀ fl < 32, flBitmap.getLsbD fl = true ↔ slBitmap fl ≠ 0

/-- The word `map` without the bits below `i`. -/
def fromBit (map : BitVec 32) (i : ℕ) : BitVec 32 := map &&& BitVec.allOnes 32 <<< i

/-- The mask keeps the bits from `i` on. -/
theorem getLsbD_fromBit (map : BitVec 32) (i j : ℕ) :
    (fromBit map i).getLsbD j = (map.getLsbD j && decide (i ≤ j)) := by
  rw [fromBit, BitVec.getLsbD_and, BitVec.getLsbD_shiftLeft, BitVec.getLsbD_allOnes]
  by_cases hj : j < 32
  · by_cases hi : i ≤ j
    · simp [hj, hi]
      omega
    · simp [hi]
  · simp [BitVec.getLsbD_of_ge map j (by omega)]

/-- A bitmap is zero when no bit is set. -/
theorem eq_zero_iff (x : BitVec 32) : x = 0 ↔ ∀ i < 32, x.getLsbD i = false := by
  constructor
  · rintro rfl i -
    exact BitVec.getLsbD_zero
  · intro h
    apply BitVec.eq_of_getLsbD_eq
    intro i hi
    rw [h i hi]
    exact BitVec.getLsbD_zero.symm

/-- `tlsf_ffs` finds a bit. -/
theorem ffs_spec {x : BitVec 32} (h : x ≠ 0) : ffs x < 32 ∧ x.getLsbD (ffs x) = true := by
  obtain ⟨i, hi, hbit⟩ : ∃ i < 32, x.getLsbD i = true := by
    by_contra hnone
    push Not at hnone
    exact h ((eq_zero_iff x).mpr fun i hi => by simpa using hnone i hi)
  have hsome : ((List.range 32).find? (x.getLsbD ·)).isSome = true :=
    List.find?_isSome.mpr ⟨i, List.mem_range.mpr hi, hbit⟩
  obtain ⟨j, hj⟩ := Option.isSome_iff_exists.mp hsome
  have hffs : ffs x = j := by rw [ffs, hj, Option.getD_some]
  rw [hffs]
  exact ⟨List.mem_range.mp (List.mem_of_find?_eq_some hj), by simpa using List.find?_some hj⟩

namespace Control

variable (c : Control)

/-- No free blocks. -/
def empty : Control where
  blocks _ _ := []
  flBitmap := 0
  slBitmap _ := 0
  mem_sl _ sl := by simp
  mem_fl fl _ := by simp

/-- `search_suitable_block`: the list that the search ends at. -/
def searchSuitable (k : Class) : Option Class :=
  let slMap := fromBit (c.slBitmap k.1) k.2
  if slMap = 0 then
    let flMap := fromBit c.flBitmap (k.1 + 1)
    if flMap = 0 then none
    else some (ffs flMap, Fin.ofNat 32 (ffs (c.slBitmap (ffs flMap))))
  else some (k.1, Fin.ofNat 32 (ffs slMap))

/-- `insert_free_block`. -/
def insertFree (b : FreeBlock) (k : Class) : Control where
  blocks := Function.update c.blocks k.1
    (Function.update (c.blocks k.1) k.2 (b :: c.blocks k.1 k.2))
  flBitmap := c.flBitmap ||| BitVec.twoPow 32 k.1
  slBitmap := Function.update c.slBitmap k.1 (c.slBitmap k.1 ||| BitVec.twoPow 32 k.2)
  -- the bit of the list is set, and the list is not empty
  mem_sl fl sl := by
    by_cases hfl : fl = k.1
    · subst hfl
      rw [Function.update_self, Function.update_self, BitVec.getLsbD_or, BitVec.getLsbD_twoPow]
      by_cases hsl : sl = k.2
      · subst hsl
        simp
      · have hval : (k.2 : ℕ) ≠ sl := fun h => hsl (Fin.ext h.symm)
        rw [Function.update_of_ne hsl, ← c.mem_sl]
        simp [hval]
    · rw [Function.update_of_ne hfl, Function.update_of_ne hfl]
      exact c.mem_sl fl sl
  mem_fl fl hfl := by
    by_cases hk : fl = k.1
    · subst hk
      rw [Function.update_self, BitVec.getLsbD_or, BitVec.getLsbD_twoPow]
      -- the second level has a bit now
      have hne : c.slBitmap k.1 ||| BitVec.twoPow 32 k.2 ≠ 0 := by
        intro hzero
        have hbit := congrArg (BitVec.getLsbD · k.2) hzero
        simp at hbit
      refine iff_of_true ?_ hne
      simp [hfl]
    · rw [Function.update_of_ne hk, BitVec.getLsbD_or, BitVec.getLsbD_twoPow, ← c.mem_fl fl hfl]
      have hval : k.1 ≠ fl := fun h => hk h.symm
      simp [hval]

/-- `remove_free_block`, for a block of the list. -/
def removeFree (b : FreeBlock) (k : Class) : Control where
  blocks := Function.update c.blocks k.1
    (Function.update (c.blocks k.1) k.2 ((c.blocks k.1 k.2).erase b))
  flBitmap :=
    if (c.blocks k.1 k.2).erase b = [] ∧ c.slBitmap k.1 &&& ~~~BitVec.twoPow 32 k.2 = 0 then
      c.flBitmap &&& ~~~BitVec.twoPow 32 k.1
    else c.flBitmap
  slBitmap := Function.update c.slBitmap k.1
    (if (c.blocks k.1 k.2).erase b = [] then c.slBitmap k.1 &&& ~~~BitVec.twoPow 32 k.2
      else c.slBitmap k.1)
  mem_sl fl sl := by
    by_cases hfl : fl = k.1
    · subst hfl
      rw [Function.update_self, Function.update_self]
      by_cases hsl : sl = k.2
      · subst hsl
        rw [Function.update_self]
        split
        case isTrue hnil => simp [hnil]
        case isFalse hne =>
          refine iff_of_true ((c.mem_sl _ _).mpr fun hnil => hne ?_) hne
          rw [hnil, List.erase_nil]
      · have hval : (k.2 : ℕ) ≠ sl := fun h => hsl (Fin.ext h.symm)
        rw [Function.update_of_ne hsl, ← c.mem_sl]
        split
        case isTrue => simp [hval.symm]
        case isFalse => rfl
    · rw [Function.update_of_ne hfl, Function.update_of_ne hfl]
      exact c.mem_sl fl sl
  mem_fl fl hfl := by
    by_cases hk : fl = k.1
    · subst hk
      rw [Function.update_self]
      by_cases hnil : (c.blocks k.1 k.2).erase b = []
      -- The bit of the row goes with the last bit in it.
      · rw [if_pos hnil]
        by_cases hzero : c.slBitmap k.1 &&& ~~~BitVec.twoPow 32 k.2 = 0
        · rw [if_pos ⟨hnil, hzero⟩]
          simp [hzero, hfl]
        · rw [if_neg fun h => hzero h.2]
          refine iff_of_true ((c.mem_fl _ hfl).mpr ?_) hzero
          intro h
          exact hzero (by rw [h]; exact BitVec.zero_and)
      · rw [if_neg hnil, if_neg fun h => hnil h.1]
        exact c.mem_fl _ hfl
    · rw [Function.update_of_ne hk, ← c.mem_fl fl hfl]
      have hval : k.1 ≠ fl := fun h => hk h.symm
      split
      case isTrue => simp [hk, hfl]
      case isFalse => rfl

/-- `block_insert`. -/
def blockInsert (b : FreeBlock) : Control := c.insertFree b (mappingInsert b.size)

/-- `block_locate_free`. -/
def locateFree (size : Size) : Option FreeBlock × Control :=
  if size = 0 then (none, c)
  else if (mappingSearch size).1 < flIndexCount then
    match c.searchSuitable (mappingSearch size) with
    | none => (none, c)
    | some k =>
        match c.blocks k.1 k.2 with
        | [] => (none, c)
        | b :: _ => (some b, c.removeFree b k)
  else (none, c)

/-- `block_trim_free`: what is behind the first `size` bytes of the block becomes a free block. -/
def trimFree (b : FreeBlock) (size : Size) : Control :=
  if b.size ≥ sizeofBlockHeader + size then
    c.blockInsert ⟨b.addr + blockStartOffset + (size - blockHeaderOverhead),
      b.size - (size + blockHeaderOverhead)⟩
  else c

/-- `tlsf_malloc`, where no pointer stands for `NULL`. -/
def tlsfMalloc (size : Size) : Option (BitVec 64) × Control :=
  let adjust := adjustRequestSize size
  match c.locateFree adjust with
  | (none, c) => (none, c)
  | (some b, c) => (some (b.addr + blockStartOffset), c.trimFree b adjust)

/-- `tlsf_add_pool`. -/
def tlsfAddPool (mem bytes : BitVec 64) : Control :=
  let poolBytes := (bytes - poolOverhead) - ((bytes - poolOverhead) &&& 7#64)
  if mem.toInt % alignSize ≠ 0 then c
  else if poolBytes < blockSizeMin ∨ poolBytes > blockSizeMax then c
  else c.blockInsert ⟨mem - blockHeaderOverhead, poolBytes⟩

/-! ### What the search finds

The bit tricks of the search in terms of lists: it fails if and only if all lists from the class on
are empty. -/

/-- The classes in which a request for `k` looks. -/
def Reaches (k k' : Class) : Prop := k.1 < k'.1 ∨ k.1 = k'.1 ∧ k.2 ≤ k'.2

instance (k k' : Class) : Decidable (Reaches k k') :=
  inferInstanceAs (Decidable (_ ∨ _))

/-- There is nothing on the lists that a request for `k` looks at. -/
def Lacks (k : Class) : Prop := ∀ k' : Class, k'.1 < 32 → Reaches k k' → c.blocks k'.1 k'.2 = []

variable {c} {k : Class}

/-- The second level of a row is zero when all its lists are empty. -/
theorem slBitmap_eq_zero_iff (fl : ℕ) : c.slBitmap fl = 0 ↔ ∀ sl, c.blocks fl sl = [] := by
  rw [eq_zero_iff]
  constructor
  · intro h sl
    by_contra hne
    have hbit := (c.mem_sl fl sl).mpr hne
    rw [h sl sl.isLt] at hbit
    cases hbit
  · intro h i hi
    by_contra hne
    exact (c.mem_sl fl ⟨i, hi⟩).mp (by simpa using hne) (h ⟨i, hi⟩)

/-- From a class on it is zero when the lists of these classes are. -/
theorem fromBit_sl_eq_zero_iff (fl : ℕ) (sl : Fin 32) :
    fromBit (c.slBitmap fl) sl = 0 ↔ ∀ sl', sl ≤ sl' → c.blocks fl sl' = [] := by
  -- bit by bit: a bit from `sl` on is set where its list is not empty
  rw [eq_zero_iff]
  constructor
  · intro h sl' hle
    by_contra hne
    have hbit := (c.mem_sl fl sl').mpr hne
    have hzero := h sl' sl'.isLt
    rw [getLsbD_fromBit, hbit, Bool.true_and, decide_eq_false_iff_not] at hzero
    exact hzero (Fin.le_def.mp hle)
  · intro h i hi
    rw [getLsbD_fromBit, Bool.and_eq_false_iff, decide_eq_false_iff_not]
    by_cases hle : (sl : ℕ) ≤ i
    · left
      by_contra hne
      exact (c.mem_sl fl ⟨i, hi⟩).mp (by simpa using hne) (h ⟨i, hi⟩ (Fin.le_def.mpr hle))
    · exact Or.inr hle

/-- The same for the first level and the rows. -/
theorem fromBit_fl_eq_zero_iff (fl : ℕ) :
    fromBit c.flBitmap fl = 0 ↔ ∀ fl' < 32, fl ≤ fl' → ∀ sl, c.blocks fl' sl = [] := by
  -- bit by bit: a bit from `fl` on is set where its second bitmap is not zero
  rw [eq_zero_iff]
  constructor
  · intro h fl' hlt hle
    rw [← slBitmap_eq_zero_iff]
    by_contra hne
    have hbit := (c.mem_fl fl' hlt).mpr hne
    have hzero := h fl' hlt
    rw [getLsbD_fromBit, hbit, Bool.true_and, decide_eq_false_iff_not] at hzero
    exact hzero hle
  · intro h i hi
    rw [getLsbD_fromBit, Bool.and_eq_false_iff, decide_eq_false_iff_not]
    by_cases hle : fl ≤ i
    · left
      by_contra hne
      exact (c.mem_fl i hi).mp (by simpa using hne) ((slBitmap_eq_zero_iff i).mpr (h i hi hle))
    · exact Or.inr hle

/-- The search, with the reads of the bitmaps written out. -/
theorem searchSuitable_eq : c.searchSuitable k =
    if fromBit (c.slBitmap k.1) k.2 = 0 then
      if fromBit c.flBitmap (k.1 + 1) = 0 then none
      else some (ffs (fromBit c.flBitmap (k.1 + 1)),
        Fin.ofNat 32 (ffs (c.slBitmap (ffs (fromBit c.flBitmap (k.1 + 1))))))
    else some (k.1, Fin.ofNat 32 (ffs (fromBit (c.slBitmap k.1) k.2))) :=
  rfl

/-- The search ends with nothing if and only if all lists that it looks at are empty. -/
theorem searchSuitable_eq_none_iff (hk : k.1 < 32) : c.searchSuitable k = none ↔ c.Lacks k := by
  -- the search fails iff neither bitmap has a bit from the class on
  have hnone : c.searchSuitable k = none ↔
      fromBit (c.slBitmap k.1) k.2 = 0 ∧ fromBit c.flBitmap (k.1 + 1) = 0 := by
    rw [searchSuitable_eq]
    split
    case isTrue hsl =>
      split
      case isTrue hfl => exact iff_of_true rfl ⟨hsl, hfl⟩
      case isFalse hfl => exact iff_of_false (by simp) fun h => hfl h.2
    case isFalse hsl => exact iff_of_false (by simp) fun h => hsl h.1
  rw [hnone, fromBit_sl_eq_zero_iff, fromBit_fl_eq_zero_iff]
  constructor
  · rintro ⟨hsl, hfl⟩ k' hlt (hup | ⟨hsame, hle⟩)
    · exact hfl k'.1 hlt hup k'.2
    · rw [← hsame]
      exact hsl k'.2 hle
  · intro h
    exact ⟨fun sl' hle => h (k.1, sl') hk (Or.inr ⟨rfl, hle⟩),
      fun fl' hlt hup sl => h (fl', sl) hlt (Or.inl hup)⟩

/-- What the search ends at is a list with a block. -/
theorem blocks_ne_nil_of_searchSuitable {k' : Class} (h : c.searchSuitable k = some k') :
    c.blocks k'.1 k'.2 ≠ [] := by
  rw [searchSuitable_eq] at h
  -- `ffs` of a nonzero map gives a bit that is set, and a set bit has a list that is not empty
  have hlist : ∀ fl x, x ≠ 0 → (∀ i, x.getLsbD i = true → (c.slBitmap fl).getLsbD i = true) →
      c.blocks fl (Fin.ofNat 32 (ffs x)) ≠ [] := by
    intro fl x hx hsub
    obtain ⟨hlt, hbit⟩ := ffs_spec hx
    have hval : ((Fin.ofNat 32 (ffs x) : Fin 32) : ℕ) = ffs x := Nat.mod_eq_of_lt hlt
    apply (c.mem_sl _ _).mp
    rw [hval]
    exact hsub _ hbit
  have hsub : ∀ map n i, (fromBit map n).getLsbD i = true → map.getLsbD i = true := by
    intro map n i hbit
    rw [getLsbD_fromBit, Bool.and_eq_true] at hbit
    exact hbit.1
  split at h
  case isTrue =>
    split at h
    case isTrue => cases h
    case isFalse hfl =>
      obtain rfl := Option.some.inj h
      obtain ⟨hlt, hbit⟩ := ffs_spec hfl
      exact hlist _ _ ((c.mem_fl _ hlt).mp (hsub _ _ _ hbit)) fun _ h => h
  case isFalse hsl =>
    obtain rfl := Option.some.inj h
    exact hlist _ _ hsl (hsub _ _)

/-- So there is a block exactly for the requests that do not lack one. -/
theorem tlsfMalloc_eq_none_iff (size : Size) : (c.tlsfMalloc size).1 = none ↔
    adjustRequestSize size = 0 ∨ flIndexCount ≤ (mappingSearch (adjustRequestSize size)).1 ∨
      c.Lacks (mappingSearch (adjustRequestSize size)) := by
  -- only the search can fail, what is done with the block cannot
  have hlocate : (c.tlsfMalloc size).1 = none ↔
      (c.locateFree (adjustRequestSize size)).1 = none := by
    rw [tlsfMalloc]
    split
    case h_1 _ _ heq => simp [heq]
    case h_2 _ _ _ heq => simp [heq]
  rw [hlocate, locateFree]
  split
  case isTrue hzero => simp [hzero]
  case isFalse hpos =>
    split
    case isFalse hfl => exact iff_of_true rfl (Or.inr (Or.inl (Nat.le_of_not_lt hfl)))
    case isTrue hfl =>
      have hfl' : (mappingSearch (adjustRequestSize size)).1 < 32 := hfl.trans (by decide)
      have hiff := searchSuitable_eq_none_iff (c := c) hfl'
      split
      case h_1 hnone => exact iff_of_true rfl (Or.inr (Or.inr (hiff.mp hnone)))
      case h_2 k hsome =>
        -- a class that the search ends at has a block
        have hlacks : ¬ c.Lacks (mappingSearch (adjustRequestSize size)) := by
          intro hlacks
          rw [hiff.mpr hlacks] at hsome
          cases hsome
        have hne := blocks_ne_nil_of_searchSuitable hsome
        cases hlist : c.blocks k.1 k.2 with
        | nil => exact absurd hlist hne
        | cons b rest =>
            apply iff_of_false (by simp)
            rintro (h | h | h)
            · exact hpos h
            · exact absurd hfl (Nat.not_lt.mpr h)
            · exact hlacks h

/-- A new block helps the requests that look in its class. -/
theorem lacks_blockInsert {b : FreeBlock} (h : c.Lacks k) (hb : (mappingInsert b.size).1 < 32) :
    (c.blockInsert b).Lacks k ↔ ¬ Reaches k (mappingInsert b.size) := by
  constructor
  · intro hlacks hreach
    have hnil := hlacks (mappingInsert b.size) hb hreach
    simp [blockInsert, insertFree] at hnil
  · intro hnot k' hlt hreach
    have hold := h k' hlt hreach
    have hother : ¬ (k'.1 = (mappingInsert b.size).1 ∧ k'.2 = (mappingInsert b.size).2) := by
      rintro ⟨hfl, hsl⟩
      exact hnot (by rwa [← show k' = mappingInsert b.size from Prod.ext hfl hsl])
    show Function.update c.blocks _ _ k'.1 k'.2 = []
    -- every list but that of the new block is as it was
    by_cases hfl : k'.1 = (mappingInsert b.size).1
    · have hsl : k'.2 ≠ (mappingInsert b.size).2 := fun hsl => hother ⟨hfl, hsl⟩
      rw [hfl, Function.update_self, Function.update_of_ne hsl, ← hfl]
      exact hold
    · rw [Function.update_of_ne hfl]
      exact hold

end Control

/-! ### The arithmetic of the classes

Positions of bits as logarithms, from which the classes of the pools follow. -/

/-- `fls` is the logarithm. -/
theorem fls_eq {x : BitVec 32} (h : x ≠ 0) : fls x = Nat.log2 x.toNat := by
  have hpos : x.toNat ≠ 0 := fun hzero => h (BitVec.eq_of_toNat_eq hzero)
  have hlt : Nat.log2 x.toNat < 32 := (Nat.log2_lt hpos).mpr x.isLt
  rw [fls, clz, if_neg h, if_neg h]
  omega

/-- `tlsf_fls_sizet` is the position of the highest bit. -/
theorem flsSizet_eq {size : Size} (h : size ≠ 0) : (flsSizet size).toNat = Nat.log2 size.toNat := by
  have hpos : size.toNat ≠ 0 := fun hzero => h (BitVec.eq_of_toNat_eq hzero)
  have hhigh : ((size >>> 32).setWidth 32).toNat = size.toNat / 2 ^ 32 := by
    rw [BitVec.toNat_setWidth, BitVec.toNat_ushiftRight, Nat.shiftRight_eq_div_pow,
      Nat.mod_eq_of_lt (by have := size.isLt; omega)]
  rw [flsSizet]
  -- the upper half has a bit, or all bits are in the lower half
  split
  case isTrue hne =>
    have hne' : size.toNat / 2 ^ 32 ≠ 0 := by
      rw [← hhigh]
      exact fun hzero => hne (BitVec.eq_of_toNat_eq hzero)
    obtain ⟨hle, hlt⟩ := (Nat.log2_eq_iff hne').mp rfl
    have hlog : Nat.log2 size.toNat = 32 + Nat.log2 (size.toNat / 2 ^ 32) := by
      rw [Nat.log2_eq_iff hpos]
      constructor
      · rw [pow_add, Nat.mul_comm]
        exact (Nat.mul_le_mul_right _ hle).trans (Nat.div_mul_le_self _ _)
      · rw [Nat.add_assoc, pow_add, Nat.mul_comm]
        exact Nat.lt_mul_of_div_lt hlt (by decide)
    rw [fls_eq hne, hhigh, hlog]
    omega
  case isFalse hzero =>
    rw [not_not] at hzero
    have hdiv : size.toNat / 2 ^ 32 = 0 := by
      rw [← hhigh, hzero]
      rfl
    have hlow : (size.setWidth 32).toNat = size.toNat := by
      rw [BitVec.toNat_setWidth]
      omega
    have hne : size.setWidth 32 ≠ 0 := fun h => hpos (by rw [← hlow, h]; rfl)
    rw [fls_eq hne, hlow]
    omega

/-- The first index of the class that a block goes to. -/
theorem mappingInsert_fst {size : Size} (h : smallBlockSize ≤ size) :
    (mappingInsert size).1 = Nat.log2 size.toNat - 7 := by
  have hne : size ≠ 0 := by
    rintro rfl
    exact absurd h (by decide)
  rw [mappingInsert, if_neg (BitVec.not_lt.mpr h), flsSizet_eq hne]
  rfl

/-- `align_up` as an arithmetic expression; it may wrap. -/
theorem alignUp_toNat (size : Size) : (alignUp size).toNat = (size.toNat + 7) % 2 ^ 64 / 8 * 8 := by
  rw [alignUp, Word.toNat_and_high (a := 3) (by decide) (by decide), BitVec.toNat_add]
  rfl

/-- The first index of the class that a request begins at, compared with that of the largest block
of `2 ^ (k + 12)` bytes. -/
theorem mappingSearch_fst_le_iff {a : Size} (ha : a < blockSizeMax) {k : ℕ} (hk : 4 ≤ k) :
    (mappingSearch a).1 ≤ k + 4 ↔ a.toNat ≤ 63 * 2 ^ (k + 6) := by
  have ha' : a.toNat < 2 ^ 32 := BitVec.lt_def.mp ha
  have hpow : 2 ^ 10 ≤ 2 ^ (k + 6) := Nat.pow_le_pow_right (by decide) (by omega)
  rw [mappingSearch]
  split
  case isFalse hsmall =>
    have hlt : a < smallBlockSize := BitVec.not_le.mp hsmall
    have hlt' : a.toNat < 256 := BitVec.lt_def.mp hlt
    rw [mappingInsert, if_pos hlt]
    exact iff_of_true (Nat.zero_le _) (by omega)
  case isTrue hlarge =>
    have hlarge' : 256 ≤ a.toNat := BitVec.le_def.mp hlarge
    have hpos : a.toNat ≠ 0 := by omega
    obtain ⟨hle, hlt⟩ := (Nat.log2_eq_iff hpos).mp rfl
    have hr : 8 ≤ Nat.log2 a.toNat := (Nat.le_log2 hpos).mpr hlarge'
    have hr' : Nat.log2 a.toNat < 32 := (Nat.log2_lt hpos).mpr ha'
    have hne : a ≠ 0 := fun h => hpos (by rw [h]; rfl)
    -- The request is rounded up by one less than the width of a class.
    have hround : (a + (BitVec.twoPow 64 ((flsSizet a).toNat - slIndexCountLog2) - 1)).toNat =
        a.toNat + (2 ^ (Nat.log2 a.toNat - 5) - 1) := by
      have hsmall : 2 ^ (Nat.log2 a.toNat - 5) ≤ 2 ^ 27 :=
        Nat.pow_le_pow_right (by decide) (by omega)
      have hone : 1 ≤ 2 ^ (Nat.log2 a.toNat - 5) := Nat.one_le_two_pow
      rw [flsSizet_eq hne, slIndexCountLog2]
      have htwo : (BitVec.twoPow 64 (Nat.log2 a.toNat - 5)).toNat = 2 ^ (Nat.log2 a.toNat - 5) := by
        rw [BitVec.toNat_twoPow, Nat.mod_eq_of_lt (by omega)]
      have hsub : (BitVec.twoPow 64 (Nat.log2 a.toNat - 5) - 1#64).toNat =
          2 ^ (Nat.log2 a.toNat - 5) - 1 := by
        rw [BitVec.toNat_sub_of_le (BitVec.le_def.mpr (by rw [htwo]; exact hone)), htwo]
        rfl
      rw [BitVec.toNat_add]
      show (a.toNat + (BitVec.twoPow 64 (Nat.log2 a.toNat - 5) - 1#64).toNat) % 2 ^ 64 = _
      rw [hsub, Nat.mod_eq_of_lt (by omega)]
    have hlarge'' : smallBlockSize ≤
        a + (BitVec.twoPow 64 ((flsSizet a).toNat - slIndexCountLog2) - 1) := by
      rw [BitVec.le_def, hround]
      exact hlarge'.trans (Nat.le_add_right _ _)
    have hpos' : a.toNat + (2 ^ (Nat.log2 a.toNat - 5) - 1) ≠ 0 := by omega
    have hwidth : 2 ^ (k + 12) = 64 * 2 ^ (k + 6) := by
      rw [show k + 12 = 6 + (k + 6) by omega, pow_add]
      norm_num
    have hlevel : Nat.log2 (a.toNat + (2 ^ (Nat.log2 a.toNat - 5) - 1)) - 7 ≤ k + 4 ↔
        a.toNat + (2 ^ (Nat.log2 a.toNat - 5) - 1) < 2 ^ (k + 12) := by
      rw [← Nat.log2_lt hpos']
      omega
    rw [mappingInsert_fst hlarge'', hround, hlevel, hwidth]
    -- Requests above `63 * 2 ^ (k + 6)` are in the last class, or above, and are rounded out of it.
    constructor
    · intro h
      by_contra hbig
      have hlog : k + 11 ≤ Nat.log2 a.toNat := by
        rw [Nat.le_log2 hpos, show k + 11 = 5 + (k + 6) by omega, pow_add]
        omega
      have hstep : 2 ^ (k + 6) ≤ 2 ^ (Nat.log2 a.toNat - 5) :=
        Nat.pow_le_pow_right (by decide) (by omega)
      omega
    · intro h
      have hlog : Nat.log2 a.toNat < k + 12 := by
        rw [Nat.log2_lt hpos, hwidth]
        omega
      have hstep : 2 ^ (Nat.log2 a.toNat - 5) ≤ 2 ^ (k + 6) :=
        Nat.pow_le_pow_right (by decide) (by omega)
      have hone : 1 ≤ 2 ^ (Nat.log2 a.toNat - 5) := Nat.one_le_two_pow
      omega

/-! ### A new pool

Whether a request can be served by a pool of `2 ^ order` pages is decided by comparing the class of
the request with that of the pool's one block. -/

/-- The size of the block in a pool of `2 ^ order` pages. -/
def poolBlockSize (order : ℕ) : Size := BitVec.twoPow 64 (order + 12) - 16#64

/-- It is in the last class of its level. -/
theorem mappingInsert_pool {order : ℕ} (hlo : 4 ≤ order) (hhi : order ≤ 10) :
    mappingInsert (poolBlockSize order) = (order + 4, 31) := by
  interval_cases order <;> decide

/-- `tlsf_add_pool` for `2 ^ order` pages. -/
theorem Control.tlsfAddPool_eq (c : Control) {mem : BitVec 64} (hmem : mem.toInt % alignSize = 0)
    {order : ℕ} (hlo : 4 ≤ order) (hhi : order ≤ 10) :
    c.tlsfAddPool mem (BitVec.twoPow 64 (order + 12)) =
      c.blockInsert ⟨mem - blockHeaderOverhead, poolBlockSize order⟩ := by
  have hbytes : (BitVec.twoPow 64 (order + 12) - poolOverhead) -
        ((BitVec.twoPow 64 (order + 12) - poolOverhead) &&& 7#64) = poolBlockSize order ∧
      ¬ (poolBlockSize order < blockSizeMin ∨ poolBlockSize order > blockSizeMax) := by
    interval_cases order <;> decide
  unfold Control.tlsfAddPool
  simp only [hbytes.1, if_neg hbytes.2, hmem, ne_eq, not_true_eq_false, if_false]

/-- If there is no block for a request, there is one after `2 ^ order` pages have been added if and
only if the request is small enough for them. -/
theorem Control.tlsfMalloc_addPool {c : Control} {size : Size} (h : (c.tlsfMalloc size).1 = none)
    {mem : BitVec 64} (hmem : mem.toInt % alignSize = 0) {order : ℕ} (hlo : 4 ≤ order)
    (hhi : order ≤ 10) :
    ((c.tlsfAddPool mem (BitVec.twoPow 64 (order + 12))).tlsfMalloc size).1 ≠ none ↔
      adjustRequestSize size ≠ 0 ∧ (adjustRequestSize size).toNat ≤ 63 * 2 ^ (order + 6) := by
  have hpool := mappingInsert_pool hlo hhi
  have hmax : adjustRequestSize size < blockSizeMax := by
    unfold adjustRequestSize
    split_ifs with hzero hlt hmin
    · decide
    · exact hlt
    · decide
    · decide
  have hfst := mappingSearch_fst_le_iff hmax hlo
  -- All classes of the pool's level are up to that of the pool.
  have hreach : Reaches (mappingSearch (adjustRequestSize size))
      (mappingInsert (poolBlockSize order)) ↔
        (adjustRequestSize size).toNat ≤ 63 * 2 ^ (order + 6) := by
    rw [hpool, ← hfst, Reaches]
    have hsl : (mappingSearch (adjustRequestSize size)).2 ≤ 31 := Fin.le_last _
    constructor
    · rintro (hlt | ⟨heq, -⟩)
      · exact hlt.le
      · exact heq.le
    · intro hle
      rcases hle.lt_or_eq with hlt | heq
      · exact Or.inl hlt
      · exact Or.inr ⟨heq, hsl⟩
  rw [ne_eq, tlsfMalloc_eq_none_iff, c.tlsfAddPool_eq hmem hlo hhi, not_or, not_or, ← hreach]
  constructor
  · rintro ⟨hadjust, hfl, hlacks⟩
    refine ⟨hadjust, ?_⟩
    rcases (c.tlsfMalloc_eq_none_iff size).mp h with hzero | hhigh | hnone
    · exact absurd hzero hadjust
    · exact absurd hhigh hfl
    · by_contra hnot
      exact hlacks ((lacks_blockInsert hnone (by rw [hpool]; show order + 4 < 32; omega)).mpr hnot)
  · rintro ⟨hadjust, hreaches⟩
    have hfl : ¬ flIndexCount ≤ (mappingSearch (adjustRequestSize size)).1 := by
      have hle := hfst.mpr (hreach.mp hreaches)
      unfold flIndexCount
      omega
    refine ⟨hadjust, hfl, fun hlacks => ?_⟩
    rcases (c.tlsfMalloc_eq_none_iff size).mp h with hzero | hhigh | hnone
    · exact hadjust hzero
    · exact hfl hhigh
    · exact (lacks_blockInsert hnone (by rw [hpool]; show order + 4 < 32; omega)).mp hlacks hreaches

/-- A request that is not served leaves the lists alone. -/
theorem Control.tlsfMalloc_snd {c : Control} {size : Size} (h : (c.tlsfMalloc size).1 = none) :
    (c.tlsfMalloc size).2 = c := by
  rw [tlsfMalloc] at h ⊢
  split at h
  case h_2 => cases h
  case h_1 c' heq =>
    -- a search that finds no block takes none off its list
    have hsnd : (c.locateFree (adjustRequestSize size)).2 = c := by
      rw [locateFree] at heq ⊢
      split at heq
      case isTrue hzero => rw [if_pos hzero]
      case isFalse hzero =>
        rw [if_neg hzero]
        split at heq
        case isFalse hfl => rw [if_neg hfl]
        case isTrue hfl =>
          rw [if_pos hfl]
          split at heq
          case h_1 => rfl
          case h_2 k hsome =>
            cases hlist : c.blocks k.1 k.2 with
            | nil => exact absurd hlist (blocks_ne_nil_of_searchSuitable hsome)
            | cons b rest =>
                rw [hlist] at heq
                cases heq
    rw [heq] at hsnd
    exact hsnd

end Koharu.Tlsf
