import Koharu.Mm.TlsfBlocks

/-!
# The search for a block

`search_suitable_block` in memory finds what it finds on the lists that are written out, and blocks
of the classes that a request looks in are large enough for it.

A size belongs to one class, and a request looks in the classes from the one on that its size,
rounded up, belongs to. Rounding up makes every block of these classes large enough
(`le_of_reaches`): within a class of the second level sizes differ by less than the step that the
request is rounded up by.

* `classMin`: the size that all blocks of a class have at least;
* `le_of_reaches`: `mapping_search` rounds up far enough;
* `FreeLists.searchSuitableBlock`: the search in memory.
-/

namespace Koharu

open Tlsf WordMemory Chain Tiling

namespace TlsfMem

/-! ### Sizes

The smallest size in each class, which is what the search relies on: every block of the class that
it begins in is large enough. -/

/-- The size that all blocks of a class have at least. -/
def classMin (k : Tlsf.Class) : ℕ := if k.1 = 0 then 8 * k.2 else (32 + k.2) * 2 ^ (k.1 + 2)

/-- Classes that are reached later have larger blocks. -/
theorem classMin_mono {k k' : Tlsf.Class} (h : Control.Reaches k k') :
    classMin k ≤ classMin k' := by
  have hsl := k.2.isLt
  rcases h with hlt | ⟨heq, hle⟩
  · rw [classMin, classMin, if_neg (show k'.1 ≠ 0 by omega)]
    split
    case isTrue =>
      -- the smallest block of a row is above every block of the rows below it
      have hpow : 2 ^ 3 ≤ 2 ^ (k'.1 + 2) := Nat.pow_le_pow_right (by decide) (by omega)
      calc 8 * (k.2 : ℕ) ≤ 32 * 2 ^ 3 := by omega
        _ ≤ (32 + k'.2) * 2 ^ (k'.1 + 2) := Nat.mul_le_mul (Nat.le_add_right _ _) hpow
    case isFalse =>
      -- a row is twice as far up as the row before it
      have hpow : 2 ^ (k.1 + 3) ≤ 2 ^ (k'.1 + 2) := Nat.pow_le_pow_right (by decide) (by omega)
      calc (32 + (k.2 : ℕ)) * 2 ^ (k.1 + 2) ≤ 64 * 2 ^ (k.1 + 2) :=
        Nat.mul_le_mul_right _ (by omega)
        _ = 32 * 2 ^ (k.1 + 3) := by
          rw [show k.1 + 3 = k.1 + 2 + 1 from rfl, pow_succ 2 (k.1 + 2)]
          omega
        _ ≤ (32 + k'.2) * 2 ^ (k'.1 + 2) := Nat.mul_le_mul (Nat.le_add_right _ _) hpow
  · have hle' := Fin.le_def.mp hle
    rw [classMin, classMin, heq]
    split
    · omega
    · exact Nat.mul_le_mul_right _ (by omega)

/-- The least size in the class of a small request. -/
theorem classMin_of_lt {s : Size} (hs : s.toNat < 256) :
    classMin (mappingInsert s) = s.toNat / 8 * 8 := by
  have hlt : s < smallBlockSize := BitVec.lt_def.mpr hs
  have hmod : s.toNat / 8 % 32 = s.toNat / 8 := Nat.mod_eq_of_lt (by omega)
  rw [mappingInsert, if_pos hlt, classMin, if_pos rfl, Nat.mul_comm]
  exact congrArg (· * 8) hmod

/-- The least size in the class of a large one. -/
theorem classMin_of_le {s : Size} (hs : 256 ≤ s.toNat) : classMin (mappingInsert s) =
    s.toNat / 2 ^ (Nat.log2 s.toNat - 5) * 2 ^ (Nat.log2 s.toNat - 5) := by
  have hle : ¬ s < smallBlockSize := BitVec.not_lt.mpr (BitVec.le_def.mpr hs)
  have hpos : s.toNat ≠ 0 := by omega
  have hne : s ≠ 0 := fun h => hpos (by rw [h]; rfl)
  have hr : 8 ≤ Nat.log2 s.toNat := (Nat.le_log2 hpos).mpr hs
  obtain ⟨hlow, hhigh⟩ := (Nat.log2_eq_iff hpos).mp rfl
  have hclass : mappingInsert s = (Nat.log2 s.toNat - 7,
      Fin.ofNat 32 ((s >>> (Nat.log2 s.toNat - 5)).toNat ^^^ 1 <<< 5)) := by
    rw [mappingInsert, if_neg hle, flsSizet_eq hne]
    rfl
  rw [hclass, classMin]
  simp only
  generalize Nat.log2 s.toNat = r at *
  -- the second index is what follows the highest bit
  have hv : 32 ≤ s.toNat / 2 ^ (r - 5) ∧ s.toNat / 2 ^ (r - 5) < 64 := by
    have hwidth : 2 ^ r = 32 * 2 ^ (r - 5) := by
      rw [show (32 : ℕ) = 2 ^ 5 from rfl, ← pow_add, Nat.add_sub_cancel' (by omega)]
    have hq : 0 < 2 ^ (r - 5) := Nat.two_pow_pos _
    rw [pow_succ] at hhigh
    exact ⟨(Nat.le_div_iff_mul_le hq).mpr (by omega), (Nat.div_lt_iff_lt_mul hq).mpr (by omega)⟩
  have hxor : ∀ v < 64, 32 ≤ v → 32 + (v ^^^ 1 <<< 5) % 32 = v := by decide
  rw [if_neg (by omega), BitVec.toNat_ushiftRight, Nat.shiftRight_eq_div_pow,
    show r - 7 + 2 = r - 5 by omega]
  exact congrArg (· * 2 ^ (r - 5)) (hxor _ hv.2 hv.1)

/-- A block is no smaller than the least size of its class. -/
theorem classMin_le (s : Size) : classMin (mappingInsert s) ≤ s.toNat := by
  by_cases hs : s.toNat < 256
  · rw [classMin_of_lt hs]
    exact Nat.div_mul_le_self _ _
  · rw [classMin_of_le (by omega)]
    exact Nat.div_mul_le_self _ _

/-- `mapping_search` rounds up. -/
theorem le_classMin {a : Size} (ha : a.toNat < 2 ^ 32) (hd : 8 ∣ a.toNat) :
    a.toNat ≤ classMin (mappingSearch a) := by
  unfold mappingSearch
  by_cases hs : a.toNat < 256
  · rw [if_neg (BitVec.not_le.mpr (BitVec.lt_def.mpr hs)), classMin_of_lt hs]
    omega
  have hpos : a.toNat ≠ 0 := by omega
  have hne : a ≠ 0 := fun h => hpos (by rw [h]; rfl)
  have hr : 8 ≤ Nat.log2 a.toNat := (Nat.le_log2 hpos).mpr (by omega)
  have hr' : Nat.log2 a.toNat < 32 := (Nat.log2_lt hpos).mpr ha
  have hq : 2 ^ (Nat.log2 a.toNat - 5) ≤ 2 ^ 27 := Nat.pow_le_pow_right (by decide) (by omega)
  have hq' : 1 ≤ 2 ^ (Nat.log2 a.toNat - 5) := Nat.one_le_two_pow
  have hround : (a + (BitVec.twoPow 64 ((flsSizet a).toNat - slIndexCountLog2) - 1)).toNat =
      a.toNat + (2 ^ (Nat.log2 a.toNat - 5) - 1) := by
    rw [flsSizet_eq hne, slIndexCountLog2]
    have htwo : (BitVec.twoPow 64 (Nat.log2 a.toNat - 5)).toNat = 2 ^ (Nat.log2 a.toNat - 5) := by
      rw [BitVec.toNat_twoPow, Nat.mod_eq_of_lt (by omega)]
    have hsub : (BitVec.twoPow 64 (Nat.log2 a.toNat - 5) - 1#64).toNat =
        2 ^ (Nat.log2 a.toNat - 5) - 1 := by
      rw [BitVec.toNat_sub_of_le (BitVec.le_def.mpr (by rw [htwo]; exact hq')), htwo]
      rfl
    rw [BitVec.toNat_add]
    show (a.toNat + (BitVec.twoPow 64 (Nat.log2 a.toNat - 5) - 1#64).toNat) % 2 ^ 64 = _
    rw [hsub, Nat.mod_eq_of_lt (by omega)]
  have hlarge : smallBlockSize ≤ a := BitVec.le_def.mpr (show 256 ≤ a.toNat by omega)
  rw [if_pos hlarge, classMin_of_le (by omega), hround]
  obtain ⟨-, hhigh⟩ := (Nat.log2_eq_iff hpos).mp rfl
  set r := Nat.log2 a.toNat
  set r' := Nat.log2 (a.toNat + (2 ^ (r - 5) - 1)) with hr'
  have hpos' : a.toNat + (2 ^ (r - 5) - 1) ≠ 0 := by omega
  obtain ⟨hlow', -⟩ := (Nat.log2_eq_iff hpos').mp hr'.symm
  have hle : r ≤ r' := (Nat.le_log2 hpos').mpr
    (((Nat.log2_eq_iff hpos).mp rfl).1.trans (Nat.le_add_right _ _))
  have hdiv := Nat.div_add_mod' (a.toNat + (2 ^ (r - 5) - 1)) (2 ^ (r' - 5))
  have hmod := Nat.mod_lt (a.toNat + (2 ^ (r - 5) - 1)) (Nat.two_pow_pos (r' - 5))
  rcases hle.eq_or_lt with heq | hlt
  · rw [← heq] at hdiv hmod ⊢
    omega
  · -- rounded up to the next level, whose blocks are larger
    have hup : 2 ^ (r + 1) ≤ 2 ^ r' := Nat.pow_le_pow_right (by decide) hlt
    have hwidth : 2 ^ r' = 32 * 2 ^ (r' - 5) := by
      rw [show (32 : ℕ) = 2 ^ 5 from rfl, ← pow_add, Nat.add_sub_cancel' (by omega)]
    have hv : 32 ≤ (a.toNat + (2 ^ (r - 5) - 1)) / 2 ^ (r' - 5) :=
      (Nat.le_div_iff_mul_le (Nat.two_pow_pos _)).mpr (by omega)
    calc a.toNat ≤ 32 * 2 ^ (r' - 5) := by omega
      _ ≤ _ := Nat.mul_le_mul_right _ hv

/-- A block of a class that a request looks in is large enough. -/
theorem le_of_reaches {a s : Size} (ha : a.toNat < 2 ^ 32) (hd : 8 ∣ a.toNat)
    (h : Control.Reaches (mappingSearch a) (mappingInsert s)) : a.toNat ≤ s.toNat :=
  (le_classMin ha hd).trans ((classMin_mono h).trans (classMin_le s))

/-- What `adjust_request_size` returns, where it does not refuse. -/
theorem adjust_spec {size : Size} (h : adjustRequestSize size ≠ 0) :
    24 ≤ (adjustRequestSize size).toNat ∧ 8 ∣ (adjustRequestSize size).toNat ∧
      (adjustRequestSize size).toNat < 2 ^ 32 ∧
      (size.toNat ≤ 2 ^ 64 - 8 → size.toNat ≤ (adjustRequestSize size).toNat) := by
  have hmin : blockSizeMin.toNat = 24 := rfl
  have hup := Tlsf.alignUp_toNat size
  have hsize := size.isLt
  rw [adjustRequestSize] at h ⊢
  -- size zero and a size above the maximum give zero; the others are at least the minimum
  split_ifs at h ⊢ with hzero hmax hlarge
  · exact absurd rfl h
  · have hmax' : _ < 2 ^ 32 := BitVec.lt_def.mp hmax
    have hlarge' := BitVec.lt_def.mp hlarge
    omega
  · have hsmall := BitVec.le_def.mp (BitVec.not_lt.mp hlarge)
    refine ⟨le_rfl, by decide, by decide, fun hle => ?_⟩
    omega
  · exact absurd rfl h

/-! ### The search

The search in memory finds the block that the search on lists finds. -/

/-- The search goes to the class asked for or to a later one. -/
theorem Control.reaches_of_searchSuitable {c : Control} {k k' : Tlsf.Class}
    (h : c.searchSuitable k = some k') : Control.Reaches k k' := by
  rw [Control.searchSuitable_eq] at h
  -- the bitmap of the row is asked first; if it has no bit from the class on, a row further up is
  -- taken
  split at h
  case isTrue =>
    split at h
    case isTrue => cases h
    case isFalse hfl =>
      obtain rfl := Option.some.inj h
      have hbit := (ffs_spec hfl).2
      rw [getLsbD_fromBit, Bool.and_eq_true, decide_eq_true_iff] at hbit
      exact .inl hbit.2
  case isFalse hsl =>
    obtain rfl := Option.some.inj h
    obtain ⟨hlt, hbit⟩ := ffs_spec hsl
    rw [getLsbD_fromBit, Bool.and_eq_true, decide_eq_true_iff] at hbit
    refine .inr ⟨rfl, Fin.le_def.mpr ?_⟩
    exact hbit.2.trans_eq (Nat.mod_eq_of_lt hlt).symm

section Search

variable {control : Addr} {m : TlsfMem} {c : Control} {F : Set (ℕ × ℕ)} {k k' : Tlsf.Class}

/-- A search that finds no class finds no block. -/
theorem FreeLists.searchSuitableBlock_of_none (h : FreeLists control m c F)
    (hk : k.1 < flIndexCount) (hnone : c.searchSuitable k = none) :
    m.searchSuitableBlock k = some (0, k) := by
  rw [Control.searchSuitable_eq, ← h.slBitmap, ← h.flBitmap] at hnone
  rw [searchSuitableBlock, checkIndex_bind hk]
  split at hnone
  case isTrue hsl =>
    split at hnone
    case isTrue hfl => rw [if_pos hsl, if_pos hfl]
    case isFalse => cases hnone
  case isFalse => cases hnone

/-- The list that the search ends at begins with the block that it finds. -/
theorem FreeLists.searchSuitableBlock_of_some (h : FreeLists control m c F) (hF : Nodes control F)
    (hk : k.1 < flIndexCount) (hsome : c.searchSuitable k = some k') :
    ∃ x ∈ F, ∃ l, c.blocks k'.1 k'.2 = freeBlock x :: l ∧ mappingInsert (BitVec.ofNat 64 x.2) = k' ∧
      m.searchSuitableBlock k = some (BitVec.ofNat 64 x.1, k') := by
  obtain ⟨b, l, hl⟩ := List.exists_cons_of_ne_nil (Control.blocks_ne_nil_of_searchSuitable hsome)
  obtain ⟨x, hx, rfl, hclass⟩ := (h.mem_blocks k' b).mp (by rw [hl]; exact List.mem_cons_self)
  -- the head of the list that the search ends at
  have hhead : m.blocks k'.1 k'.2 = BitVec.ofNat 64 x.1 := by
    have hfirst := (h.next k').head
    rw [hl, List.map_cons, List.head?_cons, link] at hfirst
    split at hfirst
    · cases hfirst
    · exact Option.some.inj hfirst
  have hfl : k'.1 < flIndexCount := by
    rw [← hclass]
    apply mappingInsert_fst_lt
    have hlt := hF.lt x hx
    exact (Nat.mod_le _ _).trans_lt hlt
  refine ⟨x, hx, l, hl, hclass, ?_⟩
  rw [Control.searchSuitable_eq, ← h.slBitmap, ← h.flBitmap] at hsome
  rw [searchSuitableBlock, checkIndex_bind hk]
  split at hsome
  -- the row has no class that is large enough: the next row with a bit is taken
  case isTrue hsl =>
    split at hsome
    case isTrue => cases hsome
    case isFalse hne =>
      obtain rfl := Option.some.inj hsome
      have hbit := (ffs_spec hne).2
      have hmap : m.slBitmap (ffs (fromBit m.flBitmap (k.1 + 1))) ≠ 0 := by
        rw [getLsbD_fromBit, Bool.and_eq_true, h.flBitmap] at hbit
        rw [h.slBitmap, h.flBitmap]
        exact (c.mem_fl _ (ffs_spec (h.flBitmap ▸ hne)).1).mp hbit.1
      rw [if_pos hsl, if_neg hne, checkIndex_bind hfl, tlsfAssert_bind hmap]
      exact congrArg (fun b => some (b, _)) hhead
  case isFalse hsl =>
    obtain rfl := Option.some.inj hsome
    rw [if_neg hsl]
    exact congrArg (fun b => some (b, _)) hhead

end Search

end TlsfMem

end Koharu
