import Koharu.Lib.Word
import Koharu.Mm.TlsfCalls

/-!
# Aligned blocks

`tlsf_memalign` in memory, for an alignment that is a power of two.

The call looks for a block that has room for the size, the alignment and a block header, so that the
next multiple of the alignment is in the block; where the gap in front of it is too small to be a
block, the multiple after that is taken. The part in front becomes a free block
(`Open.trimFreeLeading`), and the rest is trimmed as in `tlsf_malloc`.

* `alignPtr_eq`: `align_ptr` rounds up;
* `alignedPtr_spec`: the pointer that the call returns, from the block that was found;
* `Open.trimFreeLeading`: what is in front of it goes back to the lists;
* `Good.tlsfMemalign`: the call.
-/

namespace Koharu

open Tlsf WordMemory Tiling

namespace TlsfMem

variable {control : Addr} {m m' : TlsfMem} {c : Control} {pools pools' : List Pool} {C : Ctx}
  {s S n k g x : ℕ} {size : Size}

/-! ### Rounding up

The masks of the source as rounding to multiples, with the cases in which they wrap. -/

/-- The next multiple of a power of two. -/
def ceilPow (x k : ℕ) : ℕ := (x + (2 ^ k - 1)) / 2 ^ k * 2 ^ k

/-- The power of two divides what is rounded up to it. -/
theorem dvd_ceilPow (x k : ℕ) : 2 ^ k ∣ ceilPow x k := Nat.dvd_mul_left ..

/-- Rounding up adds less than the power. -/
theorem ceilPow_bounds (x k : ℕ) : x ≤ ceilPow x k ∧ ceilPow x k < x + 2 ^ k := by
  have hpos : 0 < 2 ^ k := Nat.two_pow_pos k
  have hdiv := Nat.div_add_mod' (x + (2 ^ k - 1)) (2 ^ k)
  have hmod := Nat.mod_lt (x + (2 ^ k - 1)) hpos
  unfold ceilPow
  omega

/-- A multiple stays. -/
theorem ceilPow_of_dvd (h : 2 ^ k ∣ x) : ceilPow x k = x := by
  obtain ⟨hle, hlt⟩ := ceilPow_bounds x k
  have hsub : 2 ^ k ∣ ceilPow x k - x := Nat.dvd_sub (dvd_ceilPow x k) h
  have hzero := Nat.eq_zero_of_dvd_of_lt hsub (by omega)
  omega

/-- A multiple in the address space is not in its last part. -/
theorem add_le_of_dvd (hk : k ≤ 64) (h : 2 ^ k ∣ x) (hx : x < 2 ^ 64) : x + 2 ^ k ≤ 2 ^ 64 := by
  have hle := Nat.le_of_dvd (by omega) (Nat.dvd_sub (pow_dvd_pow 2 hk) h)
  omega

/-- The mask of a power of two. -/
theorem toNat_twoPow_sub_one (hk : k < 64) : (BitVec.twoPow 64 k - 1).toNat = 2 ^ k - 1 := by
  have hpos : 1 ≤ 2 ^ k := Nat.one_le_two_pow
  have htwo : (BitVec.twoPow 64 k).toNat = 2 ^ k := by
    rw [BitVec.toNat_twoPow, Nat.mod_eq_of_lt (Nat.pow_lt_pow_right (by decide) hk)]
  rw [BitVec.toNat_sub_of_le (BitVec.le_def.mpr (htwo ▸ hpos)), htwo]
  rfl

/-- A power of two has no bit of its mask. -/
theorem twoPow_and_sub_one (hk : k < 64) : BitVec.twoPow 64 k &&& (BitVec.twoPow 64 k - 1) = 0 := by
  apply BitVec.eq_of_toNat_eq
  rw [Word.toNat_and_low (toNat_twoPow_sub_one hk), BitVec.toNat_twoPow,
    Nat.mod_eq_of_lt (Nat.pow_lt_pow_right (by decide) hk), Nat.mod_self]
  rfl

/-- The masks of `align_up` and `align_ptr` round up. -/
theorem roundUp_eq (hk : k < 64) {v : BitVec 64} (hv : v.toNat + 2 ^ k ≤ 2 ^ 64) :
    (v + (BitVec.twoPow 64 k - 1)) &&& ~~~(BitVec.twoPow 64 k - 1) =
      BitVec.ofNat 64 (ceilPow v.toNat k) := by
  have hpos : 1 ≤ 2 ^ k := Nat.one_le_two_pow
  have hmask : (~~~(BitVec.twoPow 64 k - 1)).toNat = (2 ^ (64 - k) - 1) * 2 ^ k := by
    rw [BitVec.toNat_not, toNat_twoPow_sub_one hk, Nat.sub_mul, ← pow_add, Nat.sub_add_cancel hk.le]
    omega
  obtain ⟨-, hlt⟩ := ceilPow_bounds v.toNat k
  have hle : ceilPow v.toNat k ≤ v.toNat + (2 ^ k - 1) := by omega
  apply BitVec.eq_of_toNat_eq
  rw [Word.toNat_and_high hmask hk.le, BitVec.toNat_add, toNat_twoPow_sub_one hk,
    toNat_ofNat_of_lt (by omega), Nat.mod_eq_of_lt (by omega), ceilPow]

/-- `align_ptr` rounds up when it does not wrap. -/
theorem alignPtr_eq (hk : k < 64) (hx : x + 2 ^ k ≤ 2 ^ 64) :
    alignPtr (BitVec.ofNat 64 x) (BitVec.twoPow 64 k) = some (BitVec.ofNat 64 (ceilPow x k)) := by
  have hpos : 1 ≤ 2 ^ k := Nat.one_le_two_pow
  have hxn : (BitVec.ofNat 64 x).toNat = x := toNat_ofNat_of_lt (by omega)
  rw [alignPtr, tlsfAssert_bind (twoPow_and_sub_one hk), roundUp_eq hk (by rw [hxn]; exact hx), hxn]

/-- What `adjust_request_size` returns for this alignment. -/
theorem exists_adjustRequestSizeTo (hk : k < 64) {v : Size} (hv : v.toNat + 2 ^ k ≤ 2 ^ 64)
    (hmin : 24 < v.toNat) : ∃ r, adjustRequestSizeTo v (BitVec.twoPow 64 k) = some r ∧
      (r = 0 ∨ r.toNat = ceilPow v.toNat k ∧ r.toNat < 2 ^ 32) := by
  obtain ⟨hle, hlt⟩ := ceilPow_bounds v.toNat k
  have hne : v ≠ 0 := fun heq => by
    rw [heq] at hmin
    exact absurd hmin (by decide)
  have hup : alignUpTo v (BitVec.twoPow 64 k) = some (BitVec.ofNat 64 (ceilPow v.toNat k)) := by
    rw [alignUpTo, tlsfAssert_bind (twoPow_and_sub_one hk), roundUp_eq hk hv]
  have hceil : ceilPow v.toNat k < 2 ^ 64 := by
    rcases Nat.lt_or_ge (ceilPow v.toNat k) (2 ^ 64) with hlt' | hge
    · exact hlt'
    · omega
  have hnat : (BitVec.ofNat 64 (ceilPow v.toNat k)).toNat = ceilPow v.toNat k :=
    toNat_ofNat_of_lt hceil
  rw [adjustRequestSizeTo, if_neg hne, hup]
  refine ⟨_, rfl, ?_⟩
  -- rounding up may have gone above the largest size, and then the request fails
  split
  case isTrue hmax =>
    have hmax' := BitVec.lt_def.mp hmax
    rw [hnat] at hmax'
    rw [if_pos (BitVec.lt_def.mpr (by rw [hnat]; exact hmin.trans_le hle)), hnat]
    exact .inr ⟨rfl, hmax'⟩
  case isFalse => exact .inl rfl

/-- The pointer that is returned is `g` bytes behind the one that was found. If there is a gap, it
is large enough for a block, and not larger than what was asked for in addition. -/
theorem alignedPtr_spec (hk : k < 64) (hd : 8 ∣ x) (h : k ≤ 3 ∧ x + 24 ≤ 2 ^ 64 ∨
      4 ≤ k ∧ x + 2 ^ k + 48 ≤ 2 ^ 64) :
    ∃ g, alignedPtr (BitVec.ofNat 64 x) (BitVec.twoPow 64 k) = some (BitVec.ofNat 64 (x + g)) ∧
      2 ^ k ∣ x + g ∧ 8 ∣ g ∧ (g = 0 ∨ 32 ≤ g ∧ 4 ≤ k ∧ g ≤ 2 ^ k + 24) := by
  rcases h with ⟨hk3, hx⟩ | ⟨hk4, hx⟩
  · have hpow : 2 ^ k ∣ 2 ^ 3 := pow_dvd_pow 2 hk3
    have hle : 2 ^ k ≤ 2 ^ 3 := Nat.le_of_dvd (by decide) hpow
    have hdvd : 2 ^ k ∣ x := hpow.trans hd
    refine ⟨0, ?_, hdvd, dvd_zero 8, .inl rfl⟩
    rw [alignedPtr, alignPtr_eq hk (by omega), ceilPow_of_dvd hdvd, Option.bind_eq_bind,
      Option.bind_some, BitVec.sub_self, if_neg (fun hand => hand.1 rfl), Nat.add_zero]
  have hpow : 2 ^ 4 ≤ 2 ^ k := Nat.pow_le_pow_right (by decide) hk4
  have hfour : 2 ^ 4 ∣ 2 ^ k := pow_dvd_pow 2 hk4
  obtain ⟨hle, hlt⟩ := ceilPow_bounds x k
  have hdvd := dvd_ceilPow x k
  obtain ⟨g, hg⟩ : ∃ g, ceilPow x k = x + g := ⟨ceilPow x k - x, by omega⟩
  rw [hg] at hle hlt hdvd
  -- what is rounded up is a multiple of eight already
  have hgd : 8 ∣ g := by
    have := hfour.trans hdvd
    omega
  have hgap : BitVec.ofNat 64 (x + g) - BitVec.ofNat 64 x = BitVec.ofNat 64 g := by
    rw [sub_ofNat (by omega) (by omega), Nat.add_sub_cancel_left]
  have hgn : (BitVec.ofNat 64 g).toNat = g := toNat_ofNat_of_lt (by omega)
  rw [alignedPtr, alignPtr_eq hk (by omega), hg, Option.bind_eq_bind, Option.bind_some]
  simp only [hgap]
  by_cases hsmall : g ≠ 0 ∧ g < 32
  · have hcond : BitVec.ofNat 64 g ≠ 0 ∧ BitVec.ofNat 64 g < sizeofBlockHeader := by
      refine ⟨ofNat_ne_zero (by omega) (by omega), BitVec.lt_def.mpr ?_⟩
      rw [hgn]
      exact hsmall.2
    have hremain : sizeofBlockHeader - BitVec.ofNat 64 g = BitVec.ofNat 64 (32 - g) :=
      sub_ofNat hsmall.2.le (by decide)
    have htwo : BitVec.twoPow 64 k = BitVec.ofNat 64 (2 ^ k) := by
      apply BitVec.eq_of_toNat_eq
      rw [BitVec.toNat_twoPow, BitVec.toNat_ofNat]
    have htwon : (BitVec.ofNat 64 (2 ^ k)).toNat = 2 ^ k := toNat_ofNat_of_lt (by omega)
    rw [if_pos hcond, hremain]
    obtain rfl | hk5 : k = 4 ∨ 5 ≤ k := by omega
    · -- the gap is of 8 bytes, and the next pointer but one is taken
      obtain rfl : g = 8 := by omega
      have hceil : ceilPow (x + 32) 4 = x + 40 := by
        have := ceilPow_bounds (x + 32) 4
        have := dvd_ceilPow (x + 32) 4
        omega
      refine ⟨40, ?_, by omega, by decide, .inr ⟨by decide, by decide, by decide⟩⟩
      rw [if_pos (by decide), ofNat_add_ofNat, alignPtr_eq hk (by omega)]
      exact congrArg (fun y => some (BitVec.ofNat 64 y)) hceil
    · -- the next multiple is taken
      have hpow5 : 2 ^ 5 ≤ 2 ^ k := Nat.pow_le_pow_right (by decide) hk5
      have hno : ¬ BitVec.ofNat 64 (32 - g) > BitVec.twoPow 64 k := by
        rw [htwo, gt_iff_lt, BitVec.lt_def, htwon, toNat_ofNat_of_lt (by omega)]
        omega
      have hnext : 2 ^ k ∣ x + (g + 2 ^ k) := by
        rw [← Nat.add_assoc]
        exact Nat.dvd_add hdvd (dvd_refl _)
      have hroom := add_le_of_dvd hk.le hnext (by omega)
      refine ⟨g + 2 ^ k, ?_, hnext, ?_, .inr (by omega)⟩
      · rw [if_neg hno]
        nth_rewrite 1 [htwo]
        rw [ofNat_add_ofNat, Nat.add_assoc, alignPtr_eq hk hroom, ceilPow_of_dvd hnext]
      · omega
  · have hcond : ¬ (BitVec.ofNat 64 g ≠ 0 ∧ BitVec.ofNat 64 g < sizeofBlockHeader) := by
      rintro ⟨hne, hlt'⟩
      have hlt' := BitVec.lt_def.mp hlt'
      rw [hgn] at hlt'
      exact hsmall ⟨fun heq => hne (by rw [heq]; rfl), hlt'⟩
    rw [if_neg hcond]
    exact ⟨g, rfl, hdvd, hgd, by omega⟩

/-! ### The part in front

What is in front of the aligned pointer becomes a free block, for which there must be room; the
search asked for enough. -/

/-- `block_trim_free_leading`. -/
theorem Open.trimFreeLeading (h : Open control m c C S) (hg : 32 ≤ g ∧ 8 ∣ g) (hle : g + 32 ≤ S) :
    ∃ m' c' C', m.blockTrimFreeLeading control (BitVec.ofNat 64 (C.addr 8)) (BitVec.ofNat 64 g) =
        some (BitVec.ofNat 64 (C'.addr 8), m') ∧ C'.addr 8 = C.addr 8 + g ∧
        Open control m' c' C' (S - g) ∧
      Alike (C.fill [⟨S, true⟩]) (C'.fill [⟨S - g, true⟩]) ∧
      Stores (Spare control (C.fill [⟨S, true⟩])) m.mem m'.mem := by
  obtain ⟨hmin, hd, hlt, ha, hend⟩ := h.layout.bounds
  -- the gap is a block of its own, with a header
  obtain ⟨s, rfl⟩ : ∃ s, g = s + 8 := ⟨g - 8, by omega⟩
  obtain ⟨n, rfl⟩ : ∃ n, S = s + 8 + n := ⟨S - (s + 8), by omega⟩
  rw [Nat.add_sub_cancel_left]
  have hcan := blockCanSplit_eq (Rep.focus h) hd hlt (show s + 8 < 2 ^ 32 by omega)
  have hsub : BitVec.ofNat 64 (s + 8) - blockHeaderOverhead = BitVec.ofNat 64 s :=
    sub_ofNat (by omega) (by omega)
  obtain ⟨m₁, linked, hsplit, hlink, hrep, hstores⟩ := Rep.splitLeading h h.notMem
    ⟨by omega, by omega⟩ ⟨by omega, by omega⟩
  have hwidth : width 8 [⟨s + 8 + n, true⟩] = width 8 [⟨s, true⟩, ⟨n, true⟩] := by
    simp only [width]
    omega
  -- a free block is cut in two free ones, so the blocks in use are the same
  have hused : blocksOf false (C.fill [⟨s, true⟩, ⟨n, true⟩]) =
    blocksOf false (C.fill [⟨s + 8 + n, true⟩]) := by
    rw [blocksOf_fill [⟨s, true⟩, ⟨n, true⟩] rfl,
      blocksOf_fill [⟨s + 8 + n, true⟩] (congrArg (_ + ·) hwidth)]
    simp [place]
  rw [show s + 8 + n = s + (n + 8) by omega] at hrep
  obtain ⟨m', hm', hrep', hstores'⟩ := hrep.blockInsert (x := (C.addr 8, s)) Ctx.head_mem_fill
    hrep.layout.notMem_joined.1
  rw [← blocksOf_first, fill_cons C ⟨s, true⟩, fill_cons C ⟨s, true⟩] at hrep'
  have haddr : Ctx.addr { C with left := C.left ++ [⟨s, true⟩] } 8 = C.addr 8 + 8 + s :=
    addr_cons C _
  refine ⟨m', _, { C with left := C.left ++ [⟨s, true⟩] }, ?_, ?_, hrep', ⟨?_, ?_⟩, ?_⟩
  · rw [blockTrimFreeLeading, if_pos (hcan.trans (decide_eq_true (by omega))), hsub, hsplit,
      Option.bind_eq_bind, Option.bind_some, hlink, Option.bind_some, haddr]
    exact congrArg (· >>= _) hm'
  · rw [haddr]
    omega
  · rw [← fill_cons C ⟨s, true⟩, hused]
  · rw [← fill_cons C ⟨s, true⟩]
    exact extents_fill hwidth.symm
  · have hspare : Spare control _ ⊆ Spare control _ := spare_mono hused.ge (extents_fill hwidth)
    exact ((hstores.mono hspare).trans (hstores'.mono hspare)).mono (Set.union_self _).le

/-! ### The call

The aligned block is what is left after the part in front and the part behind were cut off. -/

/-- The size that `tlsf_memalign` looks for. -/
theorem exists_alignedSize (hk : k ≤ 62) (adjust : Size) (hlt : adjust.toNat < 2 ^ 32)
    (hmin : adjust ≠ 0 → 24 ≤ adjust.toNat ∧ 8 ∣ adjust.toNat) :
    ∃ gap, adjustRequestSizeTo (adjust + BitVec.twoPow 64 k + sizeofBlockHeader)
      (BitVec.twoPow 64 k) = some gap ∧
      ∃ v, (if adjust ≠ 0 ∧ BitVec.twoPow 64 k > 8#64 then gap else adjust) = v ∧
        (v = 0 ∨ adjust ≠ 0 ∧ 24 ≤ v.toNat ∧ 8 ∣ v.toNat ∧ v.toNat < 2 ^ 32 ∧
        adjust.toNat ≤ v.toNat ∧
          (k ≤ 3 ∨ 4 ≤ k ∧ adjust.toNat + 2 ^ k + 32 ≤ v.toNat)) := by
  have hpow : 2 ^ k ≤ 2 ^ 62 := Nat.pow_le_pow_right (by decide) hk
  have htwo : (BitVec.twoPow 64 k).toNat = 2 ^ k := by
    rw [BitVec.toNat_twoPow, Nat.mod_eq_of_lt (by omega)]
  have hsum : (adjust + BitVec.twoPow 64 k + sizeofBlockHeader).toNat =
    adjust.toNat + 2 ^ k + 32 := by
    have hhead : sizeofBlockHeader.toNat = 32 := rfl
    rw [BitVec.toNat_add, BitVec.toNat_add, htwo, hhead,
      Nat.mod_eq_of_lt (a := adjust.toNat + 2 ^ k) (by omega), Nat.mod_eq_of_lt (by omega)]
  obtain ⟨gap, hgap, hspec⟩ := exists_adjustRequestSizeTo (k := k) (by omega)
    (v := adjust + BitVec.twoPow 64 k + sizeofBlockHeader) (by rw [hsum]; omega)
    (by rw [hsum]; omega)
  refine ⟨gap, hgap, _, rfl, ?_⟩
  -- Three cases: a request that fails, one whose alignment every block has, and one that needs a
  -- gap.
  by_cases hzero : adjust = 0
  · rw [if_neg (fun hand => hand.1 hzero)]
    exact .inl hzero
  obtain ⟨hmin, hd⟩ := hmin hzero
  by_cases hk3 : k ≤ 3
  · have hle : 2 ^ k ≤ 2 ^ 3 := Nat.pow_le_pow_right (by decide) hk3
    have hno : ¬ BitVec.twoPow 64 k > 8#64 := by
      rw [gt_iff_lt, BitVec.lt_def, htwo, not_lt]
      exact hle
    rw [if_neg (fun hand => hno hand.2)]
    exact .inr ⟨hzero, hmin, hd, hlt, le_rfl, .inl hk3⟩
  · have hle : 2 ^ 4 ≤ 2 ^ k := Nat.pow_le_pow_right (by decide) (by omega)
    have hfour : 2 ^ 4 ∣ 2 ^ k := pow_dvd_pow 2 (by omega)
    have hlarge : BitVec.twoPow 64 k > 8#64 := by
      rw [gt_iff_lt, BitVec.lt_def, htwo]
      exact lt_of_lt_of_le (by decide) hle
    rw [if_pos ⟨hzero, hlarge⟩]
    refine hspec.imp_right fun ⟨hceil, hmax⟩ => ?_
    rw [hsum] at hceil
    obtain ⟨hge, -⟩ := ceilPow_bounds (adjust.toNat + 2 ^ k + 32) k
    have hdvd := hfour.trans (dvd_ceilPow (adjust.toNat + 2 ^ k + 32) k)
    rw [← hceil] at hge hdvd
    exact ⟨hzero, by omega, by omega, hmax, by omega, .inr ⟨by omega, hge⟩⟩

/-- `tlsf_memalign`. If there is a block, it is one that was not in use, has room for the request,
and is aligned. -/
theorem Good.tlsfMemalign (h : Good control m c pools) (hk : k ≤ 62) (size : Size) :
    m.tlsfMemalign control (BitVec.twoPow 64 k) size = some (0, m) ∨
    ∃ x m' c' pools', m.tlsfMemalign control (BitVec.twoPow 64 k) size =
        some (BitVec.ofNat 64 (x.1 + 16), m') ∧ Good control m' c' pools' ∧ Takes pools pools' x ∧
      (adjustRequestSize size).toNat ≤ x.2 ∧ 24 ≤ x.2 ∧ 2 ^ k ∣ x.1 + 16 ∧
      Stores (Spare control pools) m.mem m'.mem := by
  obtain ⟨gap, hgap, v, hv, hspec⟩ := exists_alignedSize hk (adjustRequestSize size) (by
    by_cases hzero : adjustRequestSize size = 0
    · rw [hzero]
      decide
    · exact (adjust_spec hzero).2.2.1) fun hzero => ⟨(adjust_spec hzero).1, (adjust_spec hzero).2.1⟩
  unfold TlsfMem.tlsfMemalign
  simp only
  rw [hgap, Option.bind_eq_bind, Option.bind_some, hv]
  rcases hspec with rfl | ⟨hzero, hvmin, hvd, hvlt, hva, hvk⟩
  · left
    rw [TlsfMem.blockLocateFree, if_pos rfl, Option.bind_eq_bind, Option.bind_some, if_pos rfl]
    rfl
  rcases h.blockLocateFree hvmin hvd hvlt with ⟨-, hm⟩ | ⟨C, s, c₁, rfl, -, hle, hm₁⟩
  · left
    rw [hm m h, Option.bind_eq_bind, Option.bind_some, if_pos rfl]
    rfl
  right
  obtain ⟨m₁, hm₁, hopen₁, hstores₁⟩ := hm₁ m h
  obtain ⟨hmin, hd, -⟩ := adjust_spec hzero
  obtain ⟨-, -, -, ha, hend⟩ := hopen₁.layout.bounds
  have hne := hopen₁.layout.addr_ne_zero
  obtain ⟨g, haligned, hdvd, hgd, hg⟩ :=
    alignedPtr_spec (k := k) (x := C.addr 8 + 16) (by omega) (by omega)
    (by omega)
  have hsub : BitVec.ofNat 64 (C.addr 8 + 16 + g) - BitVec.ofNat 64 (C.addr 8 + 16) =
    BitVec.ofNat 64 g := by
    rw [sub_ofNat (by omega) (by omega), Nat.add_sub_cancel_left]
  rw [hm₁, Option.bind_eq_bind, Option.bind_some]
  simp only
  rw [if_neg hne, blockToPtr_eq, haligned, Option.bind_some, hsub]
  rcases hg with rfl | ⟨hg, hk4, hgle⟩
  · -- the block that was found is aligned
    obtain ⟨pools', s', htakes, hle', hmin', -, hm'⟩ :=
      hopen₁.prepareUsed hzero ⟨hmin, hd⟩ (hva.trans hle)
    obtain ⟨m', hm', hgood, hstores'⟩ := hm' m₁ hopen₁
    refine ⟨(C.addr 8, s'), m', _, pools', ?_, hgood, htakes, hle', hmin', hdvd, ?_⟩
    · rw [if_neg (fun hne => hne rfl)]
      exact hm'
    · exact (hstores₁.trans hstores').mono (Set.union_self _).le
  · have hgap : BitVec.ofNat 64 g ≥ sizeofBlockHeader := by
      rw [ge_iff_le, BitVec.le_def, toNat_ofNat_of_lt (by omega)]
      exact hg
    have hgne := ofNat_ne_zero (show 0 < g by omega) (by omega)
    obtain ⟨m₂, c₂, C₂, hm₂, haddr₂, hopen₂, hsame₂, hstores₂⟩ :=
      hopen₁.trimFreeLeading (g := g) ⟨hg, hgd⟩ (by omega)
    obtain ⟨pools', s', ⟨hnew, hused, hext⟩, hle', hmin', -, hm'⟩ :=
      hopen₂.prepareUsed hzero ⟨hmin, hd⟩ (by omega)
    obtain ⟨m', hm', hgood, hstores'⟩ := hm' m₂ hopen₂
    refine ⟨(C₂.addr 8, s'), m', _, pools', ?_, hgood,
      ⟨?_, ?_, hext.trans hsame₂.2⟩, hle', hmin', ?_, ?_⟩
    · rw [if_pos hgne, tlsfAssert_bind hgap, hm₂, Option.bind_some]
      exact hm'
    · rw [← hsame₂.1]
      exact hnew
    · rw [← hsame₂.1]
      exact hused
    · rw [haddr₂, show C.addr 8 + g + 16 = C.addr 8 + 16 + g by omega]
      exact hdvd
    · rw [hsame₂.spare] at hstores'
      apply ((hstores₁.trans hstores₂).trans hstores').mono
      simp only [Set.union_self, subset_refl]

end TlsfMem

end Koharu
