import Koharu.Lib.Tiling
import Koharu.Mm.TlsfMem

/-!
# The headers of the blocks

What the functions of `tlsf.c` for one header do, for a block whose place and size are numbers. The
`size` field of a block is `tag s f p`: its size, whether it is free, and whether the block before
it is. Where a block begins, `block_split` and `tlsf_add_pool` take the flags of a new header from
what is in memory there, and set them afterwards.
-/

namespace Koharu

open Tlsf WordMemory Tiling

namespace TlsfMem

/-- The `size` field of a block. -/
def tag (size : ℕ) (free prevFree : Bool) : Size :=
  BitVec.ofNat 64 size ||| (if free then blockHeaderFreeBit else 0#64) |||
    if prevFree then blockHeaderPrevFreeBit else 0#64

section Tags

variable {s : ℕ} {f p : Bool} {i : ℕ}

/-- The bits of the flag of a free block. -/
theorem getLsbD_freeBit (i : ℕ) : blockHeaderFreeBit.getLsbD i = decide (i = 0) := by
  rw [show blockHeaderFreeBit = BitVec.twoPow 64 0 from rfl, BitVec.getLsbD_twoPow]
  simp [eq_comm]

/-- The bits of the flag of a block behind a free one. -/
theorem getLsbD_prevFreeBit (i : ℕ) : blockHeaderPrevFreeBit.getLsbD i = decide (i = 1) := by
  rw [show blockHeaderPrevFreeBit = BitVec.twoPow 64 1 from rfl, BitVec.getLsbD_twoPow]
  simp [eq_comm]

/-- The two lowest bits of a size word are the flags, and the others are those of the size. -/
theorem getLsbD_tag (hs : 8 ∣ s) (f p : Bool) (i : ℕ) : (tag s f p).getLsbD i =
    if i = 0 then f else if i = 1 then p else (BitVec.ofNat 64 s).getLsbD i := by
  obtain ⟨q, rfl⟩ := hs
  -- a multiple of eight leaves the three low bits to the flags
  have hlow : ∀ j < 3, (BitVec.ofNat 64 (8 * q)).getLsbD j = false := by
    intro j hj
    rw [BitVec.getLsbD_ofNat, Nat.mul_comm, show 8 = 2 ^ 3 from rfl, Nat.testBit_mul_two_pow]
    simp [hj]
  have hflag : ∀ (b : Bool) (w : Size), (if b then w else 0#64).getLsbD i = (b && w.getLsbD i) := by
    intro b w
    cases b <;> simp
  rw [tag, BitVec.getLsbD_or, BitVec.getLsbD_or, hflag, hflag, getLsbD_freeBit, getLsbD_prevFreeBit]
  by_cases h0 : i = 0
  · rw [h0, hlow 0 (by decide)]
    simp
  · by_cases h1 : i = 1
    · rw [h1, hlow 1 (by decide)]
      simp
    · simp [h0, h1]

/-- `block_size` masks the flags out. -/
theorem tag_and_size (hs : 8 ∣ s) :
    tag s f p &&& ~~~(blockHeaderFreeBit ||| blockHeaderPrevFreeBit) = BitVec.ofNat 64 s := by
  apply BitVec.eq_of_getLsbD_eq
  intro i hi
  have hzero := getLsbD_tag hs false false i
  have hnone : tag s false false = BitVec.ofNat 64 s := by simp [tag]
  rw [hnone] at hzero
  rw [BitVec.getLsbD_and, BitVec.getLsbD_not, BitVec.getLsbD_or, getLsbD_tag hs, getLsbD_freeBit,
    getLsbD_prevFreeBit, hzero]
  by_cases h0 : i = 0
  · simp [h0]
  · by_cases h1 : i = 1
    · simp [h1]
    · simp [h0, h1, hi]

/-- `block_set_free` sets the first flag and keeps the rest. -/
theorem tag_or_free (hs : 8 ∣ s) : tag s f p ||| blockHeaderFreeBit = tag s true p := by
  apply BitVec.eq_of_getLsbD_eq
  intro i _
  rw [BitVec.getLsbD_or, getLsbD_tag hs, getLsbD_tag hs, getLsbD_freeBit]
  by_cases h0 : i = 0 <;> simp [h0]

/-- `block_set_prev_free` sets the second one. -/
theorem tag_or_prevFree (hs : 8 ∣ s) : tag s f p ||| blockHeaderPrevFreeBit = tag s f true := by
  apply BitVec.eq_of_getLsbD_eq
  intro i _
  rw [BitVec.getLsbD_or, getLsbD_tag hs, getLsbD_tag hs, getLsbD_prevFreeBit]
  by_cases h0 : i = 0
  · simp [h0]
  · by_cases h1 : i = 1 <;> simp [h0, h1]

/-- `block_set_used` takes the first flag away. -/
theorem tag_and_not_free (hs : 8 ∣ s) : tag s f p &&& ~~~blockHeaderFreeBit = tag s false p := by
  apply BitVec.eq_of_getLsbD_eq
  intro i hi
  rw [BitVec.getLsbD_and, BitVec.getLsbD_not, getLsbD_tag hs, getLsbD_tag hs, getLsbD_freeBit]
  by_cases h0 : i = 0
  · simp [h0]
  · by_cases h1 : i = 1 <;> simp [h0, h1, hi]

/-- `block_set_prev_used` takes the second one away. -/
theorem tag_and_not_prevFree (hs : 8 ∣ s) :
    tag s f p &&& ~~~blockHeaderPrevFreeBit = tag s f false := by
  apply BitVec.eq_of_getLsbD_eq
  intro i hi
  rw [BitVec.getLsbD_and, BitVec.getLsbD_not, getLsbD_tag hs, getLsbD_tag hs, getLsbD_prevFreeBit]
  by_cases h0 : i = 0
  · simp [h0]
  · by_cases h1 : i = 1 <;> simp [h0, h1, hi]

/-- What `block_is_free` tests is the lowest bit. -/
theorem and_freeBit_ne_zero (w : Size) : w &&& blockHeaderFreeBit ≠ 0 ↔ w.getLsbD 0 = true := by
  rw [show blockHeaderFreeBit = BitVec.twoPow 64 0 from rfl, BitVec.and_twoPow]
  cases w.getLsbD 0 <;> decide

/-- What `block_is_prev_free` tests is the bit after it. -/
theorem and_prevFreeBit_ne_zero (w : Size) :
    w &&& blockHeaderPrevFreeBit ≠ 0 ↔ w.getLsbD 1 = true := by
  rw [show blockHeaderPrevFreeBit = BitVec.twoPow 64 1 from rfl, BitVec.and_twoPow]
  cases w.getLsbD 1 <;> decide

/-- The flags do not overlap with the size, so the word is a sum. -/
theorem tag_eq_add (hs : 8 ∣ s) : tag s f p = BitVec.ofNat 64 s +
    (if f then blockHeaderFreeBit else 0#64) + if p then blockHeaderPrevFreeBit else 0#64 := by
  -- the flags and the size have no bit in common, so that `or` is addition
  have hdisj : ∀ q, tag s false q &&& blockHeaderFreeBit = 0#64 := fun q => by
    by_contra hne
    have := (and_freeBit_ne_zero _).mp hne
    rw [getLsbD_tag hs] at this
    cases this
  have hdisj' : ∀ g, tag s g false &&& blockHeaderPrevFreeBit = 0#64 := fun g => by
    by_contra hne
    have := (and_prevFreeBit_ne_zero _).mp hne
    rw [getLsbD_tag hs] at this
    cases this
  have hzero : tag s false false = BitVec.ofNat 64 s := by simp [tag]
  have hfree : tag s f false = BitVec.ofNat 64 s + if f then blockHeaderFreeBit else 0#64 := by
    cases f with
    | false => simpa using hzero
    | true =>
        rw [← tag_or_free (f := false) hs, ← BitVec.add_eq_or_of_and_eq_zero _ _ (hdisj false),
          hzero, if_pos rfl]
  cases p with
  | false => simpa using hfree
  | true =>
      rw [← tag_or_prevFree (p := false) hs, ← BitVec.add_eq_or_of_and_eq_zero _ _ (hdisj' f),
        hfree, if_pos rfl]

/-- When a block is absorbed, what is added to the word is added to the size. -/
theorem tag_add {k : ℕ} (hs : 8 ∣ s) (hk : 8 ∣ k) :
    tag s f p + BitVec.ofNat 64 k = tag (s + k) f p := by
  rw [tag_eq_add hs, tag_eq_add (Nat.dvd_add hs hk), BitVec.ofNat_add]
  ac_rfl

/-- `block_set_size` keeps whatever flags there are. -/
theorem or_and_flags (hs : 8 ∣ s) (w : Size) :
    BitVec.ofNat 64 s ||| (w &&& (blockHeaderFreeBit ||| blockHeaderPrevFreeBit)) =
      tag s (w.getLsbD 0) (w.getLsbD 1) := by
  apply BitVec.eq_of_getLsbD_eq
  intro i _
  have hzero := getLsbD_tag hs false false i
  have hnone : tag s false false = BitVec.ofNat 64 s := by simp [tag]
  rw [hnone] at hzero
  rw [BitVec.getLsbD_or, BitVec.getLsbD_and, BitVec.getLsbD_or, getLsbD_tag hs, getLsbD_freeBit,
    getLsbD_prevFreeBit, hzero]
  by_cases h0 : i = 0
  · simp [h0]
  · by_cases h1 : i = 1 <;> simp [h0, h1]


end Tags

/-! ### Fields

A header is two words, the second of which also has the flags. A block that is free has its two
links in its first words. -/

/-- What headers consist of: addresses and sizes, which are multiples of eight, and the two
flags. -/
def headerWords : Set (BitVec 64) := {v | v.toNat % 8 < 4}

/-- Headers and links were stored to some of the addresses `S`. -/
abbrev Stores (S : Set ℕ) (mem mem' : Addr → BitVec 8) : Prop := Writes headerWords S mem mem'

section Fields

variable (m : TlsfMem) (a b : ℕ) (v : BitVec 64)

variable {a} in
/-- Addresses of blocks are words of headers. -/
theorem ofNat_mem_headerWords (ha : 8 ∣ a) : BitVec.ofNat 64 a ∈ headerWords := by
  rw [headerWords, Set.mem_ofPred_eq, BitVec.toNat_ofNat]
  omega

/-- So are sizes with flags. -/
theorem tag_mem_headerWords {s : ℕ} (hs : 8 ∣ s) (f p : Bool) : tag s f p ∈ headerWords := by
  have hone : blockHeaderFreeBit.toNat = 1 := rfl
  have htwo : blockHeaderPrevFreeBit.toNat = 2 := rfl
  have hzero : (0#64).toNat = 0 := rfl
  rw [headerWords, Set.mem_ofPred_eq, tag_eq_add hs]
  cases f <;> cases p <;> simp only [BitVec.toNat_add, BitVec.toNat_ofNat, hone, htwo, if_true,
    Bool.false_eq_true, if_false] <;> omega

/-- Offsets from an address are added as numbers. -/
theorem ofNat_add_ofNat : BitVec.ofNat 64 a + BitVec.ofNat 64 b = BitVec.ofNat 64 (a + b) :=
  (BitVec.ofNat_add a b).symm

/-- `prev_phys_block` is the first word of a header. -/
theorem prevPhysBlock_eq : m.prevPhysBlock (BitVec.ofNat 64 a) = wordAt m.mem a := rfl

/-- `size` is the second one. -/
theorem size_eq : m.size (BitVec.ofNat 64 a) = wordAt m.mem (a + 8) := by
  rw [size, getWord, ofNat_add_ofNat, wordAt]

/-- `next_free` is the first word of the block. -/
theorem nextFree_eq : m.nextFree (BitVec.ofNat 64 a) = wordAt m.mem (a + 16) := by
  rw [nextFree, getWord, ofNat_add_ofNat, wordAt]

/-- `prev_free` is the second word of the block. -/
theorem prevFree_eq : m.prevFree (BitVec.ofNat 64 a) = wordAt m.mem (a + 24) := by
  rw [prevFree, getWord, ofNat_add_ofNat, wordAt]

/-- The second word of the header is stored. -/
theorem setSize_eq :
    m.setSize (BitVec.ofNat 64 a) v = m.setWord (BitVec.ofNat 64 (a + 8)) v := by
  rw [setSize, ofNat_add_ofNat]

/-- The first word of the block is stored. -/
theorem setNextFree_eq :
    m.setNextFree (BitVec.ofNat 64 a) v = m.setWord (BitVec.ofNat 64 (a + 16)) v := by
  rw [setNextFree, ofNat_add_ofNat]

/-- The second word of the block is stored. -/
theorem setPrevFree_eq :
    m.setPrevFree (BitVec.ofNat 64 a) v = m.setWord (BitVec.ofNat 64 (a + 24)) v := by
  rw [setPrevFree, ofNat_add_ofNat]

/-- A pointer to a block is behind its header. -/
theorem blockToPtr_eq : blockToPtr (BitVec.ofNat 64 a) = BitVec.ofNat 64 (a + 16) :=
  ofNat_add_ofNat a 16

/-- A block at an offset from another one. -/
theorem offsetToBlock_eq : offsetToBlock (BitVec.ofNat 64 a) (BitVec.ofNat 64 b) =
    BitVec.ofNat 64 (a + b) :=
  ofNat_add_ofNat a b

variable {a b} {x y : ℕ}

/-- A word after another one was set. -/
theorem wordAt_setWord_of_ne (hx : 8 ∣ x) (hy : 8 ∣ y) (hxn : x + 8 ≤ 2 ^ 64) (hyn : y + 8 ≤ 2 ^ 64)
    (hne : y ≠ x) : wordAt (m.setWord (BitVec.ofNat 64 x) v).mem y = wordAt m.mem y :=
  wordAt_store_of_ne hx hy hxn hyn hne _ v

/-- A word that was stored is read back. -/
theorem wordAt_setWord_self : wordAt (m.setWord (BitVec.ofNat 64 x) v).mem x = v :=
  wordAt_store_self (by decide) _ _ v

variable {v} in
/-- A word of a header is stored, and nothing else. -/
theorem stores_setWord (hx : 8 ∣ x) (hxn : x + 8 ≤ 2 ^ 64) (hv : v ∈ headerWords) :
    Stores {x} m.mem (m.setWord (BitVec.ofNat 64 x) v).mem :=
  writes_store (by decide) hx hxn hv _

/-- Differences of addresses are those of the numbers, as long as they are not negative. -/
theorem sub_ofNat (h : b ≤ a) (ha : a < 2 ^ 64) :
    BitVec.ofNat 64 a - BitVec.ofNat 64 b = BitVec.ofNat 64 (a - b) := by
  apply BitVec.eq_of_toNat_eq
  rw [BitVec.toNat_sub, BitVec.toNat_ofNat, BitVec.toNat_ofNat, BitVec.toNat_ofNat,
    Nat.mod_eq_of_lt ha, Nat.mod_eq_of_lt (by omega : b < 2 ^ 64),
    Nat.mod_eq_of_lt (by omega : a - b < 2 ^ 64)]
  omega

/-- Numbers below the size of the address space are different addresses. -/
theorem ofNat_inj (ha : a < 2 ^ 64) (hb : b < 2 ^ 64) :
    BitVec.ofNat 64 a = BitVec.ofNat 64 b ↔ a = b := by
  constructor
  · intro h
    have := congrArg BitVec.toNat h
    rwa [BitVec.toNat_ofNat, BitVec.toNat_ofNat, Nat.mod_eq_of_lt ha, Nat.mod_eq_of_lt hb] at this
  · exact congrArg _

/-- No other such number is `NULL`. -/
theorem ofNat_ne_zero (hpos : 0 < a) (ha : a < 2 ^ 64) : BitVec.ofNat 64 a ≠ 0 := fun heq =>
  hpos.ne' ((ofNat_inj ha (by decide)).mp heq)

end Fields

/-! ### One header

Reading and setting the flags and sizes of a header whose words are known. -/

section Header

variable {m : TlsfMem} {a s n : ℕ} {f p : Bool}

/-- The size is read off the header. -/
theorem blockSize_eq (h : wordAt m.mem (a + 8) = tag s f p) (hs : 8 ∣ s) :
    m.blockSize (BitVec.ofNat 64 a) = BitVec.ofNat 64 s := by
  rw [blockSize, size_eq, h, tag_and_size hs]

/-- Whether the block is free is read off the header. -/
theorem blockIsFree_eq (h : wordAt m.mem (a + 8) = tag s f p) (hs : 8 ∣ s) :
    m.blockIsFree (BitVec.ofNat 64 a) = f := by
  rw [blockIsFree, size_eq, h, Bool.decide_congr (and_freeBit_ne_zero _), getLsbD_tag hs]
  simp

/-- Whether the block before is free is read off the header. -/
theorem blockIsPrevFree_eq (h : wordAt m.mem (a + 8) = tag s f p) (hs : 8 ∣ s) :
    m.blockIsPrevFree (BitVec.ofNat 64 a) = p := by
  rw [blockIsPrevFree, size_eq, h, Bool.decide_congr (and_prevFreeBit_ne_zero _), getLsbD_tag hs]
  simp

/-- The last block of a pool is the one without bytes. -/
theorem blockIsLast_eq (h : wordAt m.mem (a + 8) = tag s f p) (hs : 8 ∣ s) (hlt : s < 2 ^ 64) :
    m.blockIsLast (BitVec.ofNat 64 a) = decide (s = 0) := by
  rw [blockIsLast, blockSize_eq h hs]
  exact Bool.decide_congr (ofNat_inj hlt (by decide))

/-- The next block is as far away as the size says. -/
theorem blockNext_eq (h : wordAt m.mem (a + 8) = tag s f p) (hs : 8 ∣ s) (hpos : s ≠ 0)
    (hlt : s < 2 ^ 64) : m.blockNext (BitVec.ofNat 64 a) = some (BitVec.ofNat 64 (a + 8 + s)) := by
  have hlast : m.blockIsLast (BitVec.ofNat 64 a) = false := by
    rw [blockIsLast_eq h hs hlt, decide_eq_false hpos]
  rw [blockNext, hlast, blockSize_eq h hs, blockToPtr_eq,
    show blockHeaderOverhead = BitVec.ofNat 64 8 from rfl, sub_ofNat (by omega) hlt,
    offsetToBlock_eq, show a + 16 + (s - 8) = a + 8 + s by omega]
  rfl

/-- The block is marked as free. -/
theorem blockSetFree_eq (h : wordAt m.mem (a + 8) = tag s f p) (hs : 8 ∣ s) :
    m.blockSetFree (BitVec.ofNat 64 a) = m.setWord (BitVec.ofNat 64 (a + 8)) (tag s true p) := by
  rw [blockSetFree, setSize_eq, size_eq, h, tag_or_free hs]

/-- The block is marked as used. -/
theorem blockSetUsed_eq (h : wordAt m.mem (a + 8) = tag s f p) (hs : 8 ∣ s) :
    m.blockSetUsed (BitVec.ofNat 64 a) = m.setWord (BitVec.ofNat 64 (a + 8)) (tag s false p) := by
  rw [blockSetUsed, setSize_eq, size_eq, h, tag_and_not_free hs]

/-- The block is marked as behind a free one. -/
theorem blockSetPrevFree_eq (h : wordAt m.mem (a + 8) = tag s f p) (hs : 8 ∣ s) :
    m.blockSetPrevFree (BitVec.ofNat 64 a) =
      m.setWord (BitVec.ofNat 64 (a + 8)) (tag s f true) := by
  rw [blockSetPrevFree, setSize_eq, size_eq, h, tag_or_prevFree hs]

/-- The block is marked as behind a used one. -/
theorem blockSetPrevUsed_eq (h : wordAt m.mem (a + 8) = tag s f p) (hs : 8 ∣ s) :
    m.blockSetPrevUsed (BitVec.ofNat 64 a) =
      m.setWord (BitVec.ofNat 64 (a + 8)) (tag s f false) := by
  rw [blockSetPrevUsed, setSize_eq, size_eq, h, tag_and_not_prevFree hs]

/-- The flags that a new header has at first. -/
theorem exists_blockSetSize (m : TlsfMem) (a : ℕ) (hs : 8 ∣ s) : ∃ f p,
    m.blockSetSize (BitVec.ofNat 64 a) (BitVec.ofNat 64 s) =
      m.setWord (BitVec.ofNat 64 (a + 8)) (tag s f p) :=
  ⟨_, _, by rw [blockSetSize, setSize_eq, or_and_flags hs]⟩

/-- The block gets another size and keeps its flags. -/
theorem blockSetSize_eq {s' : ℕ} (h : wordAt m.mem (a + 8) = tag s f p) (hs : 8 ∣ s)
    (hs' : 8 ∣ s') :
    m.blockSetSize (BitVec.ofNat 64 a) (BitVec.ofNat 64 s') =
      m.setWord (BitVec.ofNat 64 (a + 8)) (tag s' f p) := by
  rw [blockSetSize, setSize_eq, size_eq, h, or_and_flags hs', getLsbD_tag hs, getLsbD_tag hs]
  rfl

end Header

end TlsfMem

end Koharu
