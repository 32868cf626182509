import Koharu.Mm.TlsfCalls

/-!
# Pools

`tlsf_add_pool` and `tlsf_create_with_pool` in memory. A new pool is one free block, which is put on
its list, and a header behind it.

The new pool lies apart from the others and from the control structure, which is what `Layout` says
of the pools with the new one among them. There is no block before its first block, whose header
says that the block before it is in use; and the header behind it, which has size zero, says that
the block before it is free. `tlsf_create_with_pool` does the same to a heap without pools.

* `Good.addPool`: a pool that lies apart from the others;
* `good_create`: a new heap, with its first pool behind the control structure;
* `Good.eq_of_ptr`, `Good.eq_of_byte`: blocks in use do not share an address or a byte.
-/

namespace Koharu

open Tlsf WordMemory Chain Tiling

namespace TlsfMem

variable {control : Addr} {m m' : TlsfMem} {c : Control} {F : Set (ℕ × ℕ)}
  {pools pools' : List Pool} {x y : ℕ × ℕ} {a n z : ℕ} {e : Header}

/-! ### A new pool

Its memory is written only at its ends: the header of its one block, and the last header. -/

/-- What is in the other pools is not in the new one. -/
theorem Layout.apart_cons (h : Layout control (⟨a, [⟨n, true⟩]⟩ :: pools))
    (he : e ∈ headers 8 pools) :
    a + 8 + n + 8 ≤ e.addr ∨ e.addr + e.size + 8 ≤ a := by
  obtain ⟨Q, hQ, heQ⟩ := List.mem_flatMap.mp he
  have hb := bounds_of_mem_headers heQ
  have hapart := (List.pairwise_cons.mp h.apart).1 Q hQ
  rw [show (⟨a, [⟨n, true⟩]⟩ : Pool).stop 8 = a + (8 + n) from rfl] at hapart
  simp only at hapart
  omega

/-- The headers of a heap with one more pool: its block, its sentinel and the headers from
before. -/
theorem mem_headers_cons : e ∈ headers 8 (⟨a, [⟨n, true⟩]⟩ :: pools) ↔
    e = ⟨a, n, true, false⟩ ∨ e = ⟨a + 8 + n, 0, false, true⟩ ∨ e ∈ headers 8 pools := by
  have hstop : (⟨a, [⟨n, true⟩]⟩ : Pool).stop 8 = a + 8 + n := by
    rw [Pool.stop, Nat.add_assoc]
    rfl
  rw [headers, List.flatMap_cons, List.mem_append, Pool.headers, hstop]
  simp [place, lastFree, headers, or_assoc]

/-- `tlsf_add_pool`, for a pool that it accepts. -/
theorem Good.addPool {bytes : BitVec 64} (h : Good control m c pools)
    (hlayout : Layout control (⟨a, [⟨n, true⟩]⟩ :: pools))
    (hmem : (BitVec.ofNat 64 (a + 8)).toInt % alignSize = 0)
    (hbytes : (bytes - poolOverhead) - ((bytes - poolOverhead) &&& 7#64) = BitVec.ofNat 64 n) :
    ∃ m', m.tlsfAddPool control (BitVec.ofNat 64 (a + 8)) bytes = some (BitVec.ofNat 64 (a + 8),
      m') ∧
      Good control m' (c.blockInsert (freeBlock (a, n))) (⟨a, [⟨n, true⟩]⟩ :: pools) ∧
      Stores (Spare control (⟨a, [⟨n, true⟩]⟩ :: pools)) m.mem m'.mem := by
  have hhead : (⟨a, n, true, false⟩ : Header) ∈ headers 8 (⟨a, [⟨n, true⟩]⟩ :: pools) :=
    mem_headers_cons.mpr (.inl rfl)
  have hlast : (⟨a + 8 + n, 0, false, true⟩ : Header) ∈ headers 8 (⟨a, [⟨n, true⟩]⟩ :: pools) :=
    mem_headers_cons.mpr (.inr (.inl rfl))
  have hok := hlayout.headerOk hhead
  have ha := hok.addr_dvd
  have hn := hok.size_dvd
  have hpos := hok.addr_pos
  have hlt := hok.lt
  have hend := (hlayout.headerOk hlast).le
  have hmin : 24 ≤ n := hok.min.resolve_left fun hzero => by cases hok.last hzero
  simp only at ha hn hpos hlt hend
  have hsub : ∀ y ∈ insert (a, n) (blocksOf true pools),
      ∃ p, (⟨y.1, y.2, true, p⟩ : Header) ∈ headers 8 (⟨a, [⟨n, true⟩]⟩ :: pools) := by
    rintro y (rfl | ⟨p, hp⟩)
    · exact ⟨false, hhead⟩
    · exact ⟨p, mem_headers_cons.mpr (.inr (.inr hp))⟩
  have hnodes := hlayout.nodes hsub
  have hapart : ∀ y ∈ blocksOf true pools, a + 8 + n + 8 ≤ y.1 ∨ y.1 + y.2 + 8 ≤ a :=
    fun y ⟨p, hp⟩ =>
    hlayout.apart_cons hp
  have hmin' : ∀ y ∈ blocksOf true pools, 24 ≤ y.2 := (Rep.nodes h).min
  have hnot : (a, n) ∉ blocksOf true pools := fun hin => by
    have := hapart _ hin
    simp only at this
    omega
  -- the header of the block, with the flags that were there and those that are set
  obtain ⟨f, p, hset⟩ := exists_blockSetSize m a hn
  set m₁ := ((m.setWord (BitVec.ofNat 64 (a + 8)) (tag n f p)).setWord (BitVec.ofNat 64 (a + 8))
    (tag n true p)).setWord (BitVec.ofNat 64 (a + 8)) (tag n true false) with hm₁
  have hstores₁ : Stores {a + 8} m.mem m₁.mem := by
    refine stores_setWord_of_mem (stores_setWord_of_mem (stores_setWord_of_mem (Writes.refl _ _ _)
      ?_ ?_ ?_ ?_) ?_ ?_ ?_ ?_) ?_ ?_ ?_ ?_
    all_goals
      first
      | omega
      | exact tag_mem_headerWords hn _ _
      | simp
  have htag₁ : wordAt m₁.mem (a + 8) = tag n true false := wordAt_setWord_self _ _
  have hlists₁ : FreeLists control m₁ c (blocksOf true pools) := by
    refine (Rep.lists h).congr (Rep.nodes h) rfl rfl rfl hstores₁.agree fun y hy => ?_
    have := hapart y hy
    have := hmin' y hy
    simp only [Set.mem_singleton_iff]
    omega
  obtain ⟨m₂, hm₂, hlists₂, hstores₂⟩ :=
    hlists₁.blockInsert hnodes hnot (blockSize_eq htag₁ hn)
  have hwords := hlayout.linkWords hsub
  have htag₂ : wordAt m₂.mem (a + 8) = tag n true false := by
    rw [hstores₂.agree (a + 8) (by omega) (by omega) (hwords.1 _ hhead).1, htag₁]
  -- the header behind it
  set m₃ := m₂.setWord (BitVec.ofNat 64 (a + 8 + n)) (BitVec.ofNat 64 a) with hm₃
  obtain ⟨f', p', hset'⟩ := exists_blockSetSize m₃ (a + 8 + n) (dvd_zero 8)
  set m₄ := ((m₃.setWord (BitVec.ofNat 64 (a + 8 + n + 8)) (tag 0 f' p')).setWord
    (BitVec.ofNat 64 (a + 8 + n + 8)) (tag 0 false p')).setWord (BitVec.ofNat 64 (a + 8 + n + 8))
      (tag 0 false true) with hm₄
  have hstores₄ : Stores {w | w = a + 8 + n ∨ w = a + 8 + n + 8} m₂.mem m₄.mem := by
    refine stores_setWord_of_mem
      (stores_setWord_of_mem (stores_setWord_of_mem (stores_setWord_of_mem
      (Writes.refl _ _ _) ?_ ?_ ?_ ?_) ?_ ?_ ?_ ?_) ?_ ?_ ?_ ?_) ?_ ?_ ?_ ?_
    all_goals
      first
      | omega
      | exact ofNat_mem_headerWords (by omega)
      | exact tag_mem_headerWords (dvd_zero 8) _ _
      | simp
  have hlists₄ : FreeLists control m₄ (c.blockInsert (freeBlock (a, n)))
      (insert (a, n) (blocksOf true pools)) := by
    refine hlists₂.congr hnodes rfl rfl rfl hstores₄.agree fun y hy => ?_
    simp only [Set.mem_ofPred_eq]
    rcases hy with rfl | hy
    · simp only
      omega
    · have := hapart y hy
      have := hmin' y hy
      omega
  have hF : blocksOf true (⟨a, [⟨n, true⟩]⟩ :: pools) = insert (a, n) (blocksOf true pools) := by
    ext y
    constructor
    · rintro ⟨q, hq⟩
      rcases mem_headers_cons.mp hq with heq | heq | hold
      · rw [Header.mk.injEq] at heq
        exact .inl (Prod.ext heq.1 heq.2.1)
      · cases congrArg Header.free heq
      · exact .inr ⟨q, hold⟩
    · exact hsub y
  have hcall : m.tlsfAddPool control (BitVec.ofNat 64 (a + 8)) bytes =
      some (BitVec.ofNat 64 (a + 8), m₄) := by
    have hrange : ¬ (BitVec.ofNat 64 n < blockSizeMin ∨ BitVec.ofNat 64 n > blockSizeMax) := by
      rw [not_or, BitVec.not_lt, gt_iff_lt, BitVec.not_lt, BitVec.le_def, BitVec.le_def,
        BitVec.toNat_ofNat, Nat.mod_eq_of_lt (by omega)]
      exact ⟨hmin, hlt.le⟩
    have hblock : offsetToBlock (BitVec.ofNat 64 (a + 8)) (-blockHeaderOverhead) =
      BitVec.ofNat 64 a := by
      rw [offsetToBlock, ← BitVec.sub_eq_add_neg,
        show blockHeaderOverhead = BitVec.ofNat 64 8 from rfl, sub_ofNat (by omega) (by omega),
        Nat.add_sub_cancel]
    rw [tlsfAddPool, hbytes]
    simp only
    rw [if_neg (not_not.mpr hmem), if_neg hrange, hblock, hset,
      blockSetFree_eq (wordAt_setWord_self _ _) hn,
      blockSetPrevUsed_eq (wordAt_setWord_self _ _) hn,
      ← hm₁, hm₂, Option.bind_eq_bind, Option.bind_some,
      blockLinkNext_eq htag₂ hn (by omega) (by omega), Option.bind_eq_bind, Option.bind_some]
    simp only
    rw [← hm₃, show (0 : Size) = BitVec.ofNat 64 0 from rfl, hset',
      blockSetUsed_eq (wordAt_setWord_self _ _) (dvd_zero 8),
      blockSetPrevFree_eq (wordAt_setWord_self _ _) (dvd_zero 8)]
  refine ⟨m₄, hcall, ⟨hlayout, ?_, hF ▸ hlists₄, fun y hy => hy⟩, ?_⟩
  · intro e he
    rcases mem_headers_cons.mp he with rfl | rfl | hold
    · refine ⟨?_, fun _ => ?_⟩
      · rw [hstores₄.agree _ (by simp only; omega) (by simp only; omega)
          (by simp only [Set.mem_ofPred_eq]; omega)]
        exact htag₂
      · simp (disch := omega) only [hm₄, hm₃, wordAt_setWord_of_ne, wordAt_setWord_self]
    · exact ⟨wordAt_setWord_self _ _, fun hfree => by cases hfree⟩
    · obtain ⟨htag, hback⟩ := Rep.tagged h e hold
      have hok := hlayout.headerOk he
      have hed := hok.addr_dvd
      have hes := hok.size_dvd
      have hle := hok.le
      have hemin := hok.min
      have hout := hlayout.apart_cons hold
      have hsame : ∀ w, 8 ∣ w → w + 8 ≤ 2 ^ 64 →
        w ∉ linkWords control (insert (a, n) (blocksOf true pools)) →
          w ≠ a + 8 → w ≠ a + 8 + n → w ≠ a + 8 + n + 8 → wordAt m₄.mem w = wordAt m.mem w := by
        intro w hw hwn hlink h₁ h₂ h₃
        rw [hstores₄.agree w hw hwn (by simp only [Set.mem_ofPred_eq]; omega),
          hstores₂.agree w hw hwn hlink, hstores₁.agree w hw hwn h₁]
      obtain ⟨hl₁, hl₂⟩ := hwords.1 e he
      refine ⟨?_, fun hfree => ?_⟩
      · rw [hsame _ (by omega) (by omega) hl₁ (by omega) (by omega) (by omega)]
        exact htag
      · have hpos : e.size ≠ 0 := fun hzero => by
          cases (hok.last hzero).symm.trans hfree
        rw [hsame _ (by omega) (by omega) (hl₂ hfree) (by omega) (by omega) (by omega)]
        exact hback hfree
  · refine ((hstores₁.trans hstores₂).trans hstores₄).mono ?_
    rintro w ((rfl | hw) | rfl | rfl)
    · exact hlayout.spare hhead (by omega) (.inl rfl)
    · exact hwords.2 hw
    · exact hlayout.spare hhead (by omega) (.inr ⟨rfl, by simp only; omega⟩)
    · exact hlayout.spare hlast (by omega) (.inl rfl)

/-- `control_construct`. -/
theorem good_construct (m : TlsfMem) (hd : 8 ∣ control.toNat) (hpos : control.toNat ≠ 0)
    (hle : control.toNat + 32 ≤ 2 ^ 64) :
    Good control (m.controlConstruct control) Control.empty [] where
  layout := ⟨hd, hpos, hle, List.forall_mem_nil _, List.Pairwise.nil⟩
  tagged e he := by cases he
  lists := by
    refine ⟨rfl, rfl, fun k b => ⟨List.not_mem_nil.elim, ?_⟩, fun k => List.nodup_nil, fun k => ?_,
      fun k => rfl⟩
    · rintro ⟨x, ⟨p, hp⟩, -⟩
      cases hp
    · exact if_pos rfl
  sub x hx := hx

/-- The links of `block_null` are all that it stores to memory. -/
theorem stores_construct (m : TlsfMem) (hd : 8 ∣ control.toNat)
    (hle : control.toNat + 32 ≤ 2 ^ 64) :
    Stores (HeapWords control []) m.mem (m.controlConstruct control).mem := by
  have hcontrol : control = BitVec.ofNat 64 control.toNat := by
    rw [BitVec.ofNat_toNat, BitVec.setWidth_eq]
  have hv : control ∈ headerWords := by
    rw [hcontrol]
    exact ofNat_mem_headerWords hd
  -- the two link words of the control structure are all that is stored in memory
  have hmem : (m.controlConstruct control).mem =
    ((m.setWord (BitVec.ofNat 64 (control.toNat + 16)) control).setWord
      (BitVec.ofNat 64 (control.toNat + 24)) control).mem := by
    rw [← setPrevFree_eq, ← setNextFree_eq, ← hcontrol]
    rfl
  rw [hmem]
  refine stores_setWord_of_mem (stores_setWord_of_mem (Writes.refl _ _ _) ?_ ?_ ?_ hv) ?_ ?_ ?_ hv
  · omega
  · omega
  · exact .inl (.inl rfl)
  · omega
  · omega
  · exact .inl (.inr rfl)

/-- A multiple of eight passes the test of the alignment, also as a signed number. -/
theorem toInt_emod_of_dvd {v : BitVec 64} (hd : 8 ∣ v.toNat) : v.toInt % alignSize = 0 := by
  rw [BitVec.toInt_eq_toNat_cond, alignSize]
  split <;> omega

/-- The size of a pool is rounded down. -/
theorem sub_and_seven (v : BitVec 64) : v - (v &&& 7#64) = BitVec.ofNat 64 (v.toNat / 8 * 8) := by
  have hand : (v &&& 7#64).toNat = v.toNat % 8 := by
    rw [BitVec.toNat_and]
    exact Nat.and_two_pow_sub_one_eq_mod v.toNat 3
  have hlt : v.toNat / 8 * 8 < 2 ^ 64 := (Nat.div_mul_le_self _ _).trans_lt v.isLt
  have hle : v &&& 7#64 ≤ v := BitVec.le_def.mpr (hand.trans_le (Nat.mod_le _ _))
  apply BitVec.eq_of_toNat_eq
  rw [BitVec.toNat_sub_of_le hle, hand, BitVec.toNat_ofNat, Nat.mod_eq_of_lt hlt]
  omega

/-- The pool of `tlsf_create_with_pool` comes behind the control structure. -/
theorem layout_create {bytes : ℕ} (hd : 8 ∣ control.toNat) (hpos : control.toNat ≠ 0)
    (hle : control.toNat + bytes ≤ 2 ^ 64) (hmin : 6576 ≤ bytes) (hmax : bytes < 2 ^ 32 + 6552)
    (hn : n = (bytes - 6552) / 8 * 8) :
    Layout control [⟨control.toNat + 6528, [⟨n, true⟩]⟩] := by
  have hstop : (⟨control.toNat + 6528, [⟨n, true⟩]⟩ : Pool).stop 8 =
    control.toNat + 6528 + (8 + n) := rfl
  -- the pool begins behind the 6528 bytes of the control structure, and its one block is the rest
  refine ⟨hd, hpos, by omega, fun P hP => ?_, List.pairwise_singleton _ _⟩
  obtain rfl := List.mem_singleton.mp hP
  refine ⟨?_, ?_, ?_, ?_, ?_, fun t ht => ?_⟩
  · simp only
    omega
  · simp only
    omega
  · rw [hstop]
    omega
  · rw [hstop]
    simp only
    omega
  · rw [hstop]
    simp only
    omega
  · obtain rfl := List.mem_singleton.mp ht
    simp only
    omega

/-- The bytes of a pool behind the control structure. -/
theorem toNat_sub_overhead {bytes : Size} (hmin : 6576 ≤ bytes.toNat) :
    (bytes - tlsfSize - poolOverhead).toNat = bytes.toNat - 6552 := by
  have hsize : tlsfSize.toNat = 6536 := rfl
  have hover : poolOverhead.toNat = 16 := rfl
  have hfirst : (bytes - tlsfSize).toNat = bytes.toNat - 6536 := by
    rw [BitVec.toNat_sub_of_le (BitVec.le_def.mpr (by omega)), hsize]
  rw [BitVec.toNat_sub_of_le (BitVec.le_def.mpr (by omega)), hfirst, hover, Nat.sub_sub]

/-- Where the first pool begins. -/
theorem add_tlsfSize (control : Addr) :
    control + tlsfSize = BitVec.ofNat 64 (control.toNat + 6528 + 8) := by
  have hsize : tlsfSize = BitVec.ofNat 64 6536 := rfl
  rw [Nat.add_assoc, ← ofNat_add_ofNat, BitVec.ofNat_toNat, BitVec.setWidth_eq, hsize]

/-- `tlsf_create_with_pool`. -/
theorem good_create (m : TlsfMem) {bytes : Size} (hd : 8 ∣ control.toNat) (hpos : control.toNat ≠ 0)
    (hle : control.toNat + bytes.toNat ≤ 2 ^ 64) (hmin : 6576 ≤ bytes.toNat)
    (hmax : bytes.toNat < 2 ^ 32 + 6552) :
    ∃ m', m.tlsfCreateWithPool control bytes = some (control, m') ∧
      Good control m' (Control.empty.blockInsert
      (freeBlock (control.toNat + 6528, (bytes.toNat - 6552) / 8 * 8)))
        [⟨control.toNat + 6528, [⟨(bytes.toNat - 6552) / 8 * 8, true⟩]⟩] ∧
      Stores (HeapWords control [⟨control.toNat + 6528, [⟨(bytes.toNat - 6552) / 8 * 8, true⟩]⟩])
        m.mem m'.mem := by
  have haddr : 8 ∣ (BitVec.ofNat 64 (control.toNat + 6528 + 8)).toNat := by
    rw [BitVec.toNat_ofNat]
    omega
  have hsize := sub_and_seven (bytes - tlsfSize - poolOverhead)
  rw [toNat_sub_overhead hmin] at hsize
  -- a heap without pools, to which the first is added
  obtain ⟨m', hm', hgood, hstores⟩ := (good_construct m hd hpos (by omega)).addPool
    (layout_create hd hpos hle hmin hmax rfl) (toInt_emod_of_dvd haddr) hsize
  refine ⟨m', ?_, hgood, ((stores_construct m hd (by omega)).trans hstores).mono ?_⟩
  · rw [tlsfCreateWithPool, tlsfCreate, if_neg (not_not.mpr (toInt_emod_of_dvd hd))]
    simp only [add_tlsfSize]
    rw [hm']
    rfl
  · rintro w ((hw | ⟨I, hI, -⟩) | hw)
    · exact .inl hw
    · cases hI
    · exact hw.1

/-! ### Blocks in use

Different blocks in use have no byte in common, which tells the clients' blocks apart. -/

/-- Blocks in use with the same address are the same. -/
theorem Good.eq_of_ptr (h : Good control m c pools) (hx : x ∈ blocksOf false pools) (hxs : 24 ≤ x.2)
    (hy : y ∈ blocksOf false pools) (hys : 24 ≤ y.2)
    (heq : BitVec.ofNat 64 (x.1 + 16) = BitVec.ofNat 64 (y.1 + 16)) : x = y := by
  obtain ⟨p, hp⟩ := hx
  obtain ⟨q, hq⟩ := hy
  have hxle := (h.layout.headerOk hp).le
  have hyle := (h.layout.headerOk hq).le
  simp only at hxle hyle
  have haddr := (ofNat_inj (by omega) (by omega)).mp heq
  rcases h.layout.eq_or_apart hp (by simp only; omega) hq with heq | hapart
  · rw [Header.mk.injEq] at heq
    exact Prod.ext heq.1.symm heq.2.1.symm
  · simp only at hapart
    omega

/-- Those that have a byte in common, too. -/
theorem Good.eq_of_byte (h : Good control m c pools) (hx : x ∈ blocksOf false pools)
    (hy : y ∈ blocksOf false pools) (hzx : x.1 + 16 ≤ z ∧ z < x.1 + 16 + x.2)
    (hzy : y.1 + 16 ≤ z ∧ z < y.1 + 16 + y.2) : x = y := by
  obtain ⟨p, hp⟩ := hx
  obtain ⟨q, hq⟩ := hy
  rcases h.layout.eq_or_apart hp (by simp only; omega) hq with heq | hapart
  · rw [Header.mk.injEq] at heq
    exact Prod.ext heq.1.symm heq.2.1.symm
  · simp only at hapart
    omega

end TlsfMem

end Koharu
