import Koharu.Mm.TlsfHeap

/-!
# Blocks are split and merged

The functions of `tlsf.c` that change blocks in place. For each of them there is first what it
stores, and then what blocks there are afterwards.

What a function stores follows from the words that it reads, with nothing known about the rest of
memory. What blocks there are afterwards is then always the same kind of step, `Rep.rewrite`: some
blocks of a pool are replaced by others that take the same room, and the words at their headers are
those of the new ones. The header behind the last of them is stored to as well, for it says whether
the block before it is free.

* `Rep.markAsFree`, `Rep.markAsUsed`: `block_mark_as_free` and `block_mark_as_used`;
* `Rep.split`: `block_split`, with the flag that its callers set in the new header;
* `Rep.absorb`, `Rep.absorbUsed`: `block_absorb`, into a free block and into one in use.
-/

namespace Koharu

open Tlsf WordMemory Tiling

namespace TlsfMem

/-! ### What is stored

The words that each function stores, by address. -/

section Stores

variable {m : TlsfMem} {a b s s' n : ℕ} {f f' p p' : Bool}

/-- `block_link_next` stores the address of the block in the one behind it. -/
theorem blockLinkNext_eq (h : wordAt m.mem (a + 8) = tag s f p) (hs : 8 ∣ s) (hpos : s ≠ 0)
    (hlt : s < 2 ^ 64) : m.blockLinkNext (BitVec.ofNat 64 a) =
      some (BitVec.ofNat 64 (a + 8 + s),
      m.setWord (BitVec.ofNat 64 (a + 8 + s)) (BitVec.ofNat 64 a)) := by
  rw [blockLinkNext, blockNext_eq h hs hpos hlt]
  rfl

/-- `block_mark_as_free` links the next block and sets the two flags. -/
theorem blockMarkAsFree_eq {t : ℕ} {g q : Bool} (h : wordAt m.mem (a + 8) = tag s f p)
    (hn : wordAt m.mem (a + 8 + s + 8) = tag t g q) (ha : 8 ∣ a) (hs : 8 ∣ s) (ht : 8 ∣ t)
    (hpos : s ≠ 0) (hle : a + 8 + s + 16 ≤ 2 ^ 64) :
    m.blockMarkAsFree (BitVec.ofNat 64 a) =
      some (((m.setWord (BitVec.ofNat 64 (a + 8 + s)) (BitVec.ofNat 64 a)).setWord
        (BitVec.ofNat 64 (a + 8 + s + 8)) (tag t g true)).setWord (BitVec.ofNat 64 (a + 8))
          (tag s true p)) := by
  rw [blockMarkAsFree, blockLinkNext_eq h hs hpos (by omega), Option.bind_eq_bind, Option.bind_some,
    blockSetPrevFree_eq (s := t) (f := g) (p := q) _ ht,
    blockSetFree_eq (s := s) (f := f) (p := p) _ hs]
  · simp (disch := omega) only [wordAt_setWord_of_ne]
    exact h
  · simp (disch := omega) only [wordAt_setWord_of_ne]
    exact hn

/-- `block_mark_as_used` clears them. -/
theorem blockMarkAsUsed_eq (h : wordAt m.mem (a + 8) = tag s f p)
    (hn : wordAt m.mem (a + 8 + s + 8) = tag s' f' p') (ha : 8 ∣ a) (hs : 8 ∣ s) (hs' : 8 ∣ s')
    (hpos : s ≠ 0) (hle : a + 8 + s + 16 ≤ 2 ^ 64) :
    m.blockMarkAsUsed (BitVec.ofNat 64 a) =
      some ((m.setWord (BitVec.ofNat 64 (a + 8 + s + 8)) (tag s' f' false)).setWord
        (BitVec.ofNat 64 (a + 8)) (tag s false p)) := by
  rw [blockMarkAsUsed, blockNext_eq h hs hpos (by omega), Option.bind_eq_bind, Option.bind_some,
    blockSetPrevUsed_eq hn hs', blockSetUsed_eq (s := s) (f := f) (p := p) _ hs]
  simp (disch := omega) only [wordAt_setWord_of_ne]
  exact h

/-- `block_absorb` adds the size of the neighbour and its header. -/
theorem blockAbsorb_eq (h : wordAt m.mem (a + 8) = tag s f p)
    (hb : wordAt m.mem (b + 8) = tag s' f' p') (ha : 8 ∣ a) (hs : 8 ∣ s) (hs' : 8 ∣ s')
    (hpos : s ≠ 0) (hle : a + 8 + s + 8 + s' + 16 ≤ 2 ^ 64) :
    m.blockAbsorb (BitVec.ofNat 64 a) (BitVec.ofNat 64 b) =
      some ((m.setWord (BitVec.ofNat 64 (a + 8)) (tag (s + (s' + 8)) f p)).setWord
        (BitVec.ofNat 64 (a + 8 + (s + (s' + 8)))) (BitVec.ofNat 64 a)) := by
  have hlast : m.blockIsLast (BitVec.ofNat 64 a) = false := by
    rw [blockIsLast_eq h hs (by omega), decide_eq_false hpos]
  have hsum : BitVec.ofNat 64 s' + blockHeaderOverhead = BitVec.ofNat 64 (s' + 8) :=
    ofNat_add_ofNat s' 8
  rw [blockAbsorb, tlsfAssert_bind hlast, size_eq, h, blockSize_eq hb hs', hsum,
    tag_add hs (by omega), setSize_eq]
  simp only
  rw [blockLinkNext_eq (wordAt_setWord_self _ _) (by omega) (by omega) (by omega)]
  rfl

/-- `block_split` takes one flag of the new header from what is in memory there. -/
theorem exists_blockSplit (h : wordAt m.mem (a + 8) = tag (s + 8 + n) f p)
    (hn : wordAt m.mem (a + 8 + s + 8 + n + 8) = tag s' f' p') (ha : 8 ∣ a) (hs : 8 ∣ s)
    (hnd : 8 ∣ n) (hs' : 8 ∣ s') (hmin : 24 ≤ n) (hle : a + 8 + s + 8 + n + 16 ≤ 2 ^ 64) :
    ∃ g g' : Bool, m.blockSplit (BitVec.ofNat 64 a) (BitVec.ofNat 64 s) =
      some (BitVec.ofNat 64 (a + 8 + s),
        ((((m.setWord (BitVec.ofNat 64 (a + 8 + s + 8)) (tag n g' g)).setWord
          (BitVec.ofNat 64 (a + 8)) (tag s f p)).setWord (BitVec.ofNat 64 (a + 8 + s + 8 + n))
          (BitVec.ofNat 64 (a + 8 + s))).setWord
            (BitVec.ofNat 64 (a + 8 + s + 8 + n + 8)) (tag s' f' true)).setWord
              (BitVec.ofNat 64 (a + 8 + s + 8)) (tag n true g)) := by
  have hsize : m.blockSize (BitVec.ofNat 64 a) = BitVec.ofNat 64 (s + 8 + n) :=
    blockSize_eq h (by omega)
  have hadd : BitVec.ofNat 64 s + blockHeaderOverhead = BitVec.ofNat 64 (s + 8) :=
    ofNat_add_ofNat s 8
  -- the three computations before the stores: where the rest begins, its size, and the assertion
  have hremaining : offsetToBlock (blockToPtr (BitVec.ofNat 64 a))
      (BitVec.ofNat 64 s - blockHeaderOverhead) = BitVec.ofNat 64 (a + 8 + s) := by
    rw [blockToPtr_eq, offsetToBlock, BitVec.sub_eq_add_neg, ← BitVec.add_assoc, ofNat_add_ofNat,
      ← BitVec.sub_eq_add_neg, show blockHeaderOverhead = BitVec.ofNat 64 8 from rfl,
      sub_ofNat (by omega) (by omega), show a + 16 + s - 8 = a + 8 + s by omega]
  have hremain : m.blockSize (BitVec.ofNat 64 a) - (BitVec.ofNat 64 s + blockHeaderOverhead) =
      BitVec.ofNat 64 n := by
    rw [hsize, hadd, sub_ofNat (by omega) (by omega), Nat.add_sub_cancel_left]
  have halign : blockToPtr (BitVec.ofNat 64 (a + 8 + s)) =
      Tlsf.alignUp (blockToPtr (BitVec.ofNat 64 (a + 8 + s))) := by
    rw [blockToPtr_eq, alignUp_eq_self (by omega) (by omega)]
  have hwhole : m.blockSize (BitVec.ofNat 64 a) =
      BitVec.ofNat 64 n + BitVec.ofNat 64 s + blockHeaderOverhead := by
    rw [hsize, BitVec.add_assoc, hadd, ofNat_add_ofNat, Nat.add_comm n]
  -- `block_set_size` keeps the flags of a word that was no header
  obtain ⟨g', g, hset⟩ := exists_blockSetSize m (a + 8 + s) hnd
  refine ⟨g, g', ?_⟩
  have hnew := wordAt_setWord_self (x := a + 8 + s + 8) m (tag n g' g)
  have hlarge : (m.setWord (BitVec.ofNat 64 (a + 8 + s + 8)) (tag n g' g)).blockSize
      (BitVec.ofNat 64 (a + 8 + s)) ≥ blockSizeMin := by
    rw [blockSize_eq hnew hnd, ge_iff_le, BitVec.le_def, BitVec.toNat_ofNat,
      Nat.mod_eq_of_lt (by omega)]
    exact hmin
  rw [blockSplit, hremaining, hremain, tlsfAssert_bind halign, tlsfAssert_bind hwhole, hset]
  simp only
  rw [tlsfAssert_bind hlarge, blockSetSize_eq (s := s + 8 + n) (f := f) (p := p) _ (by omega) hs,
    blockMarkAsFree_eq (s := n) (f := g') (p := g) (t := s') (g := f')
    (q := p') _ _ (by omega) hnd hs'
      (by omega) (by omega)]
  · rfl
  · simp (disch := omega) only [wordAt_setWord_of_ne]
    exact hnew
  · simp (disch := omega) only [wordAt_setWord_of_ne]
    exact hn
  · simp (disch := omega) only [wordAt_setWord_of_ne]
    exact h

end Stores

/-! ### What blocks there are afterwards

The same stores as an exchange of tiles in a place: split in two, joined, marked. -/

section Blocks

variable {control : Addr} {m m' : TlsfMem} {c : Control} {F : Set (ℕ × ℕ)} {pools : List Pool}
  {C : Ctx} {e : Header} {t : Tile} {ts ts' : List Tile} {w x s n : ℕ} {f p : Bool} {S : Set ℕ}

/-- A header, and what is in a free block, are not in a block in use. -/
theorem Layout.spare (h : Layout control pools) (he : e ∈ headers 8 pools) (hwd : 8 ∣ w)
    (hw : w = e.addr + 8 ∨ e.free = true ∧ e.addr + 8 ≤ w ∧ w ≤ e.addr + 8 + e.size) :
    w ∈ Spare control pools := by
  refine ⟨mem_heapWords control he (by omega), fun e' he' hused => ?_⟩
  have hd := (h.headerOk he').addr_dvd
  by_cases hsize : e'.size = 0
  · omega
  rcases h.eq_or_apart he' hsize he with rfl | hafter | hbefore
  · rcases hw with rfl | ⟨hfree, -⟩
    · exact .inl le_rfl
    · cases hfree.symm.trans hused
  · omega
  · omega

/-- A tile in a place has at least the smallest size, a multiple of eight. -/
theorem Layout.tile_ok (h : Layout control (C.fill ts)) (ht : t ∈ ts) : 24 ≤ t.size ∧ 8 ∣ t.size :=
  (forall_fill.mp fun P hP => (h.ok P hP).tiles).2.2 t ht

/-- Free blocks on the lists are somewhere else. -/
theorem Rep.outside (h : Rep control m c (C.fill ts) F)
    (hts : ∀ e ∈ place 8 (C.addr 8) C.prevFree ts, (e.addr, e.size) ∉ F) :
    ∀ x ∈ F, x.1 + 8 + x.2 ≤ C.addr 8 ∨ C.addr 8 + width 8 ts ≤ x.1 := by
  intro x hx
  obtain ⟨p, hp⟩ := h.sub x hx
  rcases Ctx.mem_fill.mp hp with hout | hin | heq
  · have := Ctx.outer_apart false h.layout.apart hout
    simp only at this
    omega
  · exact absurd hx (hts _ hin)
  · exact .inr (congrArg Header.addr heq).ge

/-- A store of a header word in an allowed place is an allowed store. -/
theorem stores_setWord_of_mem {v : BitVec 64} (h : Stores S m.mem m'.mem) (hx : 8 ∣ x)
    (hxn : x + 8 ≤ 2 ^ 64) (hS : x ∈ S) (hv : v ∈ headerWords) :
    Stores S m.mem (m'.setWord (BitVec.ofNat 64 x) v).mem := by
  apply (h.trans (stores_setWord m' hx hxn hv)).mono
  rintro y (hy | rfl)
  · exact hy
  · exact hS

/-- The header of the first block in the place. -/
theorem Rep.focus (h : Rep control m c (C.fill (⟨s, f⟩ :: ts)) F) :
    wordAt m.mem (C.addr 8 + 8) = tag s f C.prevFree :=
  (h.tagged _ Ctx.head_mem_fill).1

/-- The header behind a block. -/
theorem Rep.behind (h : Rep control m c (C.fill [⟨s, f⟩]) F) :
    wordAt m.mem (C.addr 8 + 8 + s + 8) =
      tag (C.next (C.addr 8 + 8 + s) f).size (C.next (C.addr 8 + 8 + s) f).free f := by
  rw [Nat.add_assoc (C.addr 8)]
  exact (h.tagged _ (Ctx.next_mem_fill [⟨s, f⟩])).1

/-- The block behind a place has a well-formed header. -/
theorem Layout.next_ok (h : Layout control (C.fill [⟨s, f⟩])) :
    HeaderOk control (C.next (C.addr 8 + 8 + s) f) := by
  rw [Nat.add_assoc (C.addr 8)]
  exact h.headerOk (Ctx.next_mem_fill [⟨s, f⟩])

/-- The blocks `ts` are replaced by `ts'`. All stores are to headers and into blocks that are free
afterwards. -/
theorem Rep.rewrite (h : Rep control m c (C.fill ts) F) (ts' : List Tile)
    (hwidth : width 8 ts' = width 8 ts) (hok : ∀ t ∈ ts', 24 ≤ t.size ∧ 8 ∣ t.size)
    (hF : ∀ e ∈ place 8 (C.addr 8) C.prevFree ts, (e.addr, e.size) ∉ F)
    (hstores : Stores S m.mem m'.mem) (hm' : m' = { m with mem := m'.mem })
    (hS : ∀ w ∈ S, 8 ∣ w ∧ (w = C.addr 8 + width 8 ts + 8 ∨
      ∃ e ∈ place 8 (C.addr 8) C.prevFree ts',
        w = e.addr + 8 ∨ e.free = true ∧ e.addr + 8 ≤ w ∧ w ≤ e.addr + 8 + e.size))
    (hin : ∀ e ∈ place 8 (C.addr 8) C.prevFree ts', Tagged m'.mem e)
    (hnext : wordAt m'.mem (C.addr 8 + width 8 ts + 8) =
      tag (C.next (C.addr 8 + width 8 ts) p).size (C.next (C.addr 8 + width 8 ts) p).free
        (lastFree C.prevFree ts')) :
    Rep control m' c (C.fill ts') F ∧ Stores (Spare control (C.fill ts')) m.mem m'.mem := by
  constructor
  · refine h.retile ts' hwidth hok (hstores.agree.mono fun w hw => ?_) hm' (h.outside hF) hin hnext
    rw [Set.mem_ofPred_eq]
    -- a word stored to is the next header, or lies in one of the blocks rewritten
    rcases (hS w hw).2 with rfl | ⟨e, he, hw⟩
    · omega
    · have := bounds_of_mem_place he
      omega
  · apply hstores.mono
    intro w hw
    have hlayout := h.layout.retile hwidth hok
    obtain ⟨hwd, rfl | ⟨e, he, hw⟩⟩ := hS w hw
    · rw [← hwidth] at hwd ⊢
      exact hlayout.spare (Ctx.next_mem_fill ts') hwd (.inl rfl)
    · exact hlayout.spare (Ctx.mem_fill.mpr (.inr (.inl he))) hwd hw

/-- `block_mark_as_free`. -/
theorem Rep.markAsFree (h : Rep control m c (C.fill [⟨s, f⟩]) F) (hF : (C.addr 8, s) ∉ F) :
    ∃ m', m.blockMarkAsFree (BitVec.ofNat 64 (C.addr 8)) = some m' ∧
      Rep control m' c (C.fill [⟨s, true⟩]) F ∧
      Stores (Spare control (C.fill [⟨s, true⟩])) m.mem m'.mem := by
  obtain ⟨hmin, hs⟩ := h.layout.tile_ok (List.mem_singleton.mpr rfl)
  have ha := (h.layout.headerOk Ctx.head_mem_fill).addr_dvd
  have hns := h.layout.next_ok.size_dvd
  have hle : C.addr 8 + 8 + s + 16 + _ ≤ 2 ^ 64 := h.layout.next_ok.le
  simp only at hmin hs ha
  -- three words are stored, all of headers
  have hstores : Stores {w | w = C.addr 8 + 8 ∨ w = C.addr 8 + 8 + s ∨
    w = C.addr 8 + 8 + s + 8} m.mem
      (((m.setWord (BitVec.ofNat 64 (C.addr 8 + 8 + s)) (BitVec.ofNat 64 (C.addr 8))).setWord
        (BitVec.ofNat 64 (C.addr 8 + 8 + s + 8)) (tag (C.next (C.addr 8 + 8 + s) f).size
          (C.next (C.addr 8 + 8 + s) f).free true)).setWord (BitVec.ofNat 64 (C.addr 8 + 8))
            (tag s true C.prevFree)).mem := by
    refine stores_setWord_of_mem (stores_setWord_of_mem (stores_setWord_of_mem (Writes.refl _ _ _)
      ?_ ?_ ?_ ?_) ?_ ?_ ?_ ?_) ?_ ?_ ?_ ?_
    all_goals
      first
      | omega
      | exact ofNat_mem_headerWords (by omega)
      | exact tag_mem_headerWords (by omega) _ _
      | simp
  refine ⟨_, blockMarkAsFree_eq h.focus h.behind ha hs hns (by omega) (by omega),
    h.rewrite [⟨s, true⟩] (p := f) rfl ?_ ?_ hstores rfl ?_ ?_ ?_⟩
  · simpa using ⟨hmin, hs⟩
  · simpa [place] using hF
  · simp only [place, List.mem_singleton, exists_eq_left, width, true_and]
    rintro w (rfl | rfl | rfl) <;> omega
  · simp only [place, List.mem_singleton, forall_eq, Tagged]
    simp (disch := omega) only [wordAt_setWord_of_ne, wordAt_setWord_self]
    simp
  · simp only [width, Nat.add_zero, ← Nat.add_assoc, lastFree]
    simp (disch := omega) only [wordAt_setWord_of_ne, wordAt_setWord_self]

/-- `block_mark_as_used`. -/
theorem Rep.markAsUsed (h : Rep control m c (C.fill [⟨s, f⟩]) F) (hF : (C.addr 8, s) ∉ F) :
    ∃ m', m.blockMarkAsUsed (BitVec.ofNat 64 (C.addr 8)) = some m' ∧
      Rep control m' c (C.fill [⟨s, false⟩]) F ∧
      Stores (Spare control (C.fill [⟨s, false⟩])) m.mem m'.mem := by
  obtain ⟨hmin, hs⟩ := h.layout.tile_ok (List.mem_singleton.mpr rfl)
  have ha := (h.layout.headerOk Ctx.head_mem_fill).addr_dvd
  have hns := h.layout.next_ok.size_dvd
  have hle : C.addr 8 + 8 + s + 16 + _ ≤ 2 ^ 64 := h.layout.next_ok.le
  simp only at hmin hs ha
  -- two headers are written, the one behind the block and its own
  have hstores : Stores {w | w = C.addr 8 + 8 ∨ w = C.addr 8 + 8 + s + 8} m.mem
      ((m.setWord (BitVec.ofNat 64 (C.addr 8 + 8 + s + 8)) (tag (C.next (C.addr 8 + 8 + s) f).size
        (C.next (C.addr 8 + 8 + s) f).free false)).setWord (BitVec.ofNat 64 (C.addr 8 + 8))
          (tag s false C.prevFree)).mem := by
    refine stores_setWord_of_mem (stores_setWord_of_mem (Writes.refl _ _ _) ?_ ?_ ?_ ?_) ?_ ?_ ?_ ?_
    all_goals
      first
      | omega
      | exact ofNat_mem_headerWords (by omega)
      | exact tag_mem_headerWords (by omega) _ _
      | simp
  refine ⟨_, blockMarkAsUsed_eq h.focus h.behind ha hs hns (by omega) (by omega),
    h.rewrite [⟨s, false⟩] (p := f) rfl ?_ ?_ hstores rfl ?_ ?_ ?_⟩
  · simpa using ⟨hmin, hs⟩
  · simpa [place] using hF
  · simp only [place, List.mem_singleton, exists_eq_left, width]
    rintro w (rfl | rfl) <;> omega
  · simp only [place, List.mem_singleton, forall_eq, Tagged]
    simp (disch := omega) only [wordAt_setWord_of_ne, wordAt_setWord_self]
    simp
  · simp only [width, Nat.add_zero, ← Nat.add_assoc, lastFree]
    simp (disch := omega) only [wordAt_setWord_of_ne, wordAt_setWord_self]

/-- What `block_split` leaves. The flag of the new header that says whether the block before it is
free is the one that was there, and the link to that block is not set. -/
structure IsSplit (m m₁ : TlsfMem) (C : Ctx) (s n : ℕ) (f g : Bool) : Prop where
  eq : m₁ = { m with mem := m₁.mem }
  stores : Stores {w | w = C.addr 8 + 8 ∨ w = C.addr 8 + 8 + s + 8 ∨ w = C.addr 8 + 8 + s + 8 + n ∨
    w = C.addr 8 + 8 + s + 8 + n + 8} m.mem m₁.mem
  first : wordAt m₁.mem (C.addr 8 + 8) = tag s f C.prevFree
  second : wordAt m₁.mem (C.addr 8 + 8 + s + 8) = tag n true g
  back : wordAt m₁.mem (C.addr 8 + 8 + s + 8 + n) = BitVec.ofNat 64 (C.addr 8 + 8 + s)
  next : wordAt m₁.mem (C.addr 8 + 8 + s + 8 + n + 8) =
    tag (C.next (C.addr 8 + 8 + (s + 8 + n)) f).size
    (C.next (C.addr 8 + 8 + (s + 8 + n)) f).free true

/-- `block_split`. -/
theorem Rep.blockSplit (h : Rep control m c (C.fill [⟨s + 8 + n, f⟩]) F) (hs : 8 ∣ s)
    (hn : 24 ≤ n ∧ 8 ∣ n) :
    ∃ g m₁, m.blockSplit (BitVec.ofNat 64 (C.addr 8)) (BitVec.ofNat 64 s) =
      some (BitVec.ofNat 64 (C.addr 8 + 8 + s), m₁) ∧ IsSplit m m₁ C s n f g := by
  have ha := (h.layout.headerOk Ctx.head_mem_fill).addr_dvd
  have hns := h.layout.next_ok.size_dvd
  have hle : C.addr 8 + 8 + (s + 8 + n) + 16 + _ ≤ 2 ^ 64 := h.layout.next_ok.le
  have hbehind := h.behind
  simp only [← Nat.add_assoc (C.addr 8 + 8)] at ha hns hle hbehind
  obtain ⟨g, g', hsplit⟩ :=
    exists_blockSplit h.focus hbehind ha hs hn.2 hns hn.1 (by omega)
  refine ⟨g, _, hsplit, rfl, ?_, ?_, ?_, ?_, ?_⟩
  -- five words are stored, each of them in the split block or the header behind it
  · refine stores_setWord_of_mem
      (stores_setWord_of_mem (stores_setWord_of_mem (stores_setWord_of_mem
      (stores_setWord_of_mem (Writes.refl _ _ _) ?_ ?_ ?_ ?_) ?_ ?_ ?_ ?_) ?_ ?_ ?_ ?_) ?_ ?_ ?_ ?_)
        ?_ ?_ ?_ ?_
    all_goals
      first
      | omega
      | exact ofNat_mem_headerWords (by omega)
      | exact tag_mem_headerWords (by omega) _ _
      | simp
  all_goals simp (disch := omega) only [wordAt_setWord_of_ne, wordAt_setWord_self]
  simp only [← Nat.add_assoc (C.addr 8 + 8)]

/-- What the callers of `block_split` have to store yet. -/
theorem Rep.of_isSplit {m₁ : TlsfMem} {g : Bool} (h : Rep control m c (C.fill [⟨s + 8 + n, f⟩]) F)
    (hF : (C.addr 8, s + 8 + n) ∉ F) (hs : 24 ≤ s ∧ 8 ∣ s) (hn : 24 ≤ n ∧ 8 ∣ n)
    (h₁ : IsSplit m m₁ C s n f g) (heq : m' = { m₁ with mem := m'.mem })
    (hstores : Stores {w | w = C.addr 8 + 8 + s ∧ f = true ∨
      w = C.addr 8 + 8 + s + 8} m₁.mem m'.mem)
    (hback : f = true → wordAt m'.mem (C.addr 8 + 8 + s) = BitVec.ofNat 64 (C.addr 8))
    (hsecond : wordAt m'.mem (C.addr 8 + 8 + s + 8) = tag n true f) :
    Rep control m' c (C.fill [⟨s, f⟩, ⟨n, true⟩]) F ∧
      Stores (Spare control (C.fill [⟨s, f⟩, ⟨n, true⟩])) m.mem m'.mem := by
  have ha := (h.layout.headerOk Ctx.head_mem_fill).addr_dvd
  have hle : C.addr 8 + 8 + (s + 8 + n) + 16 + _ ≤ 2 ^ 64 := h.layout.next_ok.le
  simp only at ha
  -- the callers write at most two words more
  have hsame : ∀ w, 8 ∣ w → w + 8 ≤ 2 ^ 64 → w < C.addr 8 + 8 + s ∨ C.addr 8 + 8 + s + 8 < w →
      wordAt m'.mem w = wordAt m₁.mem w := by
    intro w hw hwn hout
    apply hstores.agree w hw hwn
    rw [Set.mem_ofPred_eq]
    omega
  refine h.rewrite _ (p := f) ?_ ?_ ?_ (h₁.stores.trans hstores) ?_ ?_ ?_ ?_
  · simp only [width]
    omega
  · simpa using ⟨hs, hn⟩
  · simpa [place] using hF
  · rw [heq, h₁.eq]
  · simp only [place, List.mem_cons, List.not_mem_nil, or_false, exists_eq_or_imp, exists_eq_left,
      width, true_and]
    rintro w ((rfl | rfl | rfl | rfl) | ⟨rfl, rfl⟩ | rfl)
    · omega
    · omega
    · omega
    · omega
    · exact ⟨by omega, .inr (.inl (.inr ⟨rfl, by omega⟩))⟩
    · omega
  · simp only [place, List.mem_cons, List.not_mem_nil, or_false, forall_eq_or_imp, forall_eq]
    have hfirst := (hsame (C.addr 8 + 8) (by omega) (by omega) (by omega)).trans h₁.first
    have hback' := (hsame (C.addr 8 + 8 + s + 8 + n) (by omega) (by omega) (by omega)).trans h₁.back
    exact ⟨⟨hfirst, hback⟩, hsecond, fun _ => hback'⟩
  · have hnext := (hsame _ (by omega) (by omega) (by omega)).trans h₁.next
    simp only [width, Nat.add_zero, ← Nat.add_assoc, lastFree] at hnext ⊢
    exact hnext

/-- `block_split` of a free block, as in `block_trim_free`. -/
theorem Rep.splitFree (h : Rep control m c (C.fill [⟨s + 8 + n, true⟩]) F)
    (hF : (C.addr 8, s + 8 + n) ∉ F) (hs : 24 ≤ s ∧ 8 ∣ s) (hn : 24 ≤ n ∧ 8 ∣ n) :
    ∃ m₁ linked, m.blockSplit (BitVec.ofNat 64 (C.addr 8)) (BitVec.ofNat 64 s) =
        some (BitVec.ofNat 64 (C.addr 8 + 8 + s), m₁) ∧
      m₁.blockLinkNext (BitVec.ofNat 64 (C.addr 8)) = some linked ∧
      Rep control (linked.2.blockSetPrevFree (BitVec.ofNat 64 (C.addr 8 + 8 + s))) c
        (C.fill [⟨s, true⟩, ⟨n, true⟩]) F ∧
      Stores (Spare control (C.fill [⟨s, true⟩, ⟨n, true⟩])) m.mem
        (linked.2.blockSetPrevFree (BitVec.ofNat 64 (C.addr 8 + 8 + s))).mem := by
  have ha := (h.layout.headerOk Ctx.head_mem_fill).addr_dvd
  have hle : C.addr 8 + 8 + (s + 8 + n) + 16 + _ ≤ 2 ^ 64 := h.layout.next_ok.le
  simp only at ha
  obtain ⟨g, m₁, hm₁, hsplit⟩ := h.blockSplit hs.2 hn
  refine ⟨m₁, _, hm₁, blockLinkNext_eq hsplit.first hs.2 (by omega) (by omega), ?_⟩
  rw [blockSetPrevFree_eq (s := n) (f := true) (p := g) ?_ hn.2]
  -- the rest becomes a free block of its own, with its link back to the first
  · refine h.of_isSplit hF hs hn hsplit rfl ?_ ?_ ?_
    · refine stores_setWord_of_mem
        (stores_setWord_of_mem (Writes.refl _ _ _) ?_ ?_ ?_ ?_) ?_ ?_ ?_ ?_
      all_goals
      first
      | omega
      | exact ofNat_mem_headerWords (by omega)
      | exact tag_mem_headerWords (by omega) _ _
      | simp
    all_goals simp (disch := omega) only [wordAt_setWord_of_ne, wordAt_setWord_self, implies_true]
  · simp (disch := omega) only [wordAt_setWord_of_ne]
    exact hsplit.second

/-- `block_split` of a free block, as in `block_trim_free_leading`. -/
theorem Rep.splitLeading (h : Rep control m c (C.fill [⟨s + 8 + n, true⟩]) F)
    (hF : (C.addr 8, s + 8 + n) ∉ F) (hs : 24 ≤ s ∧ 8 ∣ s) (hn : 24 ≤ n ∧ 8 ∣ n) :
    ∃ m₁ linked, m.blockSplit (BitVec.ofNat 64 (C.addr 8)) (BitVec.ofNat 64 s) =
        some (BitVec.ofNat 64 (C.addr 8 + 8 + s), m₁) ∧
      (m₁.blockSetPrevFree (BitVec.ofNat 64 (C.addr 8 + 8 + s))).blockLinkNext
        (BitVec.ofNat 64 (C.addr 8)) = some linked ∧
      Rep control linked.2 c (C.fill [⟨s, true⟩, ⟨n, true⟩]) F ∧
      Stores (Spare control (C.fill [⟨s, true⟩, ⟨n, true⟩])) m.mem linked.2.mem := by
  have ha := (h.layout.headerOk Ctx.head_mem_fill).addr_dvd
  have hle : C.addr 8 + 8 + (s + 8 + n) + 16 + _ ≤ 2 ^ 64 := h.layout.next_ok.le
  simp only at ha
  obtain ⟨g, m₁, hm₁, hsplit⟩ := h.blockSplit hs.2 hn
  have hset := blockSetPrevFree_eq hsplit.second hn.2
  have hfirst : wordAt (m₁.blockSetPrevFree (BitVec.ofNat 64 (C.addr 8 + 8 + s))).mem
    (C.addr 8 + 8) =
      tag s true C.prevFree := by
    rw [hset]
    simp (disch := omega) only [wordAt_setWord_of_ne]
    exact hsplit.first
  refine ⟨m₁, _, hm₁, blockLinkNext_eq hfirst hs.2 (by omega) (by omega), ?_⟩
  rw [hset]
  -- the flag of the second header and its link to the first block are stored after the split
  refine h.of_isSplit hF hs hn hsplit rfl ?_ ?_ ?_
  · refine stores_setWord_of_mem (stores_setWord_of_mem (Writes.refl _ _ _) ?_ ?_ ?_ ?_) ?_ ?_ ?_ ?_
    all_goals
      first
      | omega
      | exact ofNat_mem_headerWords (by omega)
      | exact tag_mem_headerWords (by omega) _ _
      | simp
  all_goals simp (disch := omega) only [wordAt_setWord_of_ne, wordAt_setWord_self, implies_true]

/-- `block_split` of a block in use, as in `block_trim_used`. -/
theorem Rep.splitUsed (h : Rep control m c (C.fill [⟨s + 8 + n, false⟩]) F)
    (hF : (C.addr 8, s + 8 + n) ∉ F) (hs : 24 ≤ s ∧ 8 ∣ s) (hn : 24 ≤ n ∧ 8 ∣ n) :
    ∃ m₁, m.blockSplit (BitVec.ofNat 64 (C.addr 8)) (BitVec.ofNat 64 s) =
        some (BitVec.ofNat 64 (C.addr 8 + 8 + s), m₁) ∧
      Rep control (m₁.blockSetPrevUsed (BitVec.ofNat 64 (C.addr 8 + 8 + s))) c
        (C.fill [⟨s, false⟩, ⟨n, true⟩]) F ∧
      Stores (Spare control (C.fill [⟨s, false⟩, ⟨n, true⟩])) m.mem
        (m₁.blockSetPrevUsed (BitVec.ofNat 64 (C.addr 8 + 8 + s))).mem := by
  have ha := (h.layout.headerOk Ctx.head_mem_fill).addr_dvd
  have hle : C.addr 8 + 8 + (s + 8 + n) + 16 + _ ≤ 2 ^ 64 := h.layout.next_ok.le
  simp only at ha
  obtain ⟨g, m₁, hm₁, hsplit⟩ := h.blockSplit hs.2 hn
  refine ⟨m₁, hm₁, ?_⟩
  rw [blockSetPrevUsed_eq hsplit.second hn.2]
  -- the first part stays in use; the rest behind it is free
  refine h.of_isSplit hF hs hn hsplit rfl ?_ ?_ ?_
  · refine stores_setWord_of_mem (Writes.refl _ _ _) ?_ ?_ ?_ ?_
    all_goals
      first
      | omega
      | exact ofNat_mem_headerWords (by omega)
      | exact tag_mem_headerWords (by omega) _ _
      | simp
  · rintro ⟨⟩
  · exact wordAt_setWord_self _ _

/-- The second block in the place. -/
theorem Rep.second (h : Rep control m c (C.fill [⟨s, f⟩, ⟨n, true⟩]) F) :
    wordAt m.mem (C.addr 8 + 8 + s + 8) = tag n true f :=
  (h.tagged _ (Ctx.mem_fill.mpr (.inr (.inl (List.mem_cons_of_mem _ List.mem_cons_self))))).1

/-- `block_absorb`, of two free blocks. -/
theorem Rep.blockAbsorb (h : Rep control m c (C.fill [⟨s, true⟩, ⟨n, true⟩]) F)
    (hF : (C.addr 8, s) ∉ F) (hF' : (C.addr 8 + 8 + s, n) ∉ F) :
    ∃ m', m.blockAbsorb (BitVec.ofNat 64 (C.addr 8))
      (BitVec.ofNat 64 (C.addr 8 + 8 + s)) = some m' ∧
      Rep control m' c (C.fill [⟨s + (n + 8), true⟩]) F ∧
      Stores (Spare control (C.fill [⟨s + (n + 8), true⟩])) m.mem m'.mem := by
  obtain ⟨hmin, hs⟩ := h.layout.tile_ok List.mem_cons_self
  obtain ⟨hmin', hn⟩ := h.layout.tile_ok (List.mem_cons_of_mem _ List.mem_cons_self)
  have ha := (h.layout.headerOk Ctx.head_mem_fill).addr_dvd
  have hle := (h.layout.headerOk (Ctx.next_mem_fill [⟨s, true⟩, ⟨n, true⟩])).le
  have hnext := (h.tagged _ (Ctx.next_mem_fill [⟨s, true⟩, ⟨n, true⟩])).1
  -- the block behind both keeps its flags, its predecessor was free already
  simp only [Ctx.next, first, width, lastFree] at hmin hmin' hs hn ha hle hnext
  refine ⟨_, blockAbsorb_eq h.focus h.second ha hs hn (by omega) (by omega),
    h.rewrite [⟨s + (n + 8), true⟩] (S := {w | w = C.addr 8 + 8 ∨ w = C.addr 8 + 8 + (s + (n + 8))})
    (p := true)
      ?_ ?_ ?_ ?_ rfl ?_ ?_ ?_⟩
  · simp only [width]
    omega
  · simp only [List.mem_singleton, forall_eq]
    omega
  · simpa [place] using ⟨hF, hF'⟩
  · refine stores_setWord_of_mem (stores_setWord_of_mem (Writes.refl _ _ _) ?_ ?_ ?_ ?_) ?_ ?_ ?_ ?_
    all_goals
      first
      | omega
      | exact ofNat_mem_headerWords (by omega)
      | exact tag_mem_headerWords (by omega) _ _
      | simp
  · simp only [place, List.mem_singleton, exists_eq_left, width, true_and]
    rintro w (rfl | rfl) <;> omega
  · simp only [place, List.mem_singleton, forall_eq, Tagged]
    simp (disch := omega) only [wordAt_setWord_of_ne, wordAt_setWord_self]
    simp
  · simp only [width, lastFree, Ctx.next, first]
    simp (disch := omega) only [wordAt_setWord_of_ne]
    exact hnext

/-- A block in use is joined with the free one behind it, as in `tlsf_realloc`. -/
theorem Rep.absorbUsed (h : Rep control m c (C.fill [⟨s, false⟩, ⟨n, true⟩]) F)
    (hF : (C.addr 8, s) ∉ F) (hF' : (C.addr 8 + 8 + s, n) ∉ F) :
    ∃ m₁ m', m.blockAbsorb (BitVec.ofNat 64 (C.addr 8))
      (BitVec.ofNat 64 (C.addr 8 + 8 + s)) = some m₁ ∧
      m₁.blockMarkAsUsed (BitVec.ofNat 64 (C.addr 8)) = some m' ∧
      Rep control m' c (C.fill [⟨s + (n + 8), false⟩]) F ∧
      Stores (Spare control (C.fill [⟨s, false⟩, ⟨n, true⟩])) m.mem m'.mem := by
  obtain ⟨hmin, hs⟩ := h.layout.tile_ok List.mem_cons_self
  obtain ⟨hmin', hn⟩ := h.layout.tile_ok (List.mem_cons_of_mem _ List.mem_cons_self)
  have ha := (h.layout.headerOk Ctx.head_mem_fill).addr_dvd
  have hbehind := h.layout.headerOk (Ctx.next_mem_fill [⟨s, false⟩, ⟨n, true⟩])
  have hle := hbehind.le
  have hns := hbehind.size_dvd
  have hnext := (h.tagged _ (Ctx.next_mem_fill [⟨s, false⟩, ⟨n, true⟩])).1
  simp only [Ctx.next, first, width, lastFree] at hmin hmin' hs hn ha hle hns hnext
  rw [show C.addr 8 + (8 + s + (8 + n + 0)) + 8 =
    C.addr 8 + 8 + (s + (n + 8)) + 8 by omega] at hnext
  -- two calls, four words: both write the header of the joined block, which the second marks
  have habsorb := blockAbsorb_eq h.focus h.second ha hs hn (by omega) (by omega)
  have hmark := blockMarkAsUsed_eq (m := (m.setWord (BitVec.ofNat 64 (C.addr 8 + 8))
    (tag (s + (n + 8)) false C.prevFree)).setWord (BitVec.ofNat 64 (C.addr 8 + 8 + (s + (n + 8))))
      (BitVec.ofNat 64 (C.addr 8))) (a := C.addr 8) (s := s + (n + 8)) (f := false) (p :=
      C.prevFree)
    (by simp (disch := omega) only [wordAt_setWord_of_ne, wordAt_setWord_self])
    (by simp (disch := omega) only [wordAt_setWord_of_ne]; exact hnext) ha (by omega) hns (by omega)
    (by omega)
  -- what the two calls store are words of headers
  have hstores : Stores {w | w = C.addr 8 + 8 ∨ w = C.addr 8 + 8 + (s + (n + 8)) ∨
      w = C.addr 8 + 8 + (s + (n + 8)) + 8} m.mem
      ((((m.setWord (BitVec.ofNat 64 (C.addr 8 + 8)) (tag (s + (n + 8)) false C.prevFree)).setWord
        (BitVec.ofNat 64 (C.addr 8 + 8 + (s + (n + 8)))) (BitVec.ofNat 64 (C.addr 8))).setWord
          (BitVec.ofNat 64 (C.addr 8 + 8 + (s + (n + 8)) + 8)) (tag (C.right.head?.elim 0 Tile.size)
            (C.right.head?.elim false Tile.free) false)).setWord (BitVec.ofNat 64 (C.addr 8 + 8))
              (tag (s + (n + 8)) false C.prevFree)).mem := by
    refine stores_setWord_of_mem
      (stores_setWord_of_mem (stores_setWord_of_mem (stores_setWord_of_mem
      (Writes.refl _ _ _) ?_ ?_ ?_ ?_) ?_ ?_ ?_ ?_) ?_ ?_ ?_ ?_) ?_ ?_ ?_ ?_
    all_goals
      first
      | omega
      | exact ofNat_mem_headerWords (by omega)
      | exact tag_mem_headerWords (by omega) _ _
      | simp
  refine ⟨_, _, habsorb, hmark, ?_, ?_⟩
  · refine h.retile [⟨s + (n + 8), false⟩]
      (p := true) ?_ ?_ (hstores.agree.mono ?_) rfl (h.outside ?_) ?_ ?_
    · simp only [width]
      omega
    · simp only [List.mem_singleton, forall_eq]
      omega
    · simp only [width]
      rintro w (rfl | rfl | rfl) <;> rw [Set.mem_ofPred_eq] <;> omega
    · simpa [place] using ⟨hF, hF'⟩
    · simp only [place, List.mem_singleton, forall_eq, Tagged]
      simp (disch := omega) only [wordAt_setWord_of_ne, wordAt_setWord_self]
      simp
    · simp only [width, lastFree, Ctx.next, first]
      rw [show C.addr 8 + (8 + s + (8 + n + 0)) + 8 = C.addr 8 + 8 + (s + (n + 8)) + 8 by omega]
      simp (disch := omega) only [wordAt_setWord_of_ne, wordAt_setWord_self]
  · apply hstores.mono
    -- the words lie in headers that were there, or in the free block that is taken in
    have hsecond : (⟨C.addr 8 + 8 + s, n, true, false⟩ : Header) ∈ headers 8
      (C.fill [⟨s, false⟩, ⟨n, true⟩]) :=
      Ctx.mem_fill.mpr (.inr (.inl (List.mem_cons_of_mem _ List.mem_cons_self)))
    rintro w (rfl | rfl | rfl)
    · exact h.layout.spare Ctx.head_mem_fill (by omega) (.inl rfl)
    · exact h.layout.spare hsecond (by omega) (.inr ⟨rfl, by simp only; omega⟩)
    · refine h.layout.spare (Ctx.next_mem_fill [⟨s, false⟩, ⟨n, true⟩]) (by omega) (.inl ?_)
      simp only [Ctx.next, first, width]
      omega

end Blocks

end TlsfMem

end Koharu
