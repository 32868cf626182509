import Koharu.Lib.Chain
import Koharu.Mm.TlsfHeaders

/-!
# The lists of free blocks in memory

A free block has its links behind its header. `FreeLists control m c F` says that the lists that the
links in memory make are those of `c`, with the blocks `F` on them, and that the bitmaps are the
same.

A pointer to the node `block_null` ends a list, in both directions, so that the links of a list are
a segment of a chain, and another one in reverse (`Lib/Chain`). Insertion stores to the new block,
to the block that was the first, and to the head of the class. Removal stores to the two neighbours
of the block, either of which may be `block_null`, and to the head if the block was the first one.
All other words that links are in stay the same, and with them the lists of the other classes.

* `Nodes`: the blocks have room for their links, and do not overlap;
* `FreeLists.insert`, `FreeLists.remove`: `block_insert` and `block_remove` do to the links what
  they do to the lists.
-/

namespace Koharu

open Tlsf WordMemory Chain

/-! ### Lists for two indices

The rows of the table of lists, and which list a block goes to. -/

namespace Tlsf

/-- Updating the row of a class and the entry in it changes this class only. -/
theorem update_class {β : Type*} (f : ℕ → Fin 32 → β) (k k' : Tlsf.Class) (v : β) :
    Function.update f k.1 (Function.update (f k.1) k.2 v) k'.1 k'.2 =
      if k' = k then v else f k'.1 k'.2 := by
  by_cases hk : k' = k
  · rw [if_pos hk, hk, Function.update_self, Function.update_self]
  · rw [if_neg hk]
    by_cases hfl : k'.1 = k.1
    · rw [hfl, Function.update_self, Function.update_of_ne fun hsl => hk (Prod.ext hfl hsl)]
    · rw [Function.update_of_ne hfl]

/-- The blocks that a heap can have are on lists that there are. -/
theorem mappingInsert_fst_lt {s : Size} (hs : s.toNat < 2 ^ 32) :
    (mappingInsert s).1 < flIndexCount := by
  by_cases hsmall : s < smallBlockSize
  · rw [mappingInsert, if_pos hsmall]
    exact Nat.succ_pos _
  · have hle : smallBlockSize ≤ s := BitVec.not_lt.mp hsmall
    have hpos : s.toNat ≠ 0 := by
      have : 256 ≤ s.toNat := BitVec.le_def.mp hle
      omega
    have hlog : Nat.log2 s.toNat < 32 := (Nat.log2_lt hpos).mpr hs
    rw [mappingInsert_fst hle, flIndexCount]
    omega

/-- Rounding up an aligned size changes nothing. -/
theorem alignUp_eq_self {x : ℕ} (hx : 8 ∣ x) (hlt : x + 8 ≤ 2 ^ 64) :
    Tlsf.alignUp (BitVec.ofNat 64 x) = BitVec.ofNat 64 x := by
  apply BitVec.eq_of_toNat_eq
  have hmod : x % 2 ^ 64 = x := Nat.mod_eq_of_lt (Nat.lt_of_add_right_lt (Nat.lt_of_succ_le hlt))
  have hup : (x + 7) % 2 ^ 64 = x + 7 := Nat.mod_eq_of_lt (Nat.lt_of_succ_le hlt)
  rw [alignUp_toNat, BitVec.toNat_ofNat, hmod, hup]
  omega

end Tlsf

namespace TlsfMem

/-! ### Links

The doubly linked lists in memory, each of which ends at `block_null` in the control structure. -/

/-- Blocks, by address and size, that have room for the links, and where the control structure
is. -/
structure Nodes (control : Addr) (F : Set (ℕ × ℕ)) : Prop where
  control_dvd : 8 ∣ control.toNat
  control_pos : control.toNat ≠ 0
  control_le : control.toNat + 32 ≤ 2 ^ 64
  dvd : ∀ x ∈ F, 8 ∣ x.1 ∧ 8 ∣ x.2
  pos : ∀ x ∈ F, 8 ≤ x.1
  le : ∀ x ∈ F, x.1 + 16 + x.2 ≤ 2 ^ 64
  min : ∀ x ∈ F, 24 ≤ x.2
  lt : ∀ x ∈ F, x.2 < 2 ^ 32
  control : ∀ x ∈ F, x.1 + 16 + x.2 ≤ control.toNat ∨ control.toNat + 32 ≤ x.1 + 8
  apart : ∀ x ∈ F, ∀ y ∈ F, x ≠ y → x.1 + 8 + x.2 ≤ y.1 ∨ y.1 + 8 + y.2 ≤ x.1

/-- The block as it is on a list. -/
def freeBlock (x : ℕ × ℕ) : FreeBlock := ⟨BitVec.ofNat 64 x.1, BitVec.ofNat 64 x.2⟩

/-- The end of a list is `block_null`. -/
def link (control w : Addr) : Option Addr := if w = control then none else some w

/-- The lists in memory are those of `c`. -/
structure FreeLists (control : Addr) (m : TlsfMem) (c : Control) (F : Set (ℕ × ℕ)) : Prop where
  flBitmap : m.flBitmap = c.flBitmap
  slBitmap : m.slBitmap = c.slBitmap
  mem_blocks : ∀ (k : Tlsf.Class) (b : FreeBlock),
    b ∈ c.blocks k.1 k.2 ↔ ∃ x ∈ F, b = freeBlock x ∧ mappingInsert b.size = k
  nodup : ∀ k : Tlsf.Class, ((c.blocks k.1 k.2).map FreeBlock.addr).Nodup
  next : ∀ k : Tlsf.Class, Chain.Segment (fun b => link control (m.nextFree b))
    (link control (m.blocks k.1 k.2)) ((c.blocks k.1 k.2).map FreeBlock.addr) none
  prev : ∀ k : Tlsf.Class, Chain.Segment (fun b => link control (m.prevFree b))
    ((c.blocks k.1 k.2).map FreeBlock.addr).getLast? ((c.blocks k.1 k.2).map FreeBlock.addr).reverse
      none

/-- The words with the links of the blocks, and of `block_null`. -/
def linkWords (control : Addr) (F : Set (ℕ × ℕ)) : Set ℕ :=
  {w | ∃ y, (y = control.toNat ∨ ∃ x ∈ F, y = x.1) ∧ (w = y + 16 ∨ w = y + 24)}

variable {control : Addr} {m m' : TlsfMem} {c : Control} {F G : Set (ℕ × ℕ)} {S : Set ℕ}
  {x y : ℕ × ℕ} {k : Tlsf.Class}

/-- Fewer blocks are still apart. -/
theorem Nodes.mono (h : Nodes control G) (hsub : F ⊆ G) : Nodes control F where
  control_dvd := h.control_dvd
  control_pos := h.control_pos
  control_le := h.control_le
  dvd x hx := h.dvd x (hsub hx)
  pos x hx := h.pos x (hsub hx)
  le x hx := h.le x (hsub hx)
  min x hx := h.min x (hsub hx)
  lt x hx := h.lt x (hsub hx)
  control x hx := h.control x (hsub hx)
  apart x hx y hy := h.apart x (hsub hx) y (hsub hy)

/-- Blocks at the same address are the same. -/
theorem Nodes.eq_of_fst (h : Nodes control F) (hx : x ∈ F) (hy : y ∈ F) (heq : x.1 = y.1) :
    x = y := by
  by_contra hne
  have := h.apart x hx y hy hne
  omega

/-- So are blocks with the same pointer. -/
theorem Nodes.freeBlock_inj (h : Nodes control F) (hx : x ∈ F) (hy : y ∈ F)
    (heq : (freeBlock x).addr = (freeBlock y).addr) : x = y := by
  have hlx := h.le x hx
  have hly := h.le y hy
  have hmx := h.min x hx
  have hmy := h.min y hy
  exact h.eq_of_fst hx hy ((ofNat_inj (by omega) (by omega)).mp heq)

/-- An address in a free list is that of a free block of the class. -/
theorem FreeLists.mem_addr (h : FreeLists control m c F) {b : Addr}
    (hb : b ∈ (c.blocks k.1 k.2).map FreeBlock.addr) :
    ∃ x ∈ F, b = BitVec.ofNat 64 x.1 ∧ freeBlock x ∈ c.blocks k.1 k.2 := by
  obtain ⟨fb, hfb, rfl⟩ := List.mem_map.mp hb
  obtain ⟨x, hx, rfl, -⟩ := (h.mem_blocks k fb).mp hfb
  exact ⟨x, hx, rfl, hfb⟩

/-- Where the links are the same, so are the lists. -/
theorem FreeLists.congr (h : FreeLists control m c F) (hF : Nodes control F)
    (hfl : m'.flBitmap = m.flBitmap) (hsl : m'.slBitmap = m.slBitmap)
    (hheads : m'.blocks = m.blocks) (hagree : Agree S m.mem m'.mem)
    (hS : ∀ x ∈ F, x.1 + 16 ∉ S ∧ x.1 + 24 ∉ S) :
    FreeLists control m' c F where
  flBitmap := hfl.trans h.flBitmap
  slBitmap := hsl.trans h.slBitmap
  mem_blocks := h.mem_blocks
  nodup := h.nodup
  next k := by
    rw [hheads]
    -- the links are read in the blocks of the list, which are not stored to
    apply (h.next k).congr
    intro b hb
    obtain ⟨x, hx, rfl, -⟩ := h.mem_addr hb
    obtain ⟨hdvd, -⟩ := hF.dvd x hx
    have hle := hF.le x hx
    have hmin := hF.min x hx
    rw [nextFree_eq, nextFree_eq, hagree _ (by omega) (by omega) (hS x hx).1]
  prev k := by
    apply (h.prev k).congr
    intro b hb
    obtain ⟨x, hx, rfl, -⟩ := h.mem_addr (List.mem_reverse.mp hb)
    obtain ⟨hdvd, -⟩ := hF.dvd x hx
    have hle := hF.le x hx
    have hmin := hF.min x hx
    rw [prevFree_eq, prevFree_eq, hagree _ (by omega) (by omega) (hS x hx).2]

/-- The pointers of the lists: to `block_null`, or to a block. -/
theorem exists_of_link {w : Addr} (hw : ∀ b ∈ link control w, ∃ x ∈ F, b = BitVec.ofNat 64 x.1) :
    ∃ z, w = BitVec.ofNat 64 z ∧ (z = control.toNat ∨ ∃ x ∈ F, z = x.1) := by
  by_cases hc : w = control
  · exact ⟨control.toNat, by rw [hc, BitVec.ofNat_toNat, BitVec.setWidth_eq], .inl rfl⟩
  · obtain ⟨x, hx, rfl⟩ := hw w (by rw [link, if_neg hc]; rfl)
    exact ⟨x.1, rfl, .inr ⟨x, hx, rfl⟩⟩


/-! ### A block is put on a list

The new block becomes the head, and the old head's back link is set. -/

/-- Inserting puts the block in front of the list of its class. -/
theorem blocks_insertFree (c : Control) (b : FreeBlock) (k k' : Tlsf.Class) :
    (c.insertFree b k).blocks k'.1 k'.2 =
    if k' = k then b :: c.blocks k.1 k.2 else c.blocks k'.1 k'.2 :=
  update_class c.blocks k k' _

/-- Setting the head of a list changes that list's head only. -/
theorem blocks_setHead (m : TlsfMem) (k k' : Tlsf.Class) (b : Addr) :
    (m.setHead k b).blocks k'.1 k'.2 = if k' = k then b else m.blocks k'.1 k'.2 :=
  update_class m.blocks k k' b

/-- The links of `insert_free_block`. -/
theorem FreeLists.insert_links (h : FreeLists control m c F) (hF : Nodes control (insert x F))
    (hx : x ∉ F) {mem' : Addr → BitVec 8} {z : ℕ}
    (hhead : m.blocks k.1 k.2 = BitVec.ofNat 64 z) (hz : z = control.toNat ∨ ∃ y ∈ F, z = y.1)
    (hk : mappingInsert (BitVec.ofNat 64 x.2) = k)
    (hagree : Agree {x.1 + 16, x.1 + 24, z + 24} m.mem mem')
    (hnext : wordAt mem' (x.1 + 16) = BitVec.ofNat 64 z) (hprev : wordAt mem' (x.1 + 24) = control)
    (hback : wordAt mem' (z + 24) = BitVec.ofNat 64 x.1)
    (hfl : m'.flBitmap = m.flBitmap ||| BitVec.twoPow 32 k.1)
    (hsl : m'.slBitmap = Function.update m.slBitmap k.1 (m.slBitmap k.1 ||| BitVec.twoPow 32 k.2))
    (hheads : m'.blocks = (m.setHead k (BitVec.ofNat 64 x.1)).blocks) (hmem : m'.mem = mem') :
    FreeLists control m' (c.insertFree (freeBlock x) k) (insert x F) := by
  have hsub : F ⊆ insert x F := Set.subset_insert x F
  have hxi : x ∈ insert x F := Set.mem_insert x F
  -- where the block behind has its links
  have hzwhere : ∀ y ∈ F, y.1 ≠ z → z + 24 ≠ y.1 + 24 ∧ z + 24 ≠ y.1 + 16 := by
    intro y hy hne
    have hlow := hF.min y (hsub hy)
    rcases hz with rfl | ⟨y', hy', rfl⟩
    · have := hF.control y (hsub hy)
      omega
    · have := hF.apart y (hsub hy) y' (hsub hy') fun heq => hne (heq ▸ rfl)
      have hlow' := hF.min y' (hsub hy')
      omega
  have hsep : ∀ y ∈ F, y.1 + 8 + y.2 ≤ x.1 ∨ x.1 + 8 + x.2 ≤ y.1 := fun y hy =>
    hF.apart y (hsub hy) x hxi fun heq => hx (heq ▸ hy)
  have hword : ∀ y ∈ F, wordAt mem' (y.1 + 16) = wordAt m.mem (y.1 + 16) ∧
      (y.1 ≠ z → wordAt mem' (y.1 + 24) = wordAt m.mem (y.1 + 24)) := by
    intro y hy
    have hs := hsep y hy
    have hle := hF.le y (hsub hy)
    have hmin := hF.min y (hsub hy)
    have hminx := hF.min x hxi
    obtain ⟨hdvd, -⟩ := hF.dvd y (hsub hy)
    refine ⟨hagree _ (by omega) (by omega) ?_, fun hne => hagree _ (by omega) (by omega) ?_⟩
    · rintro (h | h | h)
      · omega
      · omega
      · have h := Set.mem_singleton_iff.mp h
        by_cases hyz : y.1 = z
        · omega
        · exact (hzwhere y hy hyz).2 h.symm
    · rintro (h | h | h)
      · omega
      · omega
      · exact (hzwhere y hy hne).1 h.symm
  have haddr : ∀ k' : Tlsf.Class, ∀ b ∈ (c.blocks k'.1 k'.2).map FreeBlock.addr,
      ∃ y ∈ F, b = BitVec.ofNat 64 y.1 ∧ freeBlock y ∈ c.blocks k'.1 k'.2 :=
    fun _ _ hb => h.mem_addr hb
  have hblocks := fun k' => blocks_insertFree c (freeBlock x) k k'
  have hhead' : ∀ k', m'.blocks k'.1 k'.2 =
      if k' = k then BitVec.ofNat 64 x.1 else m.blocks k'.1 k'.2 := fun k' => by
    rw [hheads, blocks_setHead]
  have hxcontrol : (BitVec.ofNat 64 x.1 : Addr) ≠ control := by
    intro heq
    have hc := hF.control x hxi
    have hle := hF.le x hxi
    rw [← heq, BitVec.toNat_ofNat, Nat.mod_eq_of_lt (by omega)] at hc
    omega
  -- the first block of the list, if there is one, is at `z`
  have hfirst : link control (BitVec.ofNat 64 z) =
    ((c.blocks k.1 k.2).map FreeBlock.addr).head? := by
    rw [← hhead]
    exact (h.next k).head
  have hzhead : ∀ y ∈ F, y.1 = z →
      ((c.blocks k.1 k.2).map FreeBlock.addr).head? = some (BitVec.ofNat 64 y.1) := by
    intro y hy hyz
    have hc := hF.control y (hsub hy)
    have hle := hF.le y (hsub hy)
    rw [← hfirst, ← hyz, link, if_neg]
    intro heq
    rw [← heq, BitVec.toNat_ofNat, Nat.mod_eq_of_lt (by omega)] at hc
    omega
  refine ⟨by rw [hfl, h.flBitmap]; rfl, by rw [hsl, h.slBitmap]; rfl, fun k' b => ?_, fun k' => ?_,
    fun k' => ?_, fun k' => ?_⟩
  · rw [hblocks]
    by_cases hkk : k' = k
    · subst hkk
      rw [if_pos rfl, List.mem_cons, h.mem_blocks]
      constructor
      · rintro (rfl | ⟨y, hy, rfl, hm⟩)
        · exact ⟨x, hxi, rfl, hk⟩
        · exact ⟨y, hsub hy, rfl, hm⟩
      · rintro ⟨y, rfl | hy, rfl, hm⟩
        · exact .inl rfl
        · exact .inr ⟨y, hy, rfl, hm⟩
    · rw [if_neg hkk, h.mem_blocks]
      constructor
      · rintro ⟨y, hy, rfl, hm⟩
        exact ⟨y, hsub hy, rfl, hm⟩
      · rintro ⟨y, rfl | hy, rfl, hm⟩
        · exact absurd (hm.symm.trans hk) hkk
        · exact ⟨y, hy, rfl, hm⟩
  · rw [hblocks]
    by_cases hkk : k' = k
    · subst hkk
      rw [if_pos rfl, List.map_cons, List.nodup_cons]
      refine ⟨fun hmem => ?_, h.nodup k'⟩
      obtain ⟨y, hy, heq, -⟩ := haddr k' _ hmem
      exact hx (hF.freeBlock_inj hxi (hsub hy) heq ▸ hy)
    · rw [if_neg hkk]
      exact h.nodup k'
  · rw [hblocks, hhead']
    have hcongr : ∀ b ∈ (c.blocks k'.1 k'.2).map FreeBlock.addr,
        link control (m'.nextFree b) = link control (m.nextFree b) := by
      intro b hb
      obtain ⟨y, hy, rfl, -⟩ := haddr k' b hb
      rw [nextFree_eq, nextFree_eq, hmem, (hword y hy).1]
    by_cases hkk : k' = k
    · subst hkk
      rw [if_pos rfl, if_pos rfl, List.map_cons, segment_cons]
      refine ⟨by rw [link, if_neg hxcontrol]; rfl, ?_⟩
      have hlink : link control (m'.nextFree (freeBlock x).addr) =
        link control (m.blocks k'.1 k'.2) := by
        rw [freeBlock, nextFree_eq, hmem, hnext, hhead]
      rw [hlink]
      exact (h.next k').congr hcongr
    · rw [if_neg hkk, if_neg hkk]
      exact (h.next k').congr hcongr
  · rw [hblocks]
    by_cases hkk : k' = k
    · subst hkk
      rw [if_pos rfl, List.map_cons, List.reverse_cons]
      have hold := h.prev k'
      rw [← List.append_nil (List.reverse _)] at hold
      have hnd := List.nodup_reverse.mpr (h.nodup k')
      rw [← List.append_nil (List.reverse _)] at hnd
      refine Chain.Segment.insert hold hnd ?_ (fun w hw => ?_) (fun w hw hne => ?_) ?_
      · rw [freeBlock, prevFree_eq, hmem, hprev, link, if_pos rfl]
        rfl
      · rw [List.getLast?_reverse, ← hfirst, link] at hw
        split_ifs at hw
        obtain rfl := Option.some.inj hw
        rw [prevFree_eq, hmem, hback, link, if_neg hxcontrol]
        rfl
      · rw [List.append_nil, List.mem_reverse] at hw
        obtain ⟨y, hy, rfl, -⟩ := haddr k' w hw
        rw [List.getLast?_reverse] at hne
        rw [prevFree_eq, prevFree_eq, hmem, (hword y hy).2 fun hyz => hne (hzhead y hy hyz)]
      · rw [List.getLast?_reverse, List.getLast?_cons]
        cases (c.blocks k'.1 k'.2).map FreeBlock.addr with
        | nil => rfl
        | cons b l =>
            rw [List.head?_cons, if_neg (by simp), List.getLast?_cons]
            rfl
    · rw [if_neg hkk]
      apply (h.prev k').congr
      intro b hb
      obtain ⟨y, hy, rfl, hyk⟩ := haddr k' b (List.mem_reverse.mp hb)
      rw [prevFree_eq, prevFree_eq, hmem, (hword y hy).2 fun hyz => hkk ?_]
      -- a block that is on both lists has both indices
      obtain ⟨y', hy', heq, hyk'⟩ := haddr k _ (List.mem_of_head? (hzhead y hy hyz))
      obtain rfl := hF.freeBlock_inj (hsub hy) (hsub hy') heq
      obtain ⟨_, -, -, hm⟩ := (h.mem_blocks k' _).mp hyk
      obtain ⟨_, -, -, hm'⟩ := (h.mem_blocks k _).mp hyk'
      exact hm.symm.trans hm'

/-- Where the pointers of the lists go. -/
theorem Nodes.pointer (hF : Nodes control F) {z : ℕ} (hz : z = control.toNat ∨ ∃ y ∈ F, z = y.1) :
    8 ∣ z ∧ z ≠ 0 ∧ z + 32 ≤ 2 ^ 64 := by
  rcases hz with rfl | ⟨y, hy, rfl⟩
  · exact ⟨hF.control_dvd, hF.control_pos, hF.control_le⟩
  · have hpos := hF.pos y hy
    have hle := hF.le y hy
    have hmin := hF.min y hy
    exact ⟨(hF.dvd y hy).1, by omega, by omega⟩

/-- An assertion that holds is passed. -/
theorem tlsfAssert_bind {α : Type} {p : Prop} [Decidable p] (hp : p) (f : Unit → Option α) :
    (tlsfAssert p >>= f) = f () := by
  rw [tlsfAssert, if_pos hp]
  rfl

/-- An index within the table is passed. -/
theorem checkIndex_bind {α : Type} {fl : ℕ} (hfl : fl < flIndexCount) (f : Unit → Option α) :
    (checkIndex fl >>= f) = f () := by
  rw [checkIndex, if_pos hfl]
  rfl

/-- `block_insert`. -/
theorem FreeLists.blockInsert (h : FreeLists control m c F) (hF : Nodes control (insert x F))
    (hx : x ∉ F) (hsize : m.blockSize (BitVec.ofNat 64 x.1) = BitVec.ofNat 64 x.2) :
    ∃ m', m.blockInsert control (BitVec.ofNat 64 x.1) = some m' ∧
      FreeLists control m' (c.blockInsert (freeBlock x)) (insert x F) ∧
      Stores (linkWords control (insert x F)) m.mem m'.mem := by
  have hxi : x ∈ insert x F := Set.mem_insert x F
  have hlt := hF.lt x hxi
  have hle := hF.le x hxi
  have hpos := hF.pos x hxi
  have hmin := hF.min x hxi
  obtain ⟨hdvd, -⟩ := hF.dvd x hxi
  set k := mappingInsert (BitVec.ofNat 64 x.2) with hk
  have hfl : k.1 < flIndexCount := by
    apply mappingInsert_fst_lt
    rwa [BitVec.toNat_ofNat, Nat.mod_eq_of_lt (by omega)]
  obtain ⟨z, hhead, hz⟩ := exists_of_link (F := F) (w := m.blocks k.1 k.2) fun b hb => by
    rw [(h.next k).head] at hb
    obtain ⟨y, hy, heq, -⟩ := h.mem_addr (List.mem_of_head? hb)
    exact ⟨y, hy, heq⟩
  obtain ⟨hzdvd, hzpos, hzle⟩ := hF.pointer (hz.imp_right fun ⟨y, hy, heq⟩ => ⟨y, .inr hy, heq⟩)
  have hcur : (BitVec.ofNat 64 z : Addr) ≠ 0 := fun heq =>
    hzpos ((ofNat_inj (by omega) (by decide)).mp heq)
  have hblock : (BitVec.ofNat 64 x.1 : Addr) ≠ 0 := fun heq => by
    have hzero : x.1 = 0 := (ofNat_inj (by omega) (by decide)).mp heq
    omega
  have halign : blockToPtr (BitVec.ofNat 64 x.1) =
    Tlsf.alignUp (blockToPtr (BitVec.ofNat 64 x.1)) := by
    rw [blockToPtr_eq, alignUp_eq_self (by omega) (by omega)]
  have hzx : z + 24 ≠ x.1 + 16 ∧ z + 24 ≠ x.1 + 24 := by
    rcases hz with rfl | ⟨y, hy, rfl⟩
    · have := hF.control x hxi
      omega
    · have := hF.apart y (.inr hy) x hxi fun heq => hx (heq ▸ hy)
      have hminy := hF.min y (.inr hy)
      omega
  -- the three stores
  set m₁ := m.setWord (BitVec.ofNat 64 (x.1 + 16)) (BitVec.ofNat 64 z) with hm₁
  set m₂ := m₁.setWord (BitVec.ofNat 64 (x.1 + 24)) control with hm₂
  set m₃ := m₂.setWord (BitVec.ofNat 64 (z + 24)) (BitVec.ofNat 64 x.1) with hm₃
  have hcall : m.blockInsert control (BitVec.ofNat 64 x.1) =
      some (({ m₃.setHead k (BitVec.ofNat 64 x.1) with
        flBitmap := m.flBitmap ||| BitVec.twoPow 32 k.1 } : TlsfMem).setSlBitmap k.1
          (m.slBitmap k.1 ||| BitVec.twoPow 32 k.2)) := by
    rw [TlsfMem.blockInsert, hsize, ← hk, insertFreeBlock, checkIndex_bind hfl, hhead]
    simp only [setNextFree_eq, setPrevFree_eq]
    rw [tlsfAssert_bind hcur, tlsfAssert_bind hblock, tlsfAssert_bind halign]
    rfl
  have hstores : Stores {x.1 + 16, x.1 + 24, z + 24} m.mem m₃.mem := by
    have hcontrol : control ∈ headerWords := by
      rw [headerWords, Set.mem_ofPred_eq, Nat.mod_eq_zero_of_dvd hF.control_dvd]
      decide
    have h₁ := stores_setWord m (x := x.1 + 16) (by omega) (by omega) (ofNat_mem_headerWords hzdvd)
    have h₂ := stores_setWord m₁ (x := x.1 + 24) (by omega) (by omega) hcontrol
    have h₃ := stores_setWord m₂ (x := z + 24) (by omega) (by omega) (ofNat_mem_headerWords hdvd)
    apply ((h₁.trans h₂).trans h₃).mono
    rintro w ((hw | hw) | hw)
    · exact .inl hw
    · exact .inr (.inl hw)
    · exact .inr (.inr hw)
  refine ⟨_, hcall, h.insert_links hF hx hhead hz hk.symm hstores.agree ?_ ?_ ?_ rfl rfl rfl rfl,
    ?_⟩
  · rw [hm₃, wordAt_setWord_of_ne _ _ (by omega) (by omega) (by omega) (by omega) hzx.1.symm, hm₂,
      wordAt_setWord_of_ne _ _ (by omega) (by omega) (by omega) (by omega) (by omega), hm₁,
      wordAt_setWord_self]
  · rw [hm₃, wordAt_setWord_of_ne _ _ (by omega) (by omega) (by omega) (by omega) hzx.2.symm, hm₂,
      wordAt_setWord_self]
  · rw [hm₃, wordAt_setWord_self]
  · apply hstores.mono
    rintro w (rfl | rfl | rfl)
    · exact ⟨x.1, .inr ⟨x, hxi, rfl⟩, .inl rfl⟩
    · exact ⟨x.1, .inr ⟨x, hxi, rfl⟩, .inr rfl⟩
    · exact ⟨z, hz.imp_right fun ⟨y, hy, heq⟩ => ⟨y, .inr hy, heq⟩, .inr rfl⟩

/-! ### A block is taken off its list

Its neighbours are linked to each other; if it was the head, the table of heads and the bitmaps
change as well. -/

/-- Removing takes the block from the list of its class. -/
theorem blocks_removeFree (c : Control) (b : FreeBlock) (k k' : Tlsf.Class) :
    (c.removeFree b k).blocks k'.1 k'.2 =
      if k' = k then (c.blocks k.1 k.2).erase b else c.blocks k'.1 k'.2 :=
  update_class c.blocks k k' _

/-- A block on a list, with the links of its header. -/
theorem FreeLists.exists_of_mem (h : FreeLists control m c F) (hx : x ∈ F)
    (hk : mappingInsert (BitVec.ofNat 64 x.2) = k) : ∃ (A₁ A₂ : List Addr) (zp zn : ℕ),
    (c.blocks k.1 k.2).map FreeBlock.addr = A₁ ++ BitVec.ofNat 64 x.1 :: A₂ ∧
      ((c.blocks k.1 k.2).erase (freeBlock x)).map FreeBlock.addr = A₁ ++ A₂ ∧
      wordAt m.mem (x.1 + 24) = BitVec.ofNat 64 zp ∧ wordAt m.mem (x.1 + 16) = BitVec.ofNat 64 zn ∧
      link control (BitVec.ofNat 64 zp) = A₁.getLast? ∧
        link control (BitVec.ofNat 64 zn) = A₂.head? ∧
      (zp = control.toNat ∨ ∃ y ∈ F, zp = y.1) ∧ (zn = control.toNat ∨ ∃ y ∈ F, zn = y.1) := by
  have hmem : freeBlock x ∈ c.blocks k.1 k.2 := (h.mem_blocks k _).mpr ⟨x, hx, rfl, hk⟩
  obtain ⟨l₁, l₂, hl⟩ := List.append_of_mem hmem
  have hnd := h.nodup k
  have hnot : freeBlock x ∉ l₁ := by
    have hnd' := hnd.of_map
    rw [hl] at hnd'
    intro hin
    exact (List.nodup_append'.mp hnd').2.2 hin List.mem_cons_self
  -- the list of its class, split at the block
  have hA : (c.blocks k.1 k.2).map FreeBlock.addr =
      l₁.map FreeBlock.addr ++ BitVec.ofNat 64 x.1 :: l₂.map FreeBlock.addr := by
    rw [hl, List.map_append, List.map_cons]
    rfl
  have hnext := h.next k
  have hprev := h.prev k
  rw [hA] at hnext hprev
  rw [List.reverse_append, List.reverse_cons, List.append_assoc, List.singleton_append] at hprev
  -- so its links lead to what is behind it and in front of it
  obtain ⟨_, -, rfl, hright⟩ := segment_append.mp hnext
  obtain ⟨_, -, rfl, hleft⟩ := segment_append.mp hprev
  have hn : link control (m.nextFree (BitVec.ofNat 64 x.1)) = _ := hright.head
  have hp : link control (m.prevFree (BitVec.ofNat 64 x.1)) = _ := hleft.head
  rw [nextFree_eq] at hn
  rw [prevFree_eq, List.head?_reverse] at hp
  have haddr : ∀ b ∈ (c.blocks k.1 k.2).map FreeBlock.addr, ∃ y ∈ F, b = BitVec.ofNat 64 y.1 :=
    fun b hb => by
      obtain ⟨y, hy, heq, -⟩ := h.mem_addr hb
      exact ⟨y, hy, heq⟩
  rw [hA] at haddr
  obtain ⟨zn, hzn, hzn'⟩ := exists_of_link (F := F) (w := wordAt m.mem (x.1 + 16)) fun b hb => by
    rw [hn] at hb
    exact haddr b (List.mem_append_right _ (List.mem_cons_of_mem _ (List.mem_of_head? hb)))
  obtain ⟨zp, hzp, hzp'⟩ := exists_of_link (F := F) (w := wordAt m.mem (x.1 + 24)) fun b hb => by
    rw [hp] at hb
    exact haddr b (List.mem_append_left _ (List.mem_of_getLast? hb))
  refine ⟨_, _, zp, zn, hA, ?_, hzp, hzn, hzp ▸ hp, hzn ▸ hn, hzp', hzn'⟩
  rw [hl, List.erase_append_right _ hnot, List.erase_cons_head, List.map_append]

/-- The links of `remove_free_block`. -/
theorem FreeLists.remove_links (h : FreeLists control m c F) (hF : Nodes control F) (hx : x ∈ F)
    {A₁ A₂ : List Addr} {zp zn : ℕ} {mem' : Addr → BitVec 8}
    (hk : mappingInsert (BitVec.ofNat 64 x.2) = k)
    (hA : (c.blocks k.1 k.2).map FreeBlock.addr = A₁ ++ BitVec.ofNat 64 x.1 :: A₂)
    (herase : ((c.blocks k.1 k.2).erase (freeBlock x)).map FreeBlock.addr = A₁ ++ A₂)
    (hxn : wordAt m.mem (x.1 + 16) = BitVec.ofNat 64 zn)
    (hxp : wordAt m.mem (x.1 + 24) = BitVec.ofNat 64 zp)
    (hp : link control (BitVec.ofNat 64 zp) = A₁.getLast?)
    (hn : link control (BitVec.ofNat 64 zn) = A₂.head?)
    (hzp : zp = control.toNat ∨ ∃ y ∈ F, zp = y.1) (hzn : zn = control.toNat ∨ ∃ y ∈ F, zn = y.1)
    (hagree : Agree {zn + 24, zp + 16} m.mem mem')
    (hback : wordAt mem' (zn + 24) = BitVec.ofNat 64 zp)
    (hforth : wordAt mem' (zp + 16) = BitVec.ofNat 64 zn)
    (hfl : m'.flBitmap = (c.removeFree (freeBlock x) k).flBitmap)
    (hsl : m'.slBitmap = (c.removeFree (freeBlock x) k).slBitmap)
    (hheads : ∀ k' : Tlsf.Class, m'.blocks k'.1 k'.2 = if k' = k ∧ A₁ = [] then BitVec.ofNat 64 zn
      else m.blocks k'.1 k'.2) (hmem : m'.mem = mem') :
    FreeLists control m' (c.removeFree (freeBlock x) k) (F \ {x}) := by
  have hsub : F \ {x} ⊆ F := Set.sdiff_subset
  have hblocks := fun k' => blocks_removeFree c (freeBlock x) k k'
  -- the words of the other blocks
  have hptr : ∀ {z : ℕ}, (z = control.toNat ∨ ∃ y ∈ F, z = y.1) → ∀ y ∈ F,
      z + 24 ≠ y.1 + 16 ∧ z + 16 ≠ y.1 + 24 := by
    intro z hz y hy
    have hminy := hF.min y hy
    rcases hz with rfl | ⟨y', hy', rfl⟩
    · have := hF.control y hy
      omega
    · have hminy' := hF.min y' hy'
      by_cases heq : y = y'
      · subst heq
        omega
      · have := hF.apart y hy y' hy' heq
        omega
  have hword : ∀ y ∈ F, (y.1 ≠ zp → wordAt mem' (y.1 + 16) = wordAt m.mem (y.1 + 16)) ∧
      (y.1 ≠ zn → wordAt mem' (y.1 + 24) = wordAt m.mem (y.1 + 24)) := by
    intro y hy
    have hle := hF.le y hy
    have hmin := hF.min y hy
    obtain ⟨hdvd, -⟩ := hF.dvd y hy
    refine ⟨fun hne => hagree _ (by omega) (by omega) ?_,
      fun hne => hagree _ (by omega) (by omega) ?_⟩
    · rintro (heq | heq)
      · exact (hptr hzn y hy).1 heq.symm
      · have := Set.mem_singleton_iff.mp heq
        omega
    · rintro (heq | heq)
      · omega
      · exact (hptr hzp y hy).2 (Set.mem_singleton_iff.mp heq).symm
  have hcontrol : ∀ y ∈ F, (BitVec.ofNat 64 y.1 : Addr) ≠ control := by
    intro y hy heq
    have hc := hF.control y hy
    have hle := hF.le y hy
    rw [← heq, BitVec.toNat_ofNat, Nat.mod_eq_of_lt (by omega)] at hc
    omega
  have hlinked : ∀ y ∈ F, link control (BitVec.ofNat 64 y.1) = some (BitVec.ofNat 64 y.1) :=
    fun y hy => by
    rw [link, if_neg (hcontrol y hy)]
  -- the neighbours are on the same list
  have hsame : ∀ {k' : Tlsf.Class} {y : ℕ × ℕ}, y ∈ F →
    BitVec.ofNat 64 y.1 ∈ (c.blocks k'.1 k'.2).map FreeBlock.addr →
      mappingInsert (BitVec.ofNat 64 y.2) = k' := by
    intro k' y hy hb
    obtain ⟨y', hy', heq, hin⟩ := h.mem_addr hb
    obtain rfl := hF.freeBlock_inj hy hy' heq
    obtain ⟨_, -, -, hm⟩ := (h.mem_blocks k' _).mp hin
    exact hm
  have hpmem : ∀ y ∈ F, y.1 = zp → A₁.getLast? = some (BitVec.ofNat 64 y.1) := by
    rintro y hy rfl
    rw [← hp, hlinked y hy]
  have hnmem : ∀ y ∈ F, y.1 = zn → A₂.head? = some (BitVec.ofNat 64 y.1) := by
    rintro y hy rfl
    rw [← hn, hlinked y hy]
  have hnext := h.next k
  have hprev := h.prev k
  have hnodup := h.nodup k
  rw [hA] at hnext hprev hnodup
  have haddr : ∀ b ∈ A₁ ++ A₂, ∃ y ∈ F, b = BitVec.ofNat 64 y.1 := by
    intro b hb
    obtain ⟨y, hy, heq, -⟩ := h.mem_addr (k := k) (b := b) (by
      rw [hA, List.mem_append, List.mem_cons]
      rcases List.mem_append.mp hb with hb | hb
      · exact .inl hb
      · exact .inr (.inr hb))
    exact ⟨y, hy, heq⟩
  -- blocks of other lists are not neighbours
  have hother : ∀ {k' : Tlsf.Class}, k' ≠ k → ∀ b ∈ (c.blocks k'.1 k'.2).map FreeBlock.addr,
      ∃ y ∈ F, b = BitVec.ofNat 64 y.1 ∧ y.1 ≠ zp ∧ y.1 ≠ zn := by
    intro k' hkk b hb
    obtain ⟨y, hy, rfl, -⟩ := h.mem_addr hb
    refine ⟨y, hy, rfl, fun heq => hkk ((hsame hy hb).symm.trans (hsame hy ?_)),
      fun heq => hkk ((hsame hy hb).symm.trans (hsame hy ?_))⟩
    · rw [hA]
      exact List.mem_append_left _ (List.mem_of_getLast? (hpmem y hy heq))
    · rw [hA]
      exact List.mem_append_right _ (List.mem_cons_of_mem _ (List.mem_of_head? (hnmem y hy heq)))
  refine ⟨hfl, hsl, fun k' b => ?_, fun k' => ?_, fun k' => ?_, fun k' => ?_⟩
  · rw [hblocks]
    by_cases hkk : k' = k
    · subst hkk
      rw [if_pos rfl, (h.nodup k').of_map.mem_erase_iff, h.mem_blocks]
      constructor
      · rintro ⟨hne, y, hy, rfl, hm⟩
        exact ⟨y, ⟨hy, fun heq => hne (congrArg freeBlock heq)⟩, rfl, hm⟩
      · rintro ⟨y, ⟨hy, hyx⟩, rfl, hm⟩
        exact ⟨fun heq => hyx (hF.freeBlock_inj hy hx (congrArg FreeBlock.addr heq)), y, hy, rfl,
          hm⟩
    · rw [if_neg hkk, h.mem_blocks]
      constructor
      · rintro ⟨y, hy, rfl, hm⟩
        refine ⟨y, ⟨hy, ?_⟩, rfl, hm⟩
        rintro rfl
        exact hkk (hm.symm.trans hk)
      · rintro ⟨y, hy, rfl, hm⟩
        exact ⟨y, hsub hy, rfl, hm⟩
  · rw [hblocks]
    by_cases hkk : k' = k
    · rw [if_pos hkk, herase]
      exact hnodup.sublist ((List.sublist_cons_self _ _).append_left _)
    · rw [if_neg hkk]
      exact h.nodup k'
  · rw [hblocks, hheads]
    by_cases hkk : k' = k
    · subst hkk
      rw [if_pos rfl, herase]
      refine Chain.Segment.erase hnext hnodup (fun w hw => ?_) (fun w hw hne => ?_) ?_
      · rw [← hp, link] at hw
        split_ifs at hw
        obtain rfl := Option.some.inj hw
        rw [nextFree_eq, nextFree_eq, hmem, hforth, hxn]
      · obtain ⟨y, hy, rfl⟩ := haddr w hw
        rw [nextFree_eq, nextFree_eq, hmem, (hword y hy).1 fun heq => hne (hpmem y hy heq)]
      · by_cases hnil : A₁ = []
        · rw [if_pos ⟨rfl, hnil⟩, if_pos (by rw [hnil]; rfl), nextFree_eq, hxn]
        · rw [if_neg fun hand => hnil hand.2, if_neg (by simpa using hnil)]
    · rw [if_neg hkk, if_neg fun hand => hkk hand.1]
      apply (h.next k').congr
      intro b hb
      obtain ⟨y, hy, rfl, hyp, -⟩ := hother hkk b hb
      rw [nextFree_eq, nextFree_eq, hmem, (hword y hy).1 hyp]
  · rw [hblocks]
    by_cases hkk : k' = k
    · subst hkk
      rw [if_pos rfl, herase, List.reverse_append]
      have hnodup' := List.nodup_reverse.mpr hnodup
      rw [List.reverse_append, List.reverse_cons, List.append_assoc,
        List.singleton_append] at hprev hnodup'
      refine Chain.Segment.erase hprev hnodup' (fun w hw => ?_) (fun w hw hne => ?_) ?_
      · rw [List.getLast?_reverse, ← hn, link] at hw
        split_ifs at hw
        obtain rfl := Option.some.inj hw
        rw [prevFree_eq, prevFree_eq, hmem, hback, hxp]
      · rw [← List.reverse_append, List.mem_reverse] at hw
        rw [List.getLast?_reverse] at hne
        obtain ⟨y, hy, rfl⟩ := haddr w hw
        rw [prevFree_eq, prevFree_eq, hmem, (hword y hy).2 fun heq => hne (hnmem y hy heq)]
      · rw [List.getLast?_reverse, List.getLast?_append, List.getLast?_append]
        cases A₂ with
        | nil =>
            rw [List.head?_nil, if_pos rfl, prevFree_eq, hxp, hp, List.getLast?_nil, Option.none_or]
        | cons b l =>
            rw [List.head?_cons, if_neg (by simp), List.getLast?_cons_cons]
    · rw [if_neg hkk]
      apply (h.prev k').congr
      intro b hb
      obtain ⟨y, hy, rfl, -, hyn⟩ := hother hkk b (List.mem_reverse.mp hb)
      rw [prevFree_eq, prevFree_eq, hmem, (hword y hy).2 hyn]

/-- `remove_free_block`. -/
theorem FreeLists.removeFreeBlock (h : FreeLists control m c F) (hF : Nodes control F) (hx : x ∈ F)
    (hk : mappingInsert (BitVec.ofNat 64 x.2) = k) :
    ∃ m', m.removeFreeBlock control (BitVec.ofNat 64 x.1) k = some m' ∧
      FreeLists control m' (c.removeFree (freeBlock x) k) (F \ {x}) ∧
      Stores (linkWords control F) m.mem m'.mem := by
  obtain ⟨A₁, A₂, zp, zn, hA, herase, hxp, hxn, hp, hn, hzp, hzn⟩ := h.exists_of_mem hx hk
  obtain ⟨hpdvd, hppos, hple⟩ := hF.pointer hzp
  obtain ⟨hndvd, hnpos, hnle⟩ := hF.pointer hzn
  have hne : zn + 24 ≠ zp + 16 := by
    rcases hzn with rfl | ⟨y, hy, rfl⟩ <;> rcases hzp with rfl | ⟨y', hy', rfl⟩
    · omega
    · have := hF.control y' hy'
      have := hF.min y' hy'
      omega
    · have := hF.control y hy
      have := hF.min y hy
      omega
    · have := hF.min y hy
      have := hF.min y' hy'
      by_cases heq : y = y'
      · subst heq
        omega
      · have := hF.apart y hy y' hy' heq
        omega
  have hfl : k.1 < flIndexCount := by
    have hlt := hF.lt x hx
    rw [← hk]
    apply mappingInsert_fst_lt
    rwa [BitVec.toNat_ofNat, Nat.mod_eq_of_lt (by omega)]
  have hpne : (BitVec.ofNat 64 zp : Addr) ≠ 0 := fun heq =>
    hppos ((ofNat_inj (by omega) (by decide)).mp heq)
  have hnne : (BitVec.ofNat 64 zn : Addr) ≠ 0 := fun heq =>
    hnpos ((ofNat_inj (by omega) (by decide)).mp heq)
  -- the two stores
  set m₁ := m.setWord (BitVec.ofNat 64 (zn + 24)) (BitVec.ofNat 64 zp) with hm₁
  set m₂ := m₁.setWord (BitVec.ofNat 64 (zp + 16)) (BitVec.ofNat 64 zn) with hm₂
  have hstores : Stores {zn + 24, zp + 16} m.mem m₂.mem := by
    have h₁ := stores_setWord m (x := zn + 24) (by omega) (by omega) (ofNat_mem_headerWords hpdvd)
    have h₂ := stores_setWord m₁ (x := zp + 16) (by omega) (by omega) (ofNat_mem_headerWords hndvd)
    apply (h₁.trans h₂).mono
    rintro w (hw | hw)
    · exact .inl hw
    · exact .inr hw
  have hback : wordAt m₂.mem (zn + 24) = BitVec.ofNat 64 zp := by
    rw [hm₂, wordAt_setWord_of_ne _ _ (by omega) (by omega) (by omega) (by omega) hne, hm₁,
      wordAt_setWord_self]
  have hforth : wordAt m₂.mem (zp + 16) = BitVec.ofNat 64 zn := by
    rw [hm₂, wordAt_setWord_self]
  have hlinks : Stores (linkWords control F) m.mem m₂.mem := by
    apply hstores.mono
    rintro w (rfl | rfl)
    · exact ⟨zn, hzn, .inr rfl⟩
    · exact ⟨zp, hzp, .inl rfl⟩
  have hxcontrol : (BitVec.ofNat 64 x.1 : Addr) ≠ control := by
    intro heq
    have hc := hF.control x hx
    have hle := hF.le x hx
    rw [← heq, BitVec.toNat_ofNat, Nat.mod_eq_of_lt (by omega)] at hc
    omega
  have hfirst : m.blocks k.1 k.2 = BitVec.ofNat 64 x.1 ↔ A₁ = [] := by
    have hhead := (h.next k).head
    have hnodup := h.nodup k
    rw [hA] at hhead hnodup
    constructor
    · intro heq
      rw [heq, link, if_neg hxcontrol] at hhead
      cases A₁ with
      | nil => rfl
      | cons b l =>
          obtain rfl := Option.some.inj hhead
          exact absurd (List.mem_append_right l List.mem_cons_self) (List.nodup_cons.mp hnodup).1
    · rintro rfl
      rw [List.nil_append, List.head?_cons, link] at hhead
      split_ifs at hhead
      exact Option.some.inj hhead
  have hlast : (BitVec.ofNat 64 zn : Addr) = control ↔ A₂ = [] := by
    rw [← List.head?_eq_none_iff, ← hn, link]
    by_cases heq : BitVec.ofNat 64 zn = control
    · rw [if_pos heq]
      exact iff_of_true heq rfl
    · rw [if_neg heq]
      exact iff_of_false heq (by simp)
  have hnil : (c.blocks k.1 k.2).erase (freeBlock x) = [] ↔ A₁ = [] ∧ A₂ = [] := by
    rw [← List.append_eq_nil_iff, ← herase, List.map_eq_nil_iff]
  have hcall : m.removeFreeBlock control (BitVec.ofNat 64 x.1) k =
      if A₁ = [] then
        if A₂ = [] then
          if m.slBitmap k.1 &&& ~~~BitVec.twoPow 32 k.2 = 0 then
            some { (m₂.setHead k (BitVec.ofNat 64 zn)).setSlBitmap k.1
              (m.slBitmap k.1 &&& ~~~BitVec.twoPow 32 k.2) with
              flBitmap := m.flBitmap &&& ~~~BitVec.twoPow 32 k.1 }
          else some ((m₂.setHead k (BitVec.ofNat 64 zn)).setSlBitmap k.1
            (m.slBitmap k.1 &&& ~~~BitVec.twoPow 32 k.2))
        else some (m₂.setHead k (BitVec.ofNat 64 zn))
      else some m₂ := by
    rw [TlsfMem.removeFreeBlock, prevFree_eq, nextFree_eq, hxp, hxn, tlsfAssert_bind hpne,
      tlsfAssert_bind hnne]
    simp only [setNextFree_eq, setPrevFree_eq, checkIndex_bind hfl, ← hm₁, ← hm₂]
    have hheads : m₂.blocks k.1 k.2 = m.blocks k.1 k.2 := rfl
    rw [hheads]
    by_cases h₁ : A₁ = []
    · rw [if_pos h₁, if_pos (hfirst.mpr h₁)]
      by_cases h₂ : A₂ = []
      · rw [if_pos h₂, if_pos (hlast.mpr h₂)]
        simp only [setSlBitmap, setHead, Function.update_self]
        rfl
      · rw [if_neg h₂, if_neg (mt hlast.mp h₂)]
    · rw [if_neg h₁, if_neg (mt hfirst.mp h₁)]
  have hheads : ∀ {m' : TlsfMem}, m'.blocks =
    (if A₁ = [] then m.setHead k (BitVec.ofNat 64 zn) else m).blocks →
      ∀ k' : Tlsf.Class, m'.blocks k'.1 k'.2 = if k' = k ∧ A₁ = [] then BitVec.ofNat 64 zn
        else m.blocks k'.1 k'.2 := by
    intro m' hm' k'
    rw [hm']
    by_cases h₁ : A₁ = []
    · rw [if_pos h₁, blocks_setHead]
      simp [h₁]
    · rw [if_neg h₁, if_neg fun hand => h₁ hand.2]
  have hdone : ∀ {m' : TlsfMem}, m'.flBitmap = (c.removeFree (freeBlock x) k).flBitmap →
      m'.slBitmap = (c.removeFree (freeBlock x) k).slBitmap →
      m'.blocks = (if A₁ = [] then m.setHead k (BitVec.ofNat 64 zn) else m).blocks →
        m'.mem = m₂.mem →
      FreeLists control m' (c.removeFree (freeBlock x) k) (F \ {x}) ∧
        Stores (linkWords control F) m.mem m'.mem := by
    intro m' hfl' hsl' hbl' hmem
    refine ⟨h.remove_links hF hx hk hA herase hxn hxp hp hn hzp hzn hstores.agree hback hforth hfl'
      hsl' (hheads hbl') hmem, ?_⟩
    rw [hmem]
    exact hlinks
  have hflc : (c.removeFree (freeBlock x) k).flBitmap =
      if (A₁ = [] ∧ A₂ = []) ∧ m.slBitmap k.1 &&& ~~~BitVec.twoPow 32 k.2 = 0 then
        m.flBitmap &&& ~~~BitVec.twoPow 32 k.1 else m.flBitmap := by
    rw [h.flBitmap, h.slBitmap]
    exact if_congr (and_congr_left' hnil) rfl rfl
  have hslc : (c.removeFree (freeBlock x) k).slBitmap = Function.update m.slBitmap k.1
      (if A₁ = [] ∧ A₂ = [] then m.slBitmap k.1 &&& ~~~BitVec.twoPow 32 k.2
        else m.slBitmap k.1) := by
    rw [h.slBitmap]
    exact congrArg (Function.update c.slBitmap k.1) (if_congr hnil rfl rfl)
  rw [hcall]
  by_cases h₁ : A₁ = []
  · rw [if_pos h₁] at hdone ⊢
    by_cases h₂ : A₂ = []
    · rw [if_pos ⟨h₁, h₂⟩] at hslc
      rw [if_pos h₂]
      by_cases hzero : m.slBitmap k.1 &&& ~~~BitVec.twoPow 32 k.2 = 0
      · rw [if_pos ⟨⟨h₁, h₂⟩, hzero⟩] at hflc
        rw [if_pos hzero]
        exact ⟨_, rfl, hdone hflc.symm hslc.symm rfl rfl⟩
      · rw [if_neg fun hand => hzero hand.2] at hflc
        rw [if_neg hzero]
        exact ⟨_, rfl, hdone hflc.symm hslc.symm rfl rfl⟩
    · rw [if_neg fun hand => h₂ hand.2, Function.update_eq_self] at hslc
      rw [if_neg fun hand => h₂ hand.1.2] at hflc
      rw [if_neg h₂]
      exact ⟨_, rfl, hdone hflc.symm hslc.symm rfl rfl⟩
  · rw [if_neg fun hand => h₁ hand.1, Function.update_eq_self] at hslc
    rw [if_neg fun hand => h₁ hand.1.1] at hflc
    rw [if_neg h₁] at hdone ⊢
    exact ⟨_, rfl, hdone hflc.symm hslc.symm rfl rfl⟩

end TlsfMem

end Koharu
