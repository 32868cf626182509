import Koharu.Mm.TlsfSearch

/-!
# The calls of the heap

`tlsf_malloc` and `tlsf_free` in memory. In between the calls every free block is on its list
(`Good`). Within a call there is at times one that is on none (`Open`), and each of the functions
that the calls are made of takes one such state to the next.

The words that a call may write to are those of the heap that are in no block in use (`Spare`), so
that the contents of the blocks in use stay. Steps that join and split free blocks leave this set as
it is (`Alike.spare`), and what they write to can be put together for the whole call.

* `blocksOf`: the blocks that are free, or in use;
* `Good.remove`, `Open.trimFree`, `Open.markAsUsed`: the parts of `tlsf_malloc`;
* `Good.markAsFree`, `Open.mergePrev`, `Open.mergeNext`, `Open.insert`: those of `tlsf_free`;
* `Good.tlsfMalloc`, `Good.tlsfFree`: the calls.
-/

namespace Koharu

open Tlsf WordMemory Tiling

namespace TlsfMem

/-! ### Blocks that are free, and blocks in use

The two sets of blocks that a client cares about, and how they change when tiles in a place are
exchanged. -/

/-- The blocks that are free, or in use. A pool ends with a block in use that has no bytes. -/
def blocksOf (f : Bool) (pools : List Pool) : Set (ℕ × ℕ) :=
  {x | ∃ p, (⟨x.1, x.2, f, p⟩ : Header) ∈ headers 8 pools}

/-- Those that are not in the place, which ends at `n`. -/
def others (C : Ctx) (n : ℕ) (f : Bool) : Set (ℕ × ℕ) :=
  {x | ∃ p, C.Outer 8 n ⟨x.1, x.2, f, p⟩ ∨ (⟨x.1, x.2, f, p⟩ : Header) = C.next n p}

variable {control : Addr} {m m' : TlsfMem} {c : Control} {F : Set (ℕ × ℕ)}
  {pools pools' : List Pool} {C : Ctx} {ts ts' : List Tile} {x y : ℕ × ℕ} {s S n : ℕ} {f g p : Bool}
  {k : Tlsf.Class} {size : Size}

/-- The blocks of a pool are those around a place and those filled in there. -/
theorem blocksOf_fill (ts : List Tile) (hn : C.addr 8 + width 8 ts = n) : blocksOf f (C.fill ts) =
    others C n f ∪ {x | ∃ e ∈ place 8 (C.addr 8) C.prevFree ts, e.free = f ∧
      x = (e.addr, e.size)} := by
  subst hn
  ext x
  constructor
  · rintro ⟨p, hp⟩
    -- a header outside, one of the tiles, or the one behind them
    rcases Ctx.mem_fill.mp hp with hout | hin | heq
    · exact .inl ⟨p, .inl hout⟩
    · exact .inr ⟨_, hin, rfl, rfl⟩
    · obtain rfl : p = lastFree C.prevFree ts := congrArg Header.prevFree heq
      exact .inl ⟨_, .inr heq⟩
  · rintro (⟨p, hout | heq⟩ | ⟨e, he, rfl, rfl⟩)
    · exact ⟨p, Ctx.mem_fill.mpr (.inl hout)⟩
    · refine ⟨lastFree C.prevFree ts, Ctx.mem_fill.mpr (.inr (.inr ?_))⟩
      rw [Ctx.next, first, Header.mk.injEq] at heq ⊢
      exact ⟨heq.1, heq.2.1, heq.2.2.1, rfl⟩
    · exact ⟨e.prevFree, Ctx.mem_fill.mpr (.inr (.inl he))⟩

/-- The blocks around a place do not reach into it. -/
theorem Layout.outside_of_others (h : Layout control (C.fill ts))
    (hx : x ∈ others C (C.addr 8 + width 8 ts) f) :
    x.1 + 8 + x.2 ≤ C.addr 8 ∨ C.addr 8 + width 8 ts ≤ x.1 := by
  obtain ⟨p, hout | heq⟩ := hx
  · have := Ctx.outer_apart false h.apart hout
    simp only at this
    omega
  · exact .inr (congrArg Header.addr heq).ge

/-- Changing the flag of the block in a place adds it to the blocks with that flag. -/
theorem blocksOf_insert (C : Ctx) (s : ℕ) (f : Bool) :
    blocksOf f (C.fill [⟨s, f⟩]) = insert (C.addr 8, s) (blocksOf f (C.fill [⟨s, !f⟩])) := by
  rw [blocksOf_fill [⟨s, f⟩] rfl, blocksOf_fill [⟨s, !f⟩] rfl]
  ext x
  simp [place, width]

/-- Before, it was not one of them. -/
theorem Layout.notMem_blocksOf (h : Layout control (C.fill [⟨s, g⟩])) (f : Bool) :
    (C.addr 8, s) ∉ blocksOf f (C.fill [⟨s, !f⟩]) := by
  rw [blocksOf_fill [⟨s, !f⟩] rfl]
  rintro (hx | ⟨e, he, hfree, -⟩)
  · have hout := h.outside_of_others hx
    have hmin := h.tile_ok (List.mem_singleton.mpr rfl)
    simp only [width] at hout hmin
    omega
  · obtain rfl := List.mem_singleton.mp he
    cases f <;> cases hfree

/-- Filling a place with other tiles of the same width keeps the extents of the pool. -/
theorem extents_fill (hwidth : width 8 ts' = width 8 ts) :
    extents (C.fill ts') = extents (C.fill ts) := by
  have hstop : (⟨C.start, C.left ++ ts' ++ C.right⟩ : Pool).stop 8 =
      (⟨C.start, C.left ++ ts ++ C.right⟩ : Pool).stop 8 := by
    rw [Ctx.stop_middle, Ctx.stop_middle, hwidth]
  rw [extents, extents, Ctx.fill, Ctx.fill, List.map_append, List.map_append, List.map_cons,
    List.map_cons, hstop]

/-- The same blocks are in use, and the pools are where they were. -/
def Alike (pools pools' : List Pool) : Prop :=
  blocksOf false pools' = blocksOf false pools ∧ extents pools' = extents pools

/-- One block more is in use. -/
def Takes (pools pools' : List Pool) (x : ℕ × ℕ) : Prop :=
  x ∉ blocksOf false pools ∧ blocksOf false pools' = insert x (blocksOf false pools) ∧
    extents pools' = extents pools

/-- What no store within a block in use touches depends on these blocks only. -/
theorem spare_mono (h : blocksOf false pools' ⊆ blocksOf false pools)
    (hext : extents pools' = extents pools) : Spare control pools ⊆ Spare control pools' := by
  rintro w ⟨hin, hw⟩
  refine ⟨by rwa [HeapWords, hext], fun e he hused => ?_⟩
  obtain ⟨p, hp⟩ := h (a := (e.addr, e.size)) ⟨e.prevFree, by rw [← hused]; exact he⟩
  exact hw ⟨e.addr, e.size, false, p⟩ hp rfl

/-- The spare bytes depend on the extents only. -/
theorem Alike.spare (h : Alike pools pools') : Spare control pools' = Spare control pools :=
  (spare_mono h.1.ge h.2.symm).antisymm (spare_mono h.1.le h.2)

/-- The place may be joined with what is to the right of it. -/
theorem fill_right (C : Ctx) (r : List Tile) (hr : C.right = ts' ++ r) :
    C.fill ts = Ctx.fill { C with right := r } (ts ++ ts') := by
  rw [Ctx.fill, Ctx.fill, hr]
  simp

/-- And with what is to the left. -/
theorem fill_left (C : Ctx) (l : List Tile) (hl : C.left = l ++ ts') :
    C.fill ts = Ctx.fill { C with left := l } (ts' ++ ts) := by
  rw [Ctx.fill, Ctx.fill, hl]
  simp

/-- The first block in the place may be left out of it. -/
theorem fill_cons (C : Ctx) (t : Tile) (ts : List Tile) :
    C.fill (t :: ts) = Ctx.fill { C with left := C.left ++ [t] } ts := by
  rw [Ctx.fill, Ctx.fill]
  simp

/-- A place behind one more tile is further on by its width. -/
theorem addr_cons (C : Ctx) (t : Tile) :
    Ctx.addr { C with left := C.left ++ [t] } 8 = C.addr 8 + 8 + t.size := by
  rw [Ctx.addr, Ctx.addr, width_append]
  simp only [width]
  omega

/-! ### The state between the calls, and within one

Between calls every free block is on a list. Within a call one block is in hand, and it is free but
on no list. -/

/-- All free blocks are on their lists. -/
def Good (control : Addr) (m : TlsfMem) (c : Control) (pools : List Pool) : Prop :=
  Rep control m c pools (blocksOf true pools)

/-- All but the block in the place, which is free. -/
def Open (control : Addr) (m : TlsfMem) (c : Control) (C : Ctx) (s : ℕ) : Prop :=
  Rep control m c (C.fill [⟨s, true⟩]) (blocksOf true (C.fill [⟨s, false⟩]))

/-- The block in an open place is not one of the free ones. -/
theorem Open.notMem (h : Open control m c C s) :
    (C.addr 8, s) ∉ blocksOf true (C.fill [⟨s, false⟩]) :=
  h.layout.notMem_blocksOf true

/-- What is known of the sizes and addresses of a block and the one behind it. -/
theorem Layout.bounds (h : Layout control (C.fill [⟨s, f⟩])) :
    24 ≤ s ∧ 8 ∣ s ∧ s < 2 ^ 32 ∧ 8 ∣ C.addr 8 ∧ C.addr 8 + 8 + s + 16 ≤ 2 ^ 64 := by
  obtain ⟨hmin, hs⟩ := h.tile_ok (List.mem_singleton.mpr rfl)
  have hhead := h.headerOk Ctx.head_mem_fill
  have hle : C.addr 8 + 8 + s + 16 + _ ≤ 2 ^ 64 := h.next_ok.le
  exact ⟨hmin, hs, hhead.lt, hhead.addr_dvd, by omega⟩

/-- No block begins at the null pointer. -/
theorem Layout.addr_ne_zero (h : Layout control (C.fill [⟨s, f⟩])) :
    BitVec.ofNat 64 (C.addr 8) ≠ 0 := by
  obtain ⟨-, -, -, -, hend⟩ := h.bounds
  have hpos := (h.headerOk Ctx.head_mem_fill).addr_pos
  simp only at hpos
  exact ofNat_ne_zero (by omega) (by omega)

/-- A block in use is at no null pointer. -/
theorem Good.ptr_ne_zero (h : Good control m c pools) (hx : x ∈ blocksOf f pools)
    (hsize : x.2 ≠ 0) :
    BitVec.ofNat 64 (x.1 + 16) ≠ 0 := by
  obtain ⟨p, hp⟩ := hx
  have hle := (h.layout.headerOk hp).le
  simp only at hle
  exact ofNat_ne_zero (by omega) (by omega)

/-- A block is taken off its list. -/
theorem Good.remove (h : Good control m c (C.fill [⟨s, true⟩]))
    (hk : mappingInsert (BitVec.ofNat 64 s) = k) :
    ∃ m', m.removeFreeBlock control (BitVec.ofNat 64 (C.addr 8)) k = some m' ∧
      Open control m' (c.removeFree (freeBlock (C.addr 8, s)) k) C s ∧
      Stores (Spare control (C.fill [⟨s, true⟩])) m.mem m'.mem := by
  have hmem : (C.addr 8, s) ∈ blocksOf true (C.fill [⟨s, true⟩]) := ⟨_, Ctx.head_mem_fill⟩
  obtain ⟨m', hm', hrep, hstores⟩ := Rep.removeFreeBlock h hmem hk
  refine ⟨m', hm', ?_, hstores⟩
  rw [blocksOf_insert, Set.insert_sdiff_self_of_notMem (h.layout.notMem_blocksOf true)] at hrep
  exact hrep

/-- `block_insert`. -/
theorem Open.insert (h : Open control m c C s) :
    ∃ m', m.blockInsert control (BitVec.ofNat 64 (C.addr 8)) = some m' ∧
      Good control m' (c.blockInsert (freeBlock (C.addr 8, s))) (C.fill [⟨s, true⟩]) ∧
      Stores (Spare control (C.fill [⟨s, true⟩])) m.mem m'.mem := by
  obtain ⟨m', hm', hrep, hstores⟩ :=
    Rep.blockInsert (x := (C.addr 8, s)) h Ctx.head_mem_fill h.notMem
  refine ⟨m', hm', ?_, hstores⟩
  rw [Good, blocksOf_insert]
  exact hrep

/-- `block_mark_as_used`. -/
theorem Open.markAsUsed (h : Open control m c C s) :
    ∃ m', m.blockMarkAsUsed (BitVec.ofNat 64 (C.addr 8)) = some m' ∧
      Good control m' c (C.fill [⟨s, false⟩]) ∧
      Stores (Spare control (C.fill [⟨s, false⟩])) m.mem m'.mem :=
  Rep.markAsUsed h h.notMem

/-- `block_mark_as_free`. -/
theorem Good.markAsFree (h : Good control m c (C.fill [⟨s, false⟩])) :
    ∃ m', m.blockMarkAsFree (BitVec.ofNat 64 (C.addr 8)) = some m' ∧ Open control m' c C s ∧
      Stores (Spare control (C.fill [⟨s, true⟩])) m.mem m'.mem :=
  Rep.markAsFree h (h.layout.notMem_blocksOf true)

/-! ### Blocks are trimmed

What is cut off goes to its list; the block in hand keeps its address. -/

/-- The test for a split compares with the size and the smallest block. -/
theorem blockCanSplit_eq {a : ℕ} (h : wordAt m.mem (a + 8) = tag S f p) (hS : 8 ∣ S)
    (hlt : S < 2 ^ 32) (hs : s < 2 ^ 32) :
    m.blockCanSplit (BitVec.ofNat 64 a) (BitVec.ofNat 64 s) = decide (32 + s ≤ S) := by
  have hsum : sizeofBlockHeader + BitVec.ofNat 64 s = BitVec.ofNat 64 (32 + s) :=
    ofNat_add_ofNat 32 s
  rw [blockCanSplit, blockSize_eq h hS, hsum]
  apply Bool.decide_congr
  rw [ge_iff_le, BitVec.le_def, BitVec.toNat_ofNat, BitVec.toNat_ofNat, Nat.mod_eq_of_lt (by omega),
    Nat.mod_eq_of_lt (by omega)]

/-- What is cut off, on the lists that are written out. -/
theorem trimFree_eq (c : Control) {a : ℕ} (hs : 8 ≤ s) (hlt : a + 8 + s + 8 + n < 2 ^ 64)
    (hn : 24 ≤ n) : c.trimFree (freeBlock (a, s + 8 + n)) (BitVec.ofNat 64 s) =
      c.blockInsert (freeBlock (a + 8 + s, n)) := by
  have hsum : sizeofBlockHeader + BitVec.ofNat 64 s = BitVec.ofNat 64 (32 + s) :=
    ofNat_add_ofNat 32 s
  have hadd : BitVec.ofNat 64 s + blockHeaderOverhead = BitVec.ofNat 64 (s + 8) :=
    ofNat_add_ofNat s 8
  have hstart : BitVec.ofNat 64 a + blockStartOffset = BitVec.ofNat 64 (a + 16) :=
    ofNat_add_ofNat a 16
  -- in numbers nothing wraps, and the rest is large enough for a block of its own
  rw [Control.trimFree, if_pos]
  · simp only [freeBlock]
    rw [hadd, sub_ofNat (by omega) (by omega), hstart,
      show blockHeaderOverhead = BitVec.ofNat 64 8 from rfl, sub_ofNat hs (by omega),
      ofNat_add_ofNat,
      show a + 16 + (s - 8) = a + 8 + s by omega, show s + 8 + n - (s + 8) = n by omega]
  · rw [hsum, ge_iff_le, BitVec.le_def, BitVec.toNat_ofNat, Nat.mod_eq_of_lt (by omega)]
    simp only [freeBlock, BitVec.toNat_ofNat]
    rw [Nat.mod_eq_of_lt (by omega)]
    omega

/-- `block_trim_free`. Whether the block is split does not depend on anything else in memory. -/
theorem Open.trimFree (control : Addr) (c : Control) (C : Ctx) (hs : 24 ≤ s ∧ 8 ∣ s) (hle : s ≤ S) :
    ∃ C' s', C'.addr 8 = C.addr 8 ∧ s ≤ s' ∧ (32 + s ≤ S → s' = s) ∧
      Alike (C.fill [⟨S, true⟩]) (C'.fill [⟨s', true⟩]) ∧
      ∀ m, Open control m c C S → ∃ m',
        m.blockTrimFree control (BitVec.ofNat 64 (C.addr 8)) (BitVec.ofNat 64 s) = some m' ∧
        Open control m' (c.trimFree (freeBlock (C.addr 8, S)) (BitVec.ofNat 64 s)) C' s' ∧
        Stores (Spare control (C.fill [⟨S, true⟩])) m.mem m'.mem := by
  by_cases hroom : 32 + s ≤ S
  · obtain ⟨n, rfl⟩ : ∃ n, S = s + 8 + n := ⟨S - (s + 8), by omega⟩
    have hwidth : width 8 [⟨s, true⟩, ⟨n, true⟩] = width 8 [⟨s + 8 + n, true⟩] := by
      simp only [width]
      omega
    have hsame : Alike (C.fill [⟨s + 8 + n, true⟩]) (C.fill [⟨s, true⟩, ⟨n, true⟩]) := by
      refine ⟨?_, extents_fill hwidth⟩
      rw [blocksOf_fill [⟨s, true⟩, ⟨n, true⟩] rfl,
        blocksOf_fill [⟨s + 8 + n, true⟩] (congrArg (C.addr 8 + ·) hwidth.symm)]
      simp [place]
    have hfill : ∀ f, C.fill [⟨s, f⟩, ⟨n, true⟩] =
        Ctx.fill { C with right := ⟨n, true⟩ :: C.right } [⟨s, f⟩] := fun f => by
      rw [Ctx.fill, Ctx.fill, List.append_assoc, List.append_assoc]
      rfl
    refine ⟨{ C with right := ⟨n, true⟩ :: C.right }, s, rfl, le_rfl, fun _ => rfl, ?_,
      fun m h => ?_⟩
    · rw [← hfill]
      exact hsame
    obtain ⟨hmin, hd, hlt, ha, hend⟩ := h.layout.bounds
    have hfree := blockIsFree_eq (Rep.focus h) hd
    have hcan := blockCanSplit_eq (Rep.focus h) hd hlt (show s < 2 ^ 32 by omega)
    obtain ⟨m₁, linked, hsplit, hlink, hrep, hstores⟩ :=
      Rep.splitFree h h.notMem hs (n := n) ⟨by omega, by omega⟩
    have hsecond : (⟨C.addr 8 + 8 + s, n, true, true⟩ : Header) ∈
        headers 8 (C.fill [⟨s, true⟩, ⟨n, true⟩]) :=
      Ctx.mem_fill.mpr (.inr (.inl (List.mem_cons_of_mem _ List.mem_cons_self)))
    -- what is cut off is on no list yet
    have hnot : (C.addr 8 + 8 + s, n) ∉ blocksOf true (C.fill [⟨s + 8 + n, false⟩]) := by
      rw [blocksOf_fill [⟨s + 8 + n, false⟩] rfl]
      rintro (hx | ⟨e, he, hf, -⟩)
      · have hout := h.layout.outside_of_others hx
        simp only [width] at hout
        omega
      · obtain rfl := List.mem_singleton.mp he
        cases hf
    obtain ⟨m', hm', hrep', hstores'⟩ := hrep.blockInsert (x := (C.addr 8 + 8 + s, n)) hsecond hnot
    have hfree' : Insert.insert (C.addr 8 + 8 + s, n)
      (blocksOf true (C.fill [⟨s + 8 + n, false⟩])) =
        blocksOf true (C.fill [⟨s, false⟩, ⟨n, true⟩]) := by
      rw [blocksOf_fill [⟨s, false⟩, ⟨n, true⟩] rfl,
        blocksOf_fill (n := C.addr 8 + width 8 [⟨s, false⟩, ⟨n, true⟩]) [⟨s + 8 + n, false⟩]
          (by simp only [width]; omega)]
      ext x
      simp [place]
    refine ⟨m', ?_, ?_, ?_⟩
    · rw [blockTrimFree, tlsfAssert_bind hfree, if_pos (hcan.trans (decide_eq_true hroom)), hsplit,
        Option.bind_eq_bind, Option.bind_some, hlink, Option.bind_some]
      exact hm'
    · rw [trimFree_eq c (by omega) (by omega) (by omega), Open, ← hfill, ← hfill, ← hfree']
      exact hrep'
    · rw [hsame.spare] at hstores hstores'
      exact (hstores.trans hstores').mono (Set.union_self _).le
  · -- too small to be split, here and on the lists that are written out
    refine ⟨C, S, rfl, hle, fun hroom' => absurd hroom' hroom, ⟨rfl, rfl⟩, fun m h => ?_⟩
    obtain ⟨hmin, hd, hlt, ha, hend⟩ := h.layout.bounds
    have hfree := blockIsFree_eq (Rep.focus h) hd
    have hcan := blockCanSplit_eq (Rep.focus h) hd hlt (show s < 2 ^ 32 by omega)
    refine ⟨m, ?_, ?_, Writes.refl _ _ _⟩
    · rw [blockTrimFree, tlsfAssert_bind hfree,
        if_neg fun heq => hroom (of_decide_eq_true (hcan.symm.trans heq))]
    have hno : ¬ (freeBlock (C.addr 8, S)).size ≥ sizeofBlockHeader + BitVec.ofNat 64 s := by
      have hsum : sizeofBlockHeader + BitVec.ofNat 64 s = BitVec.ofNat 64 (32 + s) :=
        ofNat_add_ofNat 32 s
      rw [hsum, ge_iff_le, BitVec.le_def, freeBlock, BitVec.toNat_ofNat, BitVec.toNat_ofNat,
        Nat.mod_eq_of_lt (by omega), Nat.mod_eq_of_lt (by omega)]
      exact hroom
    rw [Control.trimFree, if_neg hno]
    exact h

/-! ### Blocks are joined

Neighbours that are free come off their lists first. The header at the end of a pool is never free,
so that merging stops there. -/

/-- The second of two blocks is free, and the first one is not. -/
theorem blocksOf_second (C : Ctx) (s n : ℕ) : blocksOf true (C.fill [⟨s, false⟩, ⟨n, true⟩]) =
    insert (C.addr 8 + 8 + s, n) (blocksOf true (C.fill [⟨s + (n + 8), false⟩])) := by
  rw [blocksOf_fill [⟨s, false⟩, ⟨n, true⟩] rfl,
    blocksOf_fill (n := C.addr 8 + width 8 [⟨s, false⟩, ⟨n, true⟩]) [⟨s + (n + 8), false⟩]
      (by simp only [width]; omega)]
  ext x
  simp [place]

/-- The first one is free, and the second one is not. -/
theorem blocksOf_first (C : Ctx) (s n : ℕ) : blocksOf true (C.fill [⟨s, true⟩, ⟨n, false⟩]) =
    insert (C.addr 8, s) (blocksOf true (C.fill [⟨s + (n + 8), false⟩])) := by
  rw [blocksOf_fill [⟨s, true⟩, ⟨n, false⟩] rfl,
    blocksOf_fill (n := C.addr 8 + width 8 [⟨s, true⟩, ⟨n, false⟩]) [⟨s + (n + 8), false⟩]
      (by simp only [width]; omega)]
  ext x
  simp [place]

/-- Where two blocks are joined, there is no free block yet. -/
theorem Layout.notMem_joined (h : Layout control (C.fill [⟨s, f⟩, ⟨n, g⟩])) :
    (C.addr 8, s) ∉ blocksOf true (C.fill [⟨s + (n + 8), false⟩]) ∧
      (C.addr 8 + 8 + s, n) ∉ blocksOf true (C.fill [⟨s + (n + 8), false⟩]) := by
  have hwidth : C.addr 8 + width 8 [⟨s + (n + 8), false⟩] =
    C.addr 8 + width 8 [⟨s, f⟩, ⟨n, g⟩] := by
    simp only [width]
    omega
  -- inside the joined block there is no free block, for it is in use
  have hnot : ∀ y, C.addr 8 ≤ y.1 → y.1 + 24 ≤ C.addr 8 + width 8 [⟨s, f⟩, ⟨n, g⟩] →
      y ∉ blocksOf true (C.fill [⟨s + (n + 8), false⟩]) := by
    intro y hlow hhigh hy
    rw [blocksOf_fill [⟨s + (n + 8), false⟩] hwidth] at hy
    rcases hy with hy | ⟨e, he, hf, -⟩
    · have hout := h.outside_of_others hy
      omega
    · obtain rfl := List.mem_singleton.mp he
      cases hf
  obtain ⟨hmin, -⟩ := h.tile_ok List.mem_cons_self
  obtain ⟨hmin', -⟩ := h.tile_ok (List.mem_cons_of_mem _ List.mem_cons_self)
  simp only [width] at hmin hmin' hnot
  exact ⟨hnot (C.addr 8, s) le_rfl (by simp only; omega),
    hnot (C.addr 8 + 8 + s, n) (by simp only; omega) (by simp only; omega)⟩

/-- Where two free blocks were, there is one. -/
theorem alike_join (C : Ctx) (s n : ℕ) :
    Alike (C.fill [⟨s, true⟩, ⟨n, true⟩]) (C.fill [⟨s + (n + 8), true⟩]) := by
  have hwidth : width 8 [⟨s + (n + 8), true⟩] = width 8 [⟨s, true⟩, ⟨n, true⟩] := by
    simp only [width]
    omega
  refine ⟨?_, extents_fill hwidth⟩
  rw [blocksOf_fill [⟨s, true⟩, ⟨n, true⟩] rfl,
    blocksOf_fill [⟨s + (n + 8), true⟩] (congrArg (C.addr 8 + ·) hwidth)]
  simp [place]

/-- Two free blocks, of which one is on a list, are joined. -/
theorem Rep.join (h : Rep control m c (C.fill [⟨s, true⟩, ⟨n, true⟩])
      (insert x (blocksOf true (C.fill [⟨s + (n + 8), false⟩]))))
    (hx : x = (C.addr 8, s) ∨ x = (C.addr 8 + 8 + s, n)) :
    ∃ m₁ m', m.blockRemove control (BitVec.ofNat 64 x.1) = some m₁ ∧
      m₁.blockAbsorb (BitVec.ofNat 64 (C.addr 8)) (BitVec.ofNat 64 (C.addr 8 + 8 + s)) = some m' ∧
      Open control m' (c.removeFree (freeBlock x) (mappingInsert (BitVec.ofNat 64 x.2))) C
        (s + (n + 8)) ∧
      Stores (Spare control (C.fill [⟨s, true⟩, ⟨n, true⟩])) m.mem m'.mem := by
  obtain ⟨hnot₁, hnot₂⟩ := h.layout.notMem_joined
  have hnotx : x ∉ blocksOf true (C.fill [⟨s + (n + 8), false⟩]) := by
    rcases hx with rfl | rfl
    · exact hnot₁
    · exact hnot₂
  -- one of the two comes off its list, then the second is absorbed into the first
  obtain ⟨m₁, hm₁, hrep₁, hstores₁⟩ := h.blockRemove (Set.mem_insert _ _)
  rw [Set.insert_sdiff_self_of_notMem hnotx] at hrep₁
  obtain ⟨m', hm', hrep', hstores'⟩ := hrep₁.blockAbsorb hnot₁ hnot₂
  rw [(alike_join C s n).spare] at hstores'
  exact ⟨m₁, m', hm₁, hm', hrep', (hstores₁.trans hstores').mono (Set.union_self _).le⟩

/-- If the header behind is that of a free block, this block comes next. -/
theorem exists_right_of_free (h : (C.next n p).free = true) :
    ∃ k r, C.right = [⟨k, true⟩] ++ r := by
  rw [Ctx.next, first] at h
  cases hr : C.right with
  | nil =>
      rw [hr] at h
      cases h
  | cons t r =>
      rw [hr] at h
      obtain ⟨k, f⟩ := t
      exact ⟨k, r, by rw [show f = true from h]; rfl⟩

/-- What `block_merge_next` does: as there are bytes in the block, there is a header behind it. -/
theorem Rep.blockMergeNext_eq (h : Rep control m c (C.fill [⟨s, f⟩]) F) :
    m.blockMergeNext control (BitVec.ofNat 64 (C.addr 8)) =
      if (C.next (C.addr 8 + 8 + s) f).free = true then
        m.blockRemove control (BitVec.ofNat 64 (C.addr 8 + 8 + s)) >>= fun m =>
          m.blockAbsorb (BitVec.ofNat 64 (C.addr 8)) (BitVec.ofNat 64 (C.addr 8 + 8 + s))
      else some m := by
  obtain ⟨hmin, hd, hlt, ha, hend⟩ := h.layout.bounds
  have hnext := blockNext_eq h.focus hd (by omega) (by omega)
  have hne := ofNat_ne_zero (show 0 < C.addr 8 + 8 + s by omega) (by omega)
  have hfree := blockIsFree_eq h.behind h.layout.next_ok.size_dvd
  -- a block of positive size is not the sentinel, so that the assertions hold
  have hlast := blockIsLast_eq h.focus hd (by omega)
  rw [decide_eq_false (by omega)] at hlast
  rw [blockMergeNext, hnext, Option.bind_eq_bind, Option.bind_some, tlsfAssert_bind hne, hfree]
  split
  · rw [tlsfAssert_bind hlast]
  · rfl

/-- `block_merge_next`. What comes of it does not depend on anything else in memory. -/
theorem Open.mergeNext (control : Addr) (c : Control) (C : Ctx) (s : ℕ) :
    ∃ c' C' s', C'.addr 8 = C.addr 8 ∧ Alike (C.fill [⟨s, true⟩]) (C'.fill [⟨s', true⟩]) ∧
      ∀ m, Open control m c C s → ∃ m',
        m.blockMergeNext control (BitVec.ofNat 64 (C.addr 8)) = some m' ∧ Open control m' c' C' s' ∧
        Stores (Spare control (C.fill [⟨s, true⟩])) m.mem m'.mem := by
  -- a free block behind is merged into this one; otherwise nothing is done
  by_cases hf : (C.next (C.addr 8 + 8 + s) true).free = true
  · obtain ⟨n, r, hright⟩ := exists_right_of_free hf
    have hfill : C.fill [⟨s, true⟩] = Ctx.fill { C with right := r } [⟨s, true⟩, ⟨n, true⟩] := by
      rw [fill_right C r hright, List.singleton_append]
    refine ⟨c.removeFree (freeBlock (C.addr 8 + 8 + s, n)) (mappingInsert (BitVec.ofNat 64 n)),
      { C with right := r }, s + (n + 8), rfl, ?_, fun m h => ?_⟩
    · rw [hfill]
      exact alike_join _ s n
    · have hrep := h
      rw [Open, hfill, fill_right C r hright, List.singleton_append, blocksOf_second] at hrep
      obtain ⟨m₁, m', hm₁, hm', hopen, hstores⟩ := hrep.join (.inr rfl)
      refine ⟨m', ?_, hopen, ?_⟩
      · rw [Rep.blockMergeNext_eq h, if_pos hf]
        exact (congrArg (· >>= _) hm₁).trans hm'
      · rw [hfill]
        exact hstores
  · refine ⟨c, C, s, rfl, ⟨rfl, rfl⟩, fun m h => ⟨m, ?_, h, Writes.refl _ _ _⟩⟩
    rw [Rep.blockMergeNext_eq h, if_neg hf]

/-- The block before is found, if it is free. -/
theorem exists_left_of_free (h : C.prevFree = true) : ∃ l n, C.left = l ++ [⟨n, true⟩] := by
  unfold Ctx.prevFree at h
  rcases List.eq_nil_or_concat C.left with hl | ⟨l, t, hl⟩
  · rw [hl] at h
    cases h
  · rw [hl, List.concat_eq_append, lastFree_append] at h
    obtain ⟨n, f⟩ := t
    exact ⟨l, n, by rw [hl, List.concat_eq_append, show f = true from h]⟩

/-- `block_merge_prev`. -/
theorem Open.mergePrev (control : Addr) (c : Control) (C : Ctx) (s : ℕ) :
    ∃ c' C' s', Alike (C.fill [⟨s, true⟩]) (C'.fill [⟨s', true⟩]) ∧
      ∀ m, Open control m c C s → ∃ m', m.blockMergePrev control (BitVec.ofNat 64 (C.addr 8)) =
          some (BitVec.ofNat 64 (C'.addr 8), m') ∧ Open control m' c' C' s' ∧
        Stores (Spare control (C.fill [⟨s, true⟩])) m.mem m'.mem := by
  by_cases hp : C.prevFree = true
  · obtain ⟨l, n, hleft⟩ := exists_left_of_free hp
    have hfill : C.fill [⟨s, true⟩] = Ctx.fill { C with left := l } [⟨n, true⟩, ⟨s, true⟩] := by
      rw [fill_left C l hleft, List.singleton_append]
    have haddr : C.addr 8 = Ctx.addr { C with left := l } 8 + 8 + n := by
      rw [Ctx.addr, Ctx.addr, hleft, width_append]
      simp only [width]
      omega
    refine ⟨c.removeFree (freeBlock (Ctx.addr { C with left := l } 8, n))
      (mappingInsert (BitVec.ofNat 64 n)), { C with left := l }, n + (s + 8), ?_, fun m h => ?_⟩
    · rw [hfill]
      exact alike_join _ n s
    obtain ⟨hmin, hd, hlt, ha, hend⟩ := h.layout.bounds
    have hprev := blockIsPrevFree_eq (Rep.focus h) hd
    have hrep := h
    rw [Open, hfill, fill_left C l hleft, List.singleton_append, blocksOf_first] at hrep
    -- the free block in front, as it is found from this one
    have hfirst := hrep.tagged _ (Ctx.head_mem_fill (o := 8))
    obtain ⟨hminn, hdn⟩ := hrep.layout.tile_ok List.mem_cons_self
    have hback : m.blockPrev (BitVec.ofNat 64 (C.addr 8)) =
        some (BitVec.ofNat 64 (Ctx.addr { C with left := l } 8)) := by
      rw [blockPrev, tlsfAssert_bind (hprev.trans hp), prevPhysBlock_eq, haddr]
      exact congrArg some (hfirst.2 rfl)
    have hpos := (hrep.layout.headerOk (Ctx.head_mem_fill (o := 8))).addr_pos
    have hne := ofNat_ne_zero (show 0 < Ctx.addr { C with left := l } 8 by simp only at hpos; omega)
      (by omega)
    have hfree := blockIsFree_eq hrep.focus hdn
    obtain ⟨m₁, m', hm₁, hm', hopen, hstores⟩ := hrep.join (.inl rfl)
    refine ⟨m', ?_, hopen, ?_⟩
    · rw [blockMergePrev, if_pos (hprev.trans hp), hback, Option.bind_eq_bind, Option.bind_some,
        tlsfAssert_bind hne, tlsfAssert_bind hfree, hm₁, Option.bind_eq_bind, Option.bind_some,
        haddr, hm']
      rfl
    · rw [hfill]
      exact hstores
  · refine ⟨c, C, s, ⟨rfl, rfl⟩, fun m h => ⟨m, ?_, h, Writes.refl _ _ _⟩⟩
    obtain ⟨-, hd, -⟩ := h.layout.bounds
    rw [blockMergePrev, if_neg fun heq => hp ((blockIsPrevFree_eq (Rep.focus h) hd).symm.trans heq)]

/-! ### The calls

`tlsf_malloc` and `tlsf_free`, put together from the steps above. -/

/-- A number that fits is itself as a word. -/
theorem toNat_ofNat_of_lt {y : ℕ} (hy : y < 2 ^ 64) : (BitVec.ofNat 64 y).toNat = y := by
  rw [BitVec.toNat_ofNat, Nat.mod_eq_of_lt hy]

/-- Each block that is in use can be left out. -/
theorem exists_fill_of_mem (hx : x ∈ blocksOf f pools) (hsize : x.2 ≠ 0) :
    ∃ C : Ctx, pools = C.fill [⟨x.2, f⟩] ∧ x.1 = C.addr 8 := by
  obtain ⟨p, hp⟩ := hx
  obtain ⟨C, t, rfl, heq⟩ := Ctx.exists_fill hp hsize
  rw [Header.mk.injEq] at heq
  obtain ⟨haddr, hs, hf, -⟩ := heq
  exact ⟨C, by rw [hs, hf], haddr⟩

/-- `tlsf_free` of a block in use. Which blocks there are afterwards, and on which lists, does not
depend on anything else in memory. -/
theorem Good.tlsfFree (h : Good control m c pools) (hx : x ∈ blocksOf false pools)
    (hsize : x.2 ≠ 0) :
    ∃ c' pools', Takes pools' pools x ∧ ∀ m, Good control m c pools →
      ∃ m', m.tlsfFree control (BitVec.ofNat 64 (x.1 + 16)) = some m' ∧ Good control m' c' pools' ∧
        Stores (Spare control pools') m.mem m'.mem := by
  obtain ⟨C, rfl, haddr⟩ := exists_fill_of_mem hx hsize
  obtain ⟨a, s⟩ := x
  obtain rfl : a = C.addr 8 := haddr
  simp only at hsize ⊢
  -- the free neighbours are joined, first the one in front and then the one behind
  obtain ⟨c₂, C₂, s₂, hsame₂, hstep₂⟩ := Open.mergePrev control c C s
  obtain ⟨c₃, C₃, s₃, haddr₃, hsame₃, hstep₃⟩ := Open.mergeNext control c₂ C₂ s₂
  refine ⟨c₃.blockInsert (freeBlock (C₃.addr 8, s₃)), C₃.fill [⟨s₃, true⟩], ⟨?_, ?_, ?_⟩,
    fun m h => ?_⟩
  · rw [hsame₃.1, hsame₂.1]
    exact h.layout.notMem_blocksOf false
  · rw [hsame₃.1, hsame₂.1]
    exact blocksOf_insert C s false
  · rw [hsame₃.2, hsame₂.2]
    exact extents_fill rfl
  -- the four parts of the function in order
  obtain ⟨hmin, hd, hlt, ha, hend⟩ := h.layout.bounds
  have hblock : blockFromPtr (BitVec.ofNat 64 (C.addr 8 + 16)) = BitVec.ofNat 64 (C.addr 8) :=
    sub_ofNat (by omega) (by omega)
  have hne := ofNat_ne_zero (show 0 < C.addr 8 + 16 by omega) (by omega)
  have hused := blockIsFree_eq (Rep.focus h) hd
  obtain ⟨m₁, hm₁, hopen₁, hstores₁⟩ := h.markAsFree
  obtain ⟨m₂, hm₂, hopen₂, hstores₂⟩ := hstep₂ m₁ hopen₁
  obtain ⟨m₃, hm₃, hopen₃, hstores₃⟩ := hstep₃ m₂ hopen₂
  obtain ⟨m₄, hm₄, hgood, hstores₄⟩ := hopen₃.insert
  refine ⟨m₄, ?_, hgood, ?_⟩
  · rw [TlsfMem.tlsfFree, if_neg hne]
    simp only [hblock]
    rw [tlsfAssert_bind hused, hm₁, Option.bind_eq_bind, Option.bind_some, hm₂, Option.bind_eq_bind,
      Option.bind_some, hm₃, Option.bind_some, ← haddr₃, hm₄]
  · rw [hsame₃.spare, hsame₂.spare] at hstores₄ ⊢
    rw [hsame₂.spare] at hstores₃
    apply (((hstores₁.trans hstores₂).trans hstores₃).trans hstores₄).mono
    simp only [Set.union_self, subset_refl]

/-- A free block is given by its place on the list. -/
theorem Rep.freeBlock_inj (h : Rep control m c pools F) (hx : x ∈ F) (hy : y ∈ F)
    (heq : freeBlock x = freeBlock y) : x = y := by
  have hxle := h.nodes.le x hx
  have hyle := h.nodes.le y hy
  rw [freeBlock, freeBlock, FreeBlock.mk.injEq, ofNat_inj (by omega) (by omega),
    ofNat_inj (by omega) (by omega)] at heq
  exact Prod.ext heq.1 heq.2

/-- `block_locate_free`. Which block is found, the lists that are written out say. -/
theorem Good.blockLocateFree (h : Good control m c pools) (hmin : 24 ≤ size.toNat)
    (hd : 8 ∣ size.toNat) (hlt : size.toNat < 2 ^ 32) :
    (c.locateFree size = (none, c) ∧
      ∀ m, Good control m c pools → m.blockLocateFree control size = some (0, m)) ∨
    ∃ C s c', pools = C.fill [⟨s, true⟩] ∧ c.locateFree size =
      (some (freeBlock (C.addr 8, s)), c') ∧
      size.toNat ≤ s ∧ ∀ m, Good control m c pools → ∃ m',
        m.blockLocateFree control size = some (BitVec.ofNat 64 (C.addr 8), m') ∧
        Open control m' c' C s ∧
        Stores (Spare control pools) m.mem m'.mem := by
  have hne : size ≠ 0 := fun heq => by
    rw [heq] at hmin
    exact absurd hmin (by decide)
  rw [Control.locateFree, if_neg hne]
  by_cases hfl : (mappingSearch size).1 < flIndexCount
  · rw [if_pos hfl]
    cases hsearch : c.searchSuitable (mappingSearch size) with
    | none =>
        refine .inl ⟨rfl, fun m h => ?_⟩
        rw [TlsfMem.blockLocateFree, if_neg hne, if_pos hfl,
          (Rep.lists h).searchSuitableBlock_of_none hfl hsearch]
        rfl
    | some k =>
        -- the first block of the list that the search ends at
        obtain ⟨x, hx, l, hl, hclass, -⟩ :=
          (Rep.lists h).searchSuitableBlock_of_some (Rep.nodes h) hfl hsearch
        have hsize := (Rep.nodes h).min x hx
        obtain ⟨C, rfl, haddr⟩ := exists_fill_of_mem hx (by omega)
        obtain ⟨a, s⟩ := x
        obtain rfl : a = C.addr 8 := haddr
        obtain ⟨-, hds, hlts, -, hend⟩ := h.layout.bounds
        have hreach := Control.reaches_of_searchSuitable hsearch
        rw [← hclass] at hreach
        have hle : size.toNat ≤ s := by
          have := le_of_reaches hlt hd hreach
          rwa [BitVec.toNat_ofNat, Nat.mod_eq_of_lt (by omega)] at this
        refine .inr ⟨C, s, c.removeFree (freeBlock (C.addr 8, s)) k,
          rfl, by simp only [hl], hle, fun m h => ?_⟩
        obtain ⟨y, hy, l', hl', -, hfind⟩ :=
          (Rep.lists h).searchSuitableBlock_of_some (Rep.nodes h) hfl hsearch
        obtain rfl := Rep.freeBlock_inj h hx hy (List.cons.inj (hl.symm.trans hl')).1
        obtain ⟨m', hm', hopen, hstores⟩ := h.remove hclass
        have hlarge : m.blockSize (BitVec.ofNat 64 (C.addr 8)) ≥ size := by
          rw [blockSize_eq (Rep.focus h) hds, ge_iff_le, BitVec.le_def, BitVec.toNat_ofNat,
            Nat.mod_eq_of_lt (by omega)]
          exact hle
        have hpos := Layout.addr_ne_zero h.layout
        refine ⟨m', ?_, hopen, hstores⟩
        rw [TlsfMem.blockLocateFree, if_neg hne, if_pos hfl, hfind, Option.bind_eq_bind,
          Option.bind_some, if_neg hpos, tlsfAssert_bind hlarge, hm']
        rfl
  · rw [if_neg hfl]
    refine .inl ⟨rfl, fun m h => ?_⟩
    rw [TlsfMem.blockLocateFree, if_neg hne, if_neg hfl]

/-- `block_prepare_used`. -/
theorem Open.prepareUsed (h : Open control m c C s) (hne : size ≠ 0)
    (hsize : 24 ≤ size.toNat ∧ 8 ∣ size.toNat) (hle : size.toNat ≤ s) :
    ∃ pools' s', Takes (C.fill [⟨s, true⟩]) pools' (C.addr 8, s') ∧ size.toNat ≤ s' ∧ 24 ≤ s' ∧
      (32 + size.toNat ≤ s → s' = size.toNat) ∧ ∀ m, Open control m c C s → ∃ m',
        m.blockPrepareUsed control (BitVec.ofNat 64 (C.addr 8)) size =
          some (BitVec.ofNat 64 (C.addr 8 + 16), m') ∧
        Good control m' (c.trimFree (freeBlock (C.addr 8, s)) size) pools' ∧
        Stores (Spare control (C.fill [⟨s, true⟩])) m.mem m'.mem := by
  have hnat : BitVec.ofNat 64 size.toNat = size := by
    rw [BitVec.ofNat_toNat, BitVec.setWidth_eq]
  -- first the rest is cut off, then the block is marked
  obtain ⟨C₁, s₁, haddr₁, hle₁, hexact₁, hsame₁, hstep₁⟩ := Open.trimFree control c C hsize hle
  rw [hnat] at hstep₁
  have hused : blocksOf false (C₁.fill [⟨s₁, false⟩]) =
      Insert.insert (C.addr 8, s₁) (blocksOf false (C.fill [⟨s, true⟩])) := by
    rw [blocksOf_insert, ← hsame₁.1, haddr₁]
    rfl
  have hext : extents (C.fill [⟨s, true⟩]) = extents (C₁.fill [⟨s₁, false⟩]) :=
    hsame₁.2.symm.trans (extents_fill rfl)
  have hspare : Spare control (C₁.fill [⟨s₁, false⟩]) ⊆ Spare control (C.fill [⟨s, true⟩]) :=
    spare_mono (hused ▸ Set.subset_insert _ _) hext
  refine ⟨C₁.fill [⟨s₁, false⟩], s₁, ⟨?_, hused, hext.symm⟩, hle₁, hsize.1.trans hle₁, hexact₁,
    fun m h => ?_⟩
  · obtain ⟨_, -, hopen₁, -⟩ := hstep₁ m h
    rw [← hsame₁.1, ← haddr₁]
    exact hopen₁.layout.notMem_blocksOf false
  obtain ⟨m₁, hm₁, hopen₁, hstores₁⟩ := hstep₁ m h
  obtain ⟨m₂, hm₂, hgood, hstores₂⟩ := hopen₁.markAsUsed
  rw [haddr₁] at hm₂
  have hpos := h.layout.addr_ne_zero
  refine ⟨m₂, ?_, hgood, (hstores₁.trans (hstores₂.mono hspare)).mono (Set.union_self _).le⟩
  rw [blockPrepareUsed, if_neg hpos, tlsfAssert_bind hne, hm₁, Option.bind_eq_bind,
    Option.bind_some, hm₂, Option.bind_some, blockToPtr_eq]

/-- `tlsf_malloc`. It does what the lists that are written out say. If there is a block, it is one
that was not in use, and has room for the request. What was left of a free block is cut off. -/
theorem Good.tlsfMalloc (h : Good control m c pools) (size : Size) :
    ((c.tlsfMalloc size).1 = none ∧
      ∀ m, Good control m c pools → m.tlsfMalloc control size = some (0, m)) ∨
    ∃ x pools', (c.tlsfMalloc size).1 = some (BitVec.ofNat 64 (x.1 + 16)) ∧ Takes pools pools' x ∧
      (adjustRequestSize size).toNat ≤ x.2 ∧ 24 ≤ x.2 ∧
      (∃ s, (x.1, s) ∈ blocksOf true pools ∧
        (32 + (adjustRequestSize size).toNat ≤ s → x.2 = (adjustRequestSize size).toNat)) ∧
      ∀ m, Good control m c pools → ∃ m',
        m.tlsfMalloc control size = some (BitVec.ofNat 64 (x.1 + 16), m') ∧
        Good control m' (c.tlsfMalloc size).2 pools' ∧
          Stores (Spare control pools) m.mem m'.mem := by
  by_cases hzero : adjustRequestSize size = 0
  · refine .inl ⟨(c.tlsfMalloc_eq_none_iff size).mpr (.inl hzero), fun m _ => ?_⟩
    unfold TlsfMem.tlsfMalloc
    simp only [hzero]
    rfl
  obtain ⟨hmin, hd, hlt, -⟩ := adjust_spec hzero
  -- the search fails for all memories or for none, since the lists decide
  rcases h.blockLocateFree hmin hd hlt with ⟨hc, hstep⟩ | ⟨C, s, c₁, rfl, hc, hle, hstep⟩
  · refine .inl ⟨?_, fun m h => ?_⟩
    · unfold Control.tlsfMalloc
      simp only [hc]
    · unfold TlsfMem.tlsfMalloc
      simp only [hstep m h, Option.bind_eq_bind, Option.bind_some]
      rfl
  · right
    obtain ⟨m₁, -, hopen₁, -⟩ := hstep m h
    obtain ⟨pools₂, s₂, htakes, hle₂, hmin₂, hexact₂, hstep₂⟩ :=
      hopen₁.prepareUsed hzero ⟨hmin, hd⟩ hle
    refine ⟨(C.addr 8, s₂), pools₂, ?_, htakes, hle₂, hmin₂, ⟨s, ⟨_, Ctx.head_mem_fill⟩, hexact₂⟩,
      fun m h => ?_⟩
    · unfold Control.tlsfMalloc
      simp only [hc]
      exact congrArg some (ofNat_add_ofNat _ 16)
    -- the two parts again, for the memory that is given
    obtain ⟨m₁, hm₁, hopen₁, hstores₁⟩ := hstep m h
    obtain ⟨m₂, hm₂, hgood, hstores₂⟩ := hstep₂ m₁ hopen₁
    refine ⟨m₂, ?_, ?_, (hstores₁.trans hstores₂).mono (Set.union_self _).le⟩
    · unfold TlsfMem.tlsfMalloc
      simp only [hm₁, Option.bind_eq_bind, Option.bind_some]
      exact hm₂
    · unfold Control.tlsfMalloc
      simp only [hc]
      exact hgood

/-- The block that was taken is in use. -/
theorem Takes.mem (h : Takes pools pools' x) : x ∈ blocksOf false pools' := by
  rw [h.2.1]
  exact Set.mem_insert _ _

end TlsfMem

end Koharu
