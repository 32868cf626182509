import Koharu.Lib.Machine
import Koharu.Mm.TlsfMemalign
import Koharu.Mm.TlsfPools
import Koharu.Mm.TlsfRealloc

/-!
# Programs that use the heap

A program makes a heap with one pool, gets blocks from it, also aligned ones, gives them other sizes
and gives them back, and stores bytes to the blocks that it has. Whatever it does in which order, no
assertion of `tlsf.c` fails, the blocks lie apart in the pool, and the heap leaves their contents
alone.

The invariant relates the blocks that the program has to the blocks in use in the headers: each of
the former is one of the latter, at the same address, and large enough for the size that was asked
for. As blocks in use do not overlap, nor do those of the program. That the heap leaves their bytes
alone is a statement about single steps, which the calls give by the words they store to.

* `HeapClient`: the program, with the blocks that it has;
* `tlsf_client_safe`: what holds of all its runs.
-/

namespace Koharu

open Tlsf WordMemory Tiling

namespace TlsfMem

variable {pools : List Pool} {x : ℕ × ℕ}

/-- Blocks are in the pool. -/
theorem within_of_extents {lo hi : ℕ} (hx : x ∈ blocksOf false pools) (hsize : x.2 ≠ 0)
    (hpools : extents pools = [(lo, hi)]) : lo ≤ x.1 ∧ x.1 + 8 + x.2 ≤ hi := by
  obtain ⟨C, rfl, haddr⟩ := exists_fill_of_mem hx hsize
  have hmem : (C.start, (⟨C.start, C.left ++ [⟨x.2, false⟩] ++ C.right⟩ : Pool).stop 8) ∈
      extents (C.fill [⟨x.2, false⟩]) :=
    List.mem_map.mpr ⟨_, List.mem_append_right _ List.mem_cons_self, rfl⟩
  rw [hpools, List.mem_singleton, Ctx.stop_middle, Prod.mk.injEq] at hmem
  obtain ⟨rfl, rfl⟩ := hmem
  rw [haddr, width_singleton]
  have hstart : C.start ≤ C.addr 8 := Nat.le_add_right ..
  simp only
  omega

end TlsfMem

/-! ### Programs

A client is any program that gives back what it has and stores to what it has. The invariant holds
after each of its actions, and what it stored stays. -/

/-- A program with a heap, and the blocks that it has, with the sizes that it asked for. -/
structure HeapClient where
  heap : TlsfMem
  held : List (Addr × Tlsf.Size)

/-- What a program does. -/
inductive TlsfAction where
  | malloc (size : Tlsf.Size)
  | memalign (align size : Tlsf.Size)
  | free (ptr : Addr)
  | realloc (ptr : Addr) (size : Tlsf.Size)
  | write (a : Addr) (v : BitVec 8)

namespace HeapClient

open TlsfMem

/-- One step. -/
def step (control : Addr) (s : HeapClient) : TlsfAction → Option HeapClient
  | .malloc size => (s.heap.tlsfMalloc control size).map fun r =>
      ⟨r.2, if r.1 = 0 then s.held else (r.1, size) :: s.held⟩
  | .memalign align size => (s.heap.tlsfMemalign control align size).map fun r =>
      ⟨r.2, if r.1 = 0 then s.held else (r.1, size) :: s.held⟩
  | .free ptr => (s.heap.tlsfFree control ptr).map fun m => ⟨m, s.held.filter fun q => q.1 ≠ ptr⟩
  | .realloc ptr size => (s.heap.tlsfRealloc control ptr size).map fun r =>
      ⟨r.2, if ptr ≠ 0 ∧ size = 0 then s.held.filter fun q => q.1 ≠ ptr
        else if r.1 = 0 then s.held else (r.1, size) :: s.held.filter fun q => q.1 ≠ ptr⟩
  | .write a v => some ⟨{ s.heap with mem := Function.update s.heap.mem a v }, s.held⟩

/-- The byte is in one of the blocks. -/
def Owns (s : HeapClient) (a : Addr) : Prop :=
  ∃ q ∈ s.held, (a - q.1).toNat < (adjustRequestSize q.2).toNat

/-- The program gives back what it has, and stores to what it has. A block is never made larger than
the lists are made for: `tlsf_realloc` does not look for that, and cuts the block to nothing. With
an alignment of `2 ^ 63`, `tlsf_memalign` may return a block that is too small. -/
def Allowed (s : HeapClient) : TlsfAction → Prop
  | .malloc _ => True
  | .memalign align _ => ∃ k ≤ 62, align = BitVec.twoPow 64 k
  | .free ptr => ptr = 0 ∨ ∃ q ∈ s.held, q.1 = ptr
  | .realloc ptr size => (ptr = 0 ∨ ∃ q ∈ s.held, q.1 = ptr) ∧
      (ptr ≠ 0 → size ≠ 0 → adjustRequestSize size ≠ 0)
  | .write a _ => s.Owns a

/-- The heap is in order, in the pool from `lo` to `hi`, and what the program has are blocks in
use. -/
structure Inv (control : Addr) (lo hi : ℕ) (s : HeapClient) (c : Control) (pools : List Pool) :
    Prop where
  good : Good control s.heap c pools
  extents : extents pools = [(lo, hi)]
  held : ∀ q ∈ s.held, ∃ x ∈ blocksOf false pools,
    q.1 = BitVec.ofNat 64 (x.1 + 16) ∧ (adjustRequestSize q.2).toNat ≤ x.2 ∧ 24 ≤ x.2
  nodup : (s.held.map Prod.fst).Nodup

variable {control : Addr} {lo hi : ℕ} {s s' : HeapClient} {c : Control} {pools : List Pool}
  {a : TlsfAction} {b : Addr}

/-- A byte that the program has is in a block in use. -/
theorem Inv.exists_of_owns (h : Inv control lo hi s c pools) (hb : s.Owns b) :
    ∃ q ∈ s.held, ∃ x ∈ blocksOf false pools, q.1 = BitVec.ofNat 64 (x.1 + 16) ∧ 24 ≤ x.2 ∧
      x.1 + 16 ≤ b.toNat ∧ b.toNat < x.1 + 16 + x.2 := by
  obtain ⟨q, hq, hlt⟩ := hb
  obtain ⟨x, hx, hptr, hle, hmin⟩ := h.held q hq
  obtain ⟨p, hp⟩ := hx
  have hxle := (h.good.layout.headerOk hp).le
  simp only at hxle
  have hbl := b.isLt
  have hxlt : x.1 + 16 < 2 ^ 64 := by omega
  rw [hptr, BitVec.toNat_sub, BitVec.toNat_ofNat, Nat.mod_eq_of_lt hxlt] at hlt
  refine ⟨q, hq, x, ⟨p, hp⟩, hptr, hmin, ?_⟩
  -- the offset into the block is taken modulo `2 ^ 64`; below the block it would be too large
  by_cases hlow : x.1 + 16 ≤ b.toNat
  · rw [show 2 ^ 64 - (x.1 + 16) + b.toNat =
      b.toNat - (x.1 + 16) + 2 ^ 64 by omega, Nat.add_mod_right, Nat.mod_eq_of_lt (by omega)] at hlt
    omega
  · rw [Nat.mod_eq_of_lt (by omega)] at hlt
    omega

/-- The program gets a block. -/
theorem Inv.take (h : Inv control lo hi s c pools) {m' : TlsfMem} {c' : Control}
    {pools' : List Pool} {x : ℕ × ℕ} {size : Tlsf.Size} (hgood : Good control m' c' pools')
    (htakes : Takes pools pools' x) (hle : (adjustRequestSize size).toNat ≤ x.2) (hmin : 24 ≤ x.2)
    (hagree : Agree (Spare control pools) s.heap.mem m'.mem) :
    Inv control lo hi ⟨m', if (BitVec.ofNat 64 (x.1 + 16) : Addr) = 0 then s.held
      else (BitVec.ofNat 64 (x.1 + 16), size) :: s.held⟩ c' pools' ∧
      ∀ b, s.Owns b → m'.mem b = s.heap.mem b := by
  obtain ⟨hnew, hused, hext⟩ := htakes
  have hx : x ∈ blocksOf false pools' := by
    rw [hused]
    exact Set.mem_insert _ _
  have hold : ∀ y ∈ blocksOf false pools, y ∈ blocksOf false pools' := fun y hy => by
    rw [hused]
    exact .inr hy
  constructor
  -- the pointer is not `NULL`, so the block is among those held
  · rw [if_neg (hgood.ptr_ne_zero hx (by omega))]
    refine ⟨hgood, hext.trans h.extents,
      fun q hq => ?_, List.nodup_cons.mpr ⟨fun hin => ?_, h.nodup⟩⟩
    · rcases List.mem_cons.mp hq with rfl | hq
      · exact ⟨x, hx, rfl, hle, hmin⟩
      · obtain ⟨y, hy, hrest⟩ := h.held q hq
        exact ⟨y, hold y hy, hrest⟩
    · obtain ⟨q, hq, hptr⟩ := List.mem_map.mp hin
      obtain ⟨y, hy, hptr', -, hys⟩ := h.held q hq
      -- two blocks in use do not share an address
      have heq := hgood.eq_of_ptr (hold y hy) hys hx hmin (hptr'.symm.trans hptr)
      exact hnew (heq ▸ hy)
  · intro b hb
    obtain ⟨q, hq, y, hy, -, -, hz⟩ := h.exists_of_owns hb
    have hbyte := h.good.byte hy hz hagree
    rwa [BitVec.ofNat_toNat, BitVec.setWidth_eq] at hbyte

/-- `tlsf_malloc`. -/
theorem Inv.malloc (h : Inv control lo hi s c pools) (size : Tlsf.Size) :
    ∃ p m' c' pools', s.heap.tlsfMalloc control size = some (p, m') ∧
      Inv control lo hi ⟨m', if p = 0 then s.held else (p, size) :: s.held⟩ c' pools' ∧
      ∀ b, s.Owns b → m'.mem b = s.heap.mem b := by
  rcases h.good.tlsfMalloc size with ⟨-, hm⟩ | ⟨x, pools', -, htakes, hle, hmin, -, hm⟩
  · exact ⟨0, s.heap, c, pools, hm _ h.good, by rw [if_pos rfl]; exact h, fun b _ => rfl⟩
  · obtain ⟨m', hm, hgood, hstores⟩ := hm _ h.good
    exact ⟨_, m', _, pools', hm, h.take hgood htakes hle hmin hstores.agree⟩

/-- `tlsf_memalign`. -/
theorem Inv.memalign (h : Inv control lo hi s c pools) {k : ℕ} (hk : k ≤ 62) (size : Tlsf.Size) :
    ∃ p m' c' pools', s.heap.tlsfMemalign control (BitVec.twoPow 64 k) size = some (p, m') ∧
      2 ^ k ∣ p.toNat ∧ Inv control lo hi ⟨m',
      if p = 0 then s.held else (p, size) :: s.held⟩ c' pools' ∧
      ∀ b, s.Owns b → m'.mem b = s.heap.mem b := by
  rcases h.good.tlsfMemalign hk size with hm |
    ⟨x, m', c', pools', hm, hgood, htakes, hle, hmin, hdvd, hstores⟩
  · exact ⟨0, s.heap, c, pools, hm, dvd_zero _, by rw [if_pos rfl]; exact h, fun b _ => rfl⟩
  -- the block taken is in use afterwards, so that its address is a number below `2 ^ 64`
  have hx : x ∈ blocksOf false pools' := by
    rw [htakes.2.1]
    exact Set.mem_insert _ _
  obtain ⟨p, hp⟩ := hx
  have hxle := (hgood.layout.headerOk hp).le
  simp only at hxle
  refine ⟨_, m', c', pools', hm, ?_, h.take hgood htakes hle hmin hstores.agree⟩
  rw [toNat_ofNat_of_lt (by omega)]
  exact hdvd

/-- `tlsf_free`. -/
theorem Inv.free (h : Inv control lo hi s c pools) {q : Addr × Tlsf.Size} (hq : q ∈ s.held) :
    ∃ m' c' pools', s.heap.tlsfFree control q.1 = some m' ∧
      Inv control lo hi ⟨m', s.held.filter fun r => r.1 ≠ q.1⟩ c' pools' ∧
      ∀ b, Owns ⟨m', s.held.filter fun r => r.1 ≠ q.1⟩ b → m'.mem b = s.heap.mem b := by
  obtain ⟨x, hx, hptr, -, hmin⟩ := h.held q hq
  obtain ⟨c', pools', ⟨hnew, hused, hext⟩, hfree⟩ := h.good.tlsfFree hx (by omega)
  obtain ⟨m', hm, hgood, hstores⟩ := hfree _ h.good
  rw [← hptr] at hm
  -- what the client still holds are the other blocks in use
  have hinv : Inv control lo hi ⟨m', s.held.filter fun r => r.1 ≠ q.1⟩ c' pools' := by
    refine ⟨hgood, hext.symm.trans h.extents, fun r hr => ?_,
      h.nodup.sublist (List.filter_sublist.map _)⟩
    obtain ⟨hr, hne⟩ := List.mem_filter.mp hr
    obtain ⟨y, hy, hptr', hrest⟩ := h.held r hr
    rw [hused] at hy
    rcases hy with rfl | hy
    · exact absurd (hptr'.trans hptr.symm) (of_decide_eq_true hne)
    · exact ⟨y, hy, hptr', hrest⟩
  refine ⟨m', c', pools', hm, hinv, fun b hb => ?_⟩
  obtain ⟨r, hr, y, hy, -, -, hz⟩ := hinv.exists_of_owns hb
  have hbyte := hgood.byte hy hz hstores.agree
  rwa [BitVec.ofNat_toNat, BitVec.setWidth_eq] at hbyte

/-- `tlsf_realloc`, of a block that the program has. -/
theorem Inv.realloc (h : Inv control lo hi s c pools) {q : Addr × Tlsf.Size} (hq : q ∈ s.held)
    {size : Tlsf.Size} (hadjust : adjustRequestSize size ≠ 0) :
    s.heap.tlsfRealloc control q.1 size = some (0, s.heap) ∨
    ∃ p m' c' pools', s.heap.tlsfRealloc control q.1 size = some (p, m') ∧ p ≠ 0 ∧
      Inv control lo hi ⟨m', (p, size) :: s.held.filter fun r => r.1 ≠ q.1⟩ c' pools' ∧
      (∀ b, s.Owns b → Owns ⟨m', (p, size) :: s.held.filter fun r => r.1 ≠ q.1⟩ b →
        m'.mem b = s.heap.mem b) ∧
      ∀ i, i < (adjustRequestSize q.2).toNat → i < (adjustRequestSize size).toNat → i < size.toNat →
        m'.mem (p + BitVec.ofNat 64 i) = s.heap.mem (q.1 + BitVec.ofNat 64 i) := by
  obtain ⟨x, hx, hptr, hle, hmin⟩ := h.held q hq
  rcases h.good.tlsfRealloc hx (by omega) hadjust with hfail |
    ⟨y, m', c', pools', hm, hgood, ⟨hnew, hused, hext⟩, hley, hkeeps⟩
  · exact .inl (by rw [hptr]; exact hfail)
  right
  have hy : y ∈ blocksOf false pools' := by
    rw [hused]
    exact Set.mem_insert _ _
  have hys : 24 ≤ y.2 := (adjust_spec hadjust).1.trans hley
  have hold : ∀ z ∈ blocksOf false pools, z ≠ x → z ∈ blocksOf false pools' ∧ z ≠ y :=
    fun z hz hne =>
    ⟨by rw [hused]; exact .inr ⟨hz, hne⟩, fun heq => hnew (heq ▸ ⟨hz, hne⟩)⟩
  have hother : ∀ r ∈ s.held, r.1 ≠ q.1 → ∃ z ∈ blocksOf false pools', z ≠ y ∧
      r.1 = BitVec.ofNat 64 (z.1 + 16) ∧ (adjustRequestSize r.2).toNat ≤ z.2 ∧ 24 ≤ z.2 := by
    intro r hr hne
    obtain ⟨z, hz, hzptr, hrest⟩ := h.held r hr
    obtain ⟨hz', hzy⟩ := hold z hz fun heq => hne (by rw [hzptr, hptr, heq])
    exact ⟨z, hz', hzy, hzptr, hrest⟩
  have hinv : Inv control lo hi
      ⟨m', (BitVec.ofNat 64 (y.1 + 16), size) :: s.held.filter fun r => r.1 ≠ q.1⟩ c' pools' := by
    refine ⟨hgood, hext.trans h.extents, fun r hr => ?_, List.nodup_cons.mpr ⟨fun hin => ?_,
      h.nodup.sublist (List.filter_sublist.map _)⟩⟩
    · rcases List.mem_cons.mp hr with rfl | hr
      · exact ⟨y, hy, rfl, hley, hys⟩
      · obtain ⟨hr, hne⟩ := List.mem_filter.mp hr
        obtain ⟨z, hz, -, hrest⟩ := hother r hr (of_decide_eq_true hne)
        exact ⟨z, hz, hrest⟩
    · obtain ⟨r, hr, heq⟩ := List.mem_map.mp hin
      obtain ⟨hr, hne⟩ := List.mem_filter.mp hr
      obtain ⟨z, hz, hzy, hzptr, -, hzmin⟩ := hother r hr (of_decide_eq_true hne)
      exact hzy (hgood.eq_of_ptr hz hzmin hy hys (hzptr.symm.trans heq))
  refine ⟨_, m', c', pools', by rw [hptr]; exact hm, hgood.ptr_ne_zero hy (by omega), hinv,
    fun b hb hb' => ?_, fun i hi hi' hsize => ?_⟩
  · obtain ⟨-, -, w, hw, -, -, hwb⟩ := h.exists_of_owns hb
    obtain ⟨-, -, v, hv, -, -, hvb⟩ := hinv.exists_of_owns hb'
    by_cases hvy : v = y
    · obtain rfl := hvy
      -- the byte was in the same block
      have hwx : w = x := by
        by_contra hne
        obtain ⟨hw', hwv⟩ := hold w hw hne
        exact hwv (hgood.eq_of_byte hw' hv hwb hvb)
      obtain rfl := hwx
      have hplace := hkeeps.place
      have hmoved := hkeeps.moved (b.toNat - (w.1 + 16)) (by omega) (by omega) (.inl (by omega))
      rwa [show v.1 + 16 + (b.toNat - (w.1 + 16)) = b.toNat by omega,
        show w.1 + 16 + (b.toNat - (w.1 + 16)) = b.toNat by omega, BitVec.ofNat_toNat,
        BitVec.setWidth_eq] at hmoved
    · have hbyte := hkeeps.other v hv hvy b.toNat hvb
      rwa [BitVec.ofNat_toNat, BitVec.setWidth_eq] at hbyte
  · rw [hptr, ofNat_add_ofNat, ofNat_add_ofNat]
    exact hkeeps.moved i (by omega) (by omega) (.inr hsize)

theorem Inv.filter_zero (h : Inv control lo hi s c pools) :
    (s.held.filter fun q => q.1 ≠ 0) = s.held := by
  refine List.filter_eq_self.mpr fun q hq => decide_eq_true ?_
  obtain ⟨x, hx, hptr, -, hmin⟩ := h.held q hq
  rw [hptr]
  exact h.good.ptr_ne_zero hx (by omega)

/-- What the program has is in order after a step, and what it had before and still has is the same,
but for the byte that it stores. -/
theorem Inv.step (h : Inv control lo hi s c pools) (ha : s.Allowed a) :
    ∃ s' c' pools', s.step control a = some s' ∧ Inv control lo hi s' c' pools' ∧
      ∀ b, s.Owns b → s'.Owns b → (∀ v, a ≠ .write b v) → s'.heap.mem b = s.heap.mem b := by
  cases a with
  | malloc size =>
      obtain ⟨p, m', c', pools', hm, hinv, hsame⟩ := h.malloc size
      refine ⟨_, c', pools', ?_, hinv, fun b hb _ _ => hsame b hb⟩
      rw [HeapClient.step, hm]
      rfl
  | memalign align size =>
      obtain ⟨k, hk, rfl⟩ := ha
      obtain ⟨p, m', c', pools', hm, -, hinv, hsame⟩ := h.memalign hk size
      refine ⟨_, c', pools', ?_, hinv, fun b hb _ _ => hsame b hb⟩
      rw [HeapClient.step, hm]
      rfl
  | free ptr =>
      by_cases hzero : ptr = 0
      · refine ⟨s, c, pools, ?_, h, fun b _ _ _ => rfl⟩
        rw [HeapClient.step, TlsfMem.tlsfFree, if_pos hzero, hzero, Option.map_some, h.filter_zero]
      · obtain ⟨q, hq, rfl⟩ := ha.resolve_left hzero
        obtain ⟨m', c', pools', hm, hinv, hsame⟩ := h.free hq
        refine ⟨_, c', pools', ?_, hinv, fun b _ hb _ => hsame b hb⟩
        rw [HeapClient.step, hm]
        rfl
  | realloc ptr size =>
      by_cases hzero : ptr = 0
      · -- as `tlsf_malloc`
        obtain ⟨p, m', c', pools', hm, hinv, hsame⟩ := h.malloc size
        refine ⟨_, c', pools', ?_, hinv, fun b hb _ _ => hsame b hb⟩
        rw [HeapClient.step, TlsfMem.tlsfRealloc, if_neg (fun hand => hand.1 hzero), if_pos hzero,
          hm, Option.map_some, if_neg (fun hand => hand.1 hzero), hzero, h.filter_zero]
      obtain ⟨q, hq, rfl⟩ := ha.1.resolve_left hzero
      by_cases hsize : size = 0
      · -- as `tlsf_free`
        obtain ⟨m', c', pools', hm, hinv, hsame⟩ := h.free hq
        refine ⟨_, c', pools', ?_, hinv, fun b _ hb _ => hsame b hb⟩
        rw [HeapClient.step, TlsfMem.tlsfRealloc, if_pos ⟨hzero, hsize⟩, hm, Option.map_some,
          Option.map_some, if_pos ⟨hzero, hsize⟩]
      have hcond : ¬ (q.1 ≠ 0 ∧ size = 0) := fun hand => hsize hand.2
      rcases h.realloc hq (ha.2 hzero hsize) with
        hfail | ⟨p, m', c', pools', hm, hne, hinv, hsame, -⟩
      · refine ⟨s, c, pools, ?_, h, fun b _ _ _ => rfl⟩
        rw [HeapClient.step, hfail, Option.map_some, if_neg hcond, if_pos rfl]
      · refine ⟨_, c', pools', ?_, hinv, fun b hb hb' _ => hsame b hb hb'⟩
        rw [HeapClient.step, hm, Option.map_some, if_neg hcond, if_neg hne]
  | write b v =>
      obtain ⟨q, hq, x, hx, -, hmin, hz⟩ := h.exists_of_owns ha
      have hout : ∀ b' : Addr, b'.toNat < x.1 + 16 ∨ x.1 + 16 + x.2 ≤ b'.toNat →
          Function.update s.heap.mem b v b' = s.heap.mem b' := by
        intro b' hb'
        refine Function.update_of_ne (fun heq => ?_) _ _
        rw [heq] at hb'
        omega
      refine ⟨_, c, pools, rfl, ⟨h.good.store hx hout, h.extents, h.held, h.nodup⟩,
        fun b' _ _ hne => ?_⟩
      exact Function.update_of_ne (fun heq => hne v (by rw [heq])) _ _

/-- The blocks lie apart, in the pool. -/
theorem Inv.apart (h : Inv control lo hi s c pools) :
    (∀ q ∈ s.held, 8 ∣ q.1.toNat ∧ lo + 16 ≤ q.1.toNat ∧
      q.1.toNat + (adjustRequestSize q.2).toNat ≤ hi + 8) ∧
    s.held.Pairwise fun q r => q.1.toNat + (adjustRequestSize q.2).toNat ≤ r.1.toNat ∨
      r.1.toNat + (adjustRequestSize r.2).toNat ≤ q.1.toNat := by
  have hptr : ∀ q ∈ s.held, ∃ x ∈ blocksOf false pools, q.1.toNat = x.1 + 16 ∧
      (adjustRequestSize q.2).toNat ≤ x.2 ∧ 24 ≤ x.2 := by
    intro q hq
    obtain ⟨x, ⟨p, hp⟩, hptr, hrest⟩ := h.held q hq
    have hle := (h.good.layout.headerOk hp).le
    simp only at hle
    exact ⟨x, ⟨p, hp⟩, by rw [hptr, BitVec.toNat_ofNat, Nat.mod_eq_of_lt (by omega)], hrest⟩
  constructor
  · intro q hq
    obtain ⟨x, ⟨p, hp⟩, haddr, hle, hmin⟩ := hptr q hq
    have hin := within_of_extents ⟨p, hp⟩ (by omega) h.extents
    have hd := (h.good.layout.headerOk hp).addr_dvd
    simp only at hd
    omega
  -- different pointers are of different blocks, which lie apart
  · have hne : s.held.Pairwise fun q r => q.1 ≠ r.1 := List.pairwise_map.mp h.nodup
    refine hne.imp_of_mem fun {q r} hq hr hne => ?_
    obtain ⟨x, ⟨p, hp⟩, haddr, hle, hmin⟩ := hptr q hq
    obtain ⟨y, ⟨p', hp'⟩, haddr', hle', hmin'⟩ := hptr r hr
    rcases h.good.layout.eq_or_apart hp (by simp only; omega) hp' with heq | hapart
    · rw [Header.mk.injEq] at heq
      exact absurd (BitVec.eq_of_toNat_eq (by rw [haddr, haddr', heq.1])) hne
    · simp only at hapart
      omega

/-- A program that stores to its own blocks only, and gives back only these, never makes an
assertion of the heap fail. Its blocks are aligned, in the pool and apart from each other, and the
heap does not change their contents, which come along when a block gets another size. Blocks from
`tlsf_memalign` are aligned as they should be. -/
theorem tlsf_client_safe (m : TlsfMem) (control : Addr) (bytes : Tlsf.Size) (hd : 8 ∣ control.toNat)
    (hpos : control.toNat ≠ 0) (hle : control.toNat + bytes.toNat ≤ 2 ^ 64)
    (hmin : 6576 ≤ bytes.toNat) (hmax : bytes.toNat < 2 ^ 32 + 6552) :
    ∃ heap, m.tlsfCreateWithPool control bytes = some (control, heap) ∧
      ∀ s, Machine.Run (HeapClient.step control) HeapClient.Allowed ⟨heap, []⟩ s →
        (∀ a, s.Allowed a → ∃ s', s.step control a = some s' ∧
          ∀ b, s.Owns b → s'.Owns b → (∀ v, a ≠ .write b v) → s'.heap.mem b = s.heap.mem b) ∧
        (∀ k ≤ 62, ∀ size, ∃ p heap', s.step control (.memalign (BitVec.twoPow 64 k) size) =
            some ⟨heap', if p = 0 then s.held else (p, size) :: s.held⟩ ∧ 2 ^ k ∣ p.toNat) ∧
        (∀ q ∈ s.held, ∀ size, adjustRequestSize size ≠ 0 →
          s.step control (.realloc q.1 size) = some s ∨
          ∃ p heap', s.step control (.realloc q.1 size) =
              some ⟨heap', (p, size) :: s.held.filter fun r => r.1 ≠ q.1⟩ ∧
            ∀ i, i < (adjustRequestSize q.2).toNat → i < (adjustRequestSize size).toNat →
              i < size.toNat →
              heap'.mem (p + BitVec.ofNat 64 i) = s.heap.mem (q.1 + BitVec.ofNat 64 i)) ∧
        (∀ q ∈ s.held, 8 ∣ q.1.toNat ∧ control.toNat + 6536 ≤ q.1.toNat ∧
          q.1.toNat + (adjustRequestSize q.2).toNat ≤ control.toNat + bytes.toNat) ∧
        s.held.Pairwise fun q r => q.1.toNat + (adjustRequestSize q.2).toNat ≤ r.1.toNat ∨
          r.1.toNat + (adjustRequestSize r.2).toNat ≤ q.1.toNat := by
  obtain ⟨heap, hcreate, hgood, -⟩ := good_create m hd hpos hle hmin hmax
  obtain ⟨n, hn⟩ : ∃ n, n = (bytes.toNat - 6552) / 8 * 8 := ⟨_, rfl⟩
  rw [← hn] at hgood
  refine ⟨heap, hcreate, fun s hrun => ?_⟩
  -- the invariant of the run
  have hinv : ∃ c pools,
    Inv control (control.toNat + 6528) (control.toNat + 6528 + (8 + n)) s c pools := by
    refine hrun.invariant (I := fun s => ∃ c pools,
      Inv control (control.toNat + 6528) (control.toNat + 6528 + (8 + n)) s c pools) ?_ ?_
    · exact ⟨_, _, hgood, rfl, List.forall_mem_nil _, List.nodup_nil⟩
    · rintro s s' a ⟨c, pools, hinv⟩ hallowed hstep
      obtain ⟨s'', c', pools', hstep', hinv', -⟩ := hinv.step hallowed
      obtain rfl := Option.some.inj (hstep.symm.trans hstep')
      exact ⟨c', pools', hinv'⟩
  obtain ⟨c, pools, hinv⟩ := hinv
  refine ⟨fun a ha => ?_, fun k hk size => ?_, fun q hq size hadjust => ?_,
    fun q hq => ?_, hinv.apart.2⟩
  · obtain ⟨s', -, -, hstep, -, hsame⟩ := hinv.step ha
    exact ⟨s', hstep, hsame⟩
  · obtain ⟨p, m', -, -, hm, hdvd, -⟩ := hinv.memalign hk size
    refine ⟨p, m', ?_, hdvd⟩
    rw [HeapClient.step, hm, Option.map_some]
  · have hcond : ¬ (q.1 ≠ 0 ∧ size = 0) := fun hand => hadjust (by rw [hand.2]; rfl)
    rcases hinv.realloc hq hadjust with hfail | ⟨p, m', c', pools', hm, hne, -, -, hmoved⟩
    · left
      rw [HeapClient.step, hfail, Option.map_some, if_neg hcond, if_pos rfl]
    · right
      refine ⟨p, m', ?_, hmoved⟩
      rw [HeapClient.step, hm, Option.map_some, if_neg hcond, if_neg hne]
  · have := hinv.apart.1 q hq
    omega

/-- A heap of 8 KiB. -/
theorem tlsf_client_safe_eightKilobytes :
    ∃ heap, TlsfMem.tlsfCreateWithPool 4096#64 ⟨fun _ => 0, 0, fun _ => 0, fun _ _ => 0⟩ 8192#64 =
        some (4096#64, heap) ∧
      ∀ s, Machine.Run (HeapClient.step 4096#64) HeapClient.Allowed ⟨heap, []⟩ s →
        ∀ a, s.Allowed a → ∃ s', s.step 4096#64 a = some s' := by
  obtain ⟨heap, hcreate, hsafe⟩ :=
    tlsf_client_safe ⟨fun _ => 0, 0, fun _ => 0, fun _ _ => 0⟩ 4096#64
    8192#64 (by decide) (by decide) (by decide) (by decide) (by decide)
  refine ⟨heap, hcreate, fun s hrun a ha => ?_⟩
  obtain ⟨s', hs', -⟩ := (hsafe s hrun).1 a ha
  exact ⟨s', hs'⟩

end HeapClient

end Koharu
