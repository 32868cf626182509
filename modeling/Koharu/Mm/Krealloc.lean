import Koharu.Lib.Machine
import Koharu.Mm.Kmem
import Koharu.Mm.PendingFrees

/-!
# Reallocating

`krealloc` in `kernel/mm/kmem.c`. On the CPU that a block belongs to it is `tlsf_realloc`, which
extends or trims the block where it is, if it can. On any other CPU the contents are copied to a new
block. Both look at the header to find out how much there is to copy, and one of them subtracts the
size of a header from what it finds.

The proof has two halves. `Reallocated` is what a call comes to for a block that is used as asked:
the heaps are as before, but for this block, and its first bytes are in the new place. It is proved
for `tlsf_realloc`, after which the CPU of the block may flush its list, grow its heap and try
again, and for the copy. The other direction chooses what is in the block, so that its last byte
differs from what comes to be in its place after a request that is not safe.

* `Preserves`: what reallocating a block is for;
* `Safe`: the requests for which neither the block nor the copy is too short;
* `krealloc_preserves_iff`: these are the requests that preserve the contents, for each block that
  has come from `kmalloc`.
-/

namespace Koharu.Kmem

open Machine WordMemory Tiling TlsfMem
open Tlsf (Size Control adjustRequestSize blockSizeMin sizeofBlockHeader)

/-! ### What is asked of it

The property and the condition are both about one call in one state of memory; the property is asked
for all contents of the old block. -/

/-- The number of bytes that a block for `n` bytes and one for `m` bytes have in common, as far as
the old block has them. -/
def common (k : Kmem) (p : Addr) (n m : Size) : ℕ :=
  min (min n.toNat m.toNat) (k.tlsfBlockSize p).toNat

/-- The byte is one of the block's. -/
def InBlock (k : Kmem) (p b : Addr) : Prop := (b - p).toNat < (k.tlsfBlockSize p).toNat

/-- The block is on the `pending_free_list` of the CPU. -/
inductive Pending (k : Kmem) (cpu : CpuId) : Addr → Prop
  | head (hne : (k.cpus cpu).pendingFreeList ≠ 0) : k.Pending cpu (k.cpus cpu).pendingFreeList
  | next {block : Addr} (h : k.Pending cpu block) (hne : load k.mem (block + 16#64) ≠ 0) :
      k.Pending cpu (load k.mem (block + 16#64))

/-- Nothing has happened to the block: it is in use, no CPU has freed it, and it is as it was. -/
structure Kept (k k' : Kmem) (p : Addr) : Prop where
  used : k'.headers.blockIsFree (tlsfPtrToBlock p) = false
  notPending : ∀ cpu, ¬ k'.Pending cpu (tlsfPtrToBlock p)
  size : k'.tlsfBlockSize p = k.tlsfBlockSize p
  owner : k'.owner (virtToPfn p) = k.owner (virtToPfn p)
  bytes : ∀ i < (k.tlsfBlockSize p).toNat,
    k'.mem (p + BitVec.ofNat 64 i) = k.mem (p + BitVec.ofNat 64 i)

/-- Whatever is in the block, `krealloc` of this block for `n` bytes to `m` bytes preserves it: the
new block has these bytes, and they are the same. If it returns `NULL`, the block is as before. -/
def Preserves (clzZero : ℕ) (k : Kmem) (cpu : CpuId) (p : Addr) (n m : Size) : Prop :=
  ∀ mem, (∀ b, ¬ k.InBlock p b → mem b = k.mem b) →
    ∃ q k', krealloc clzZero cpu p m { k with mem } = some (q, k') ∧
      (q = 0 → Kept { k with mem } k' p) ∧
      (q ≠ 0 → k.common p n m ≤ (k'.tlsfBlockSize q).toNat ∧
        ∀ i < k.common p n m, k'.mem (q + BitVec.ofNat 64 i) = mem (p + BitVec.ofNat 64 i))

/-- The block is too small to be split, or it is not trimmed to less than `len` bytes. -/
def TrimSafe (k : Kmem) (p : Addr) (m : Size) (len : ℕ) : Prop :=
  k.tlsfBlockSize p < sizeofBlockHeader + adjustRequestSize m ∨
    adjustRequestSize m ≠ 0 ∧ len ≤ (adjustRequestSize m).toNat

/-- There is no block to copy to, or the first `len` bytes are among what is copied, and the new
block has room for them. -/
def CopySafe (clzZero : ℕ) (k : Kmem) (cpu : CpuId) (p : Addr) (m : Size) (len : ℕ) : Prop :=
  ∃ q k', kmalloc clzZero cpu m k = some (q, k') ∧
    (q = 0 ∨ len ≤ (k.tlsfBlockSize p - tlsfAllocOverhead).toNat ∧ len ≤ (k'.tlsfBlockSize q).toNat)

/-- No part of the first `len` bytes is trimmed or left out of a copy. -/
def Safe (clzZero : ℕ) (k : Kmem) (cpu : CpuId) (p : Addr) (m : Size) (len : ℕ) : Prop :=
  if k.owner (virtToPfn p) = cpu then k.TrimSafe p m len else k.CopySafe clzZero cpu p m len

/-! ### Runs

The traffic of the whole kernel, with the blocks that are live as a ghost. `Allowed` leaves out what
breaks the headers: a release that merges wrongly, and a reallocation that overwrites a header. -/

/-- Where a block has come from. -/
inductive Origin
  | kmalloc (size : Size)
  | krealloc
  deriving DecidableEq

/-- Memory, with the blocks that the kernel has and has not freed, and the pages that are in no
heap. -/
structure Traffic where
  kmem : Kmem
  live : Addr → Option Origin
  taken : Finset Block

/-- What the kernel does with its memory, on all CPUs. -/
inductive Call
  | init (cpu : CpuId)
  | kmalloc (cpu : CpuId) (size : Size)
  | kfree (cpu : CpuId) (p : Addr)
  | krealloc (cpu : CpuId) (p : Addr) (size : Size)
  /-- A store to a block, or to memory that is not in a heap. -/
  | write (a : Addr) (b : BitVec 8)
  /-- `pmm_alloc_pages` and `pmm_free_pages` for others. -/
  | takePages (order : ℤ)
  | freePages (b : Block)

namespace Traffic

/-- Before `percpu_tlsf_init`. -/
def boot (pmm : Pmm) (mem : Addr → BitVec 8) (fields : CpuId → ControlFields) (owner : ℕ → CpuId) :
    Traffic where
  kmem :=
    { mem
      cpus cpu := { tlsfCtrl := 0, fields := fields cpu, pendingFreeList := 0 }
      pmm
      owner
      pages := ∅ }
  live _ := none
  taken := ∅

/-- One call. -/
def step (clzZero : ℕ) (s : Traffic) : Call → Option Traffic
  | .init cpu => (percpuTlsfInit cpu s.kmem).map fun r => { s with kmem := r.2 }
  | .kmalloc cpu size =>
      (Kmem.kmalloc clzZero cpu size s.kmem).map fun (r : Addr × Kmem) => { s with
        kmem := r.2
        live := if r.1 = 0 then s.live else Function.update s.live r.1 (some (.kmalloc size)) }
  | .kfree cpu p => (Kmem.kfree cpu p s.kmem).map fun r => { s with
      kmem := r.2
      live := Function.update s.live p none }
  | .krealloc cpu p size =>
      (Kmem.krealloc clzZero cpu p size s.kmem).map fun (r : Addr × Kmem) => { s with
        kmem := r.2
        live :=
          -- a result other than `NULL` replaces the old block, or comes from `kmalloc` if there was
          -- none; for size 0 `krealloc` frees the block, and on failure it keeps it
          if r.1 ≠ 0 then Function.update (Function.update s.live p none) r.1
            (some (if p = 0 then .kmalloc size else .krealloc))
          else if size = 0 then Function.update s.live p none else s.live }
  | .write a b => some { s with kmem.mem := Function.update s.kmem.mem a b }
  | .takePages order => do
      let alloc ← s.kmem.pmm.pmmAllocPages order
      match alloc.1 with
      | none => return { s with kmem.pmm := alloc.2 }
      | some phys => return { s with
          kmem.pmm := alloc.2
          taken := insert ⟨Pmm.physToPfn phys, order.toNat⟩ s.taken }
  | .freePages b =>
      if b ∈ s.taken then do
        let pmm ← s.kmem.pmm.pmmFreePages (pfnToPhys b.base) b.order
        return { s with kmem.pmm := pmm, taken := s.taken.erase b }
      else none

/-- A reallocation that overwrites no header: the block is not cut to nothing, and what is copied
has room. -/
def Contained (clzZero : ℕ) (k : Kmem) (cpu : CpuId) (p : Addr) (m : Size) : Prop :=
  if k.owner (virtToPfn p) = cpu then k.TrimSafe p m 0
  else ∀ q k', Kmem.kmalloc clzZero cpu m k = some (q, k') →
    q = 0 ∨ tlsfMin m (k.tlsfBlockSize p - tlsfAllocOverhead) ≤ k'.tlsfBlockSize q

/-- A CPU has one heap. Blocks are freed and reallocated while the kernel has them, and never so
that a header is overwritten, and stores are to blocks or not to heaps. Releases of pages meet no
buddy of the wrong order. -/
def Allowed (clzZero : ℕ) (s : Traffic) : Call → Prop
  | .init cpu => (s.kmem.cpus cpu).tlsfCtrl = 0
  | .kmalloc _ _ => True
  | .kfree _ p => p = 0 ∨ s.live p ≠ none
  | .krealloc cpu p size =>
      p = 0 ∨ s.live p ≠ none ∧ (size = 0 ∨ Contained clzZero s.kmem cpu p size)
  | .write a _ => (∃ p, s.live p ≠ none ∧ s.kmem.InBlock p a) ∨
      ∀ c b, (c, b) ∈ s.kmem.pages → a.toNat ∉ mapped b
  | .takePages _ => True
  | .freePages b => s.kmem.pmm.Mergeable b.base b.order

end Traffic

end Koharu.Kmem

/-! ### Blocks and bytes

The addresses of blocks, their sizes and their bytes, in a state of memory that represents the
heaps. -/

namespace Koharu.Heaps

open Kmem Machine WordMemory Tiling TlsfMem
open Tlsf (Size Control adjustRequestSize blockSizeMin sizeofBlockHeader)

variable {taken : Finset Block} {A A' A'' : Heaps} {k k' k'' : Kmem} {cpu d : CpuId} {x y : ℕ × ℕ}
  {mem' : Addr → BitVec 8} {clzZero len : ℕ} {m n : Size} {q : Addr} {h : CpuId × ℕ × ℕ}

/-- An address is the word of its number. -/
theorem ofNat_toNat (b : Addr) : BitVec.ofNat 64 b.toNat = b := by
  rw [BitVec.ofNat_toNat, BitVec.setWidth_eq]

/-- What is in a block does not matter to the heaps. -/
theorem Rep.store (hk : A.Rep k) (hok : A.Ok taken) (hx : (d, x) ∈ A.held)
    (hsame : ∀ b : Addr, b.toNat < x.1 + 16 ∨ x.1 + 16 + x.2 ≤ b.toNat → mem' b = k.mem b) :
    A.Rep { k with mem := mem' } := by
  have hne := control_ne_zero hok hx
  obtain ⟨hd, hd', hmin, -, -, hle⟩ := hk.bounds hok hx
  have hagree : Agree {w | 8 ∣ w ∧ x.1 + 16 ≤ w ∧ w < x.1 + 16 + x.2} k.mem mem' := by
    intro w hw hwn hout
    rw [Set.mem_ofPred_eq] at hout
    apply load_eq_iff.mpr
    intro i hi
    rw [← BitVec.ofNat_add]
    apply hsame _
    rw [BitVec.toNat_ofNat, Nat.mod_eq_of_lt (by omega)]
    omega
  have hS : {w | 8 ∣ w ∧ x.1 + 16 ≤ w ∧ w < x.1 + 16 + x.2} ⊆ A.pagesOf d := fun w hw =>
    mem_words (hok.cpus d) hx.1 (by simp only [Set.mem_ofPred_eq] at hw ⊢; omega)
  have hB : (A.cpus d).Rep mem' (k.cpus d) := by
    have hrep := hk.cpus d
    refine ⟨hrep.control,
      fun _ => (hrep.good hne).store hx.1 hsame, hrep.linked.congr fun y hy => ?_⟩
    obtain ⟨hused, hsize⟩ := (hok.cpus d).used y hy
    have hyb := (hrep.good hne).bounds hused hsize
    -- a pending block is another one
    refine SameBytes.word (fun z hz => hsame _ ?_) hyb.2.2.1
    rw [BitVec.toNat_ofNat, Nat.mod_eq_of_lt (by omega)]
    by_contra hin
    have heq := (hrep.good hne).eq_of_byte (x := x) hx.1 hused (z := z) (by omega) hz
    exact hx.2.2 (heq ▸ hy)
  have hset := hk.set hok hagree hS hB
  simp only [Heaps.set, Function.update_eq_self] at hset
  exact hset

/-- `tlsf_block_size` of a block whose header is in memory. -/
theorem tlsfBlockSize_of_tag {a s : ℕ} {f p : Bool} (htag : wordAt k.mem (a + 8) = tag s f p)
    (hs : 8 ∣ s) (ha : a + 16 < 2 ^ 64) :
    k.tlsfBlockSize (BitVec.ofNat 64 (a + 16)) = BitVec.ofNat 64 s := by
  have hblock : blockFromPtr (BitVec.ofNat 64 (a + 16)) = BitVec.ofNat 64 a :=
    sub_ofNat (by omega) ha
  rw [Kmem.tlsfBlockSize, TlsfMem.tlsfBlockSize, if_neg (ofNat_ne_zero (by omega) ha), hblock]
  exact blockSize_eq htag hs

/-- `tlsf_block_size` of a block that the kernel has, and that it is in use. -/
theorem Rep.header (hk : A.Rep k) (hok : A.Ok taken) (hx : (d, x) ∈ A.held) :
    k.tlsfBlockSize (BitVec.ofNat 64 (x.1 + 16)) = BitVec.ofNat 64 x.2 ∧
      tlsfPtrToBlock (BitVec.ofNat 64 (x.1 + 16)) = BitVec.ofNat 64 x.1 ∧
      k.headers.blockIsFree (BitVec.ofNat 64 x.1) = false := by
  obtain ⟨-, hd, hmin, -, hpos, hle⟩ := hk.bounds hok hx
  obtain ⟨p, hp⟩ := hx.1
  have hgood := (hk.cpus d).good (control_ne_zero hok hx)
  have htag : wordAt k.headers.mem (x.1 + 8) = tag x.2 false p := (hgood.tagged _ hp).1
  refine ⟨tlsfBlockSize_of_tag htag hd (by omega), ?_, blockIsFree_eq htag hd⟩
  rw [tlsfPtrToBlock, if_neg (ofNat_ne_zero (by omega) (by omega))]
  exact sub_ofNat (by omega) (by omega)

/-- `tlsf_block_size` of a block handed out is its size. -/
theorem Rep.toNat_tlsfBlockSize (hk : A.Rep k) (hok : A.Ok taken) (hx : (d, x) ∈ A.held) :
    (k.tlsfBlockSize (BitVec.ofNat 64 (x.1 + 16))).toNat = x.2 := by
  have hlt := (hk.bounds hok hx).2.2.2.1
  rw [(hk.header hok hx).1, toNat_ofNat_of_lt (by omega)]

/-- The bytes of a block are those from its pointer on. -/
theorem Rep.inBlock_iff (hk : A.Rep k) (hok : A.Ok taken) (hx : (d, x) ∈ A.held) (b : Addr) :
    k.InBlock (BitVec.ofNat 64 (x.1 + 16)) b ↔ x.1 + 16 ≤ b.toNat ∧ b.toNat < x.1 + 16 + x.2 := by
  obtain ⟨-, -, hmin, -, -, hle⟩ := hk.bounds hok hx
  have hb := b.isLt
  rw [InBlock, hk.toNat_tlsfBlockSize hok hx, BitVec.toNat_sub, toNat_ofNat_of_lt (by omega)]
  by_cases hlow : x.1 + 16 ≤ b.toNat
  · rw [show 2 ^ 64 - (x.1 + 16) + b.toNat =
      b.toNat - (x.1 + 16) + 2 ^ 64 by omega, Nat.add_mod_right, Nat.mod_eq_of_lt (by omega)]
    omega
  · rw [Nat.mod_eq_of_lt (by omega)]
    omega

/-- Nothing that is pending is a block that the kernel has. -/
theorem Rep.not_pending (hk : A.Rep k) (hok : A.Ok taken) (hx : (d, x) ∈ A.held) (cpu : CpuId) :
    ¬ k.Pending cpu (BitVec.ofNat 64 x.1) := by
  -- what is reached is the head of a rest of the list
  have hlist : ∀ block, k.Pending cpu block → ∃ y l, block = BitVec.ofNat 64 y.1 ∧
      Linked k.mem block (y :: l) ∧ ∀ z ∈ y :: l, z ∈ (A.cpus cpu).pending := by
    intro block hblock
    induction hblock with
    | head hne =>
        have hlinked := (hk.cpus cpu).linked
        cases hpending : (A.cpus cpu).pending with
        | nil =>
            rw [hpending] at hlinked
            exact absurd hlinked hne
        | cons y l =>
            rw [hpending] at hlinked
            exact ⟨y, l, hlinked.1, hlinked, fun z hz => hz⟩
    | next _ hne ih =>
        obtain ⟨y, l, rfl, hlinked, hsub⟩ := ih
        have hword : load k.mem (BitVec.ofNat 64 y.1 + 16#64) = wordAt k.mem (y.1 + 16) := by
          rw [wordAt, BitVec.ofNat_add]
        have hrest := hlinked.2
        rw [hword] at hne ⊢
        cases l with
        | nil => exact absurd hrest hne
        | cons z l => exact ⟨z, l, hrest.1, hrest, fun w hw => hsub w (List.mem_cons_of_mem y hw)⟩
  intro hpending
  obtain ⟨y, l, heq, -, hsub⟩ := hlist _ hpending
  have hy := hsub y List.mem_cons_self
  obtain ⟨hused, hsize⟩ := (hok.cpus cpu).used y hy
  obtain ⟨p, hp⟩ := id hused
  have hxb := hk.bounds hok hx
  have hcontrol : (A.cpus cpu).control ≠ 0 := fun hzero => by
    rw [(hok.cpus cpu).pools hzero] at hp
    cases hp
  have hyb := ((hk.cpus cpu).good hcontrol).bounds hused hsize
  have haddr := (ofNat_inj (by omega) (by omega)).mp heq
  by_cases hd : cpu = d
  · subst hd
    have hsame := ((hk.cpus cpu).good hcontrol).eq_of_ptr hx.1 hxb.2.2.1 hused hyb.2.2.1
      (by rw [haddr])
    exact hx.2.2 (hsame ▸ hy)
  · refine Set.disjoint_left.mp (hok.disjoint hd)
      (mem_words (hok.cpus cpu) hused (w := y.1 + 8) (by omega))
      (mem_words (hok.cpus d) hx.1 (by simp only; omega))

/-- A block that the kernel still has, with what was in it, is as it was. -/
theorem Rep.kept (hk : A.Rep k) (hok : A.Ok taken) (hx : (d, x) ∈ A.held) (hk' : A'.Rep k')
    (hok' : A'.Ok taken) (hx' : (d, x) ∈ A'.held) (hsame : SameBytes k.mem k'.mem x) :
    Kept k k' (BitVec.ofNat 64 (x.1 + 16)) := by
  obtain ⟨hsize, hblock, -⟩ := hk.header hok hx
  obtain ⟨hsize', -, hused⟩ := hk'.header hok' hx'
  have hmin := (hk.bounds hok hx).2.2.1
  refine ⟨?_, fun cpu => ?_, hsize'.trans hsize.symm, ?_, fun i hi => ?_⟩
  · rw [hblock]
    exact hused
  · rw [hblock]
    exact hk'.not_pending hok' hx' cpu
  · rw [hk.owner, hk'.owner, hok.owner_eq hx (by omega), hok'.owner_eq hx' (by omega)]
  · rw [hk.toNat_tlsfBlockSize hok hx] at hi
    rw [← BitVec.ofNat_add]
    exact hsame _ ⟨by omega, by omega⟩

/-! ### What the kernel has after a call

Both paths end in one of two ways: the old block as it was, or a new one that begins with the same
bytes. -/

/-- What a call for another size comes to: either the kernel still has the block as it was, or it
has another one instead, whose first `len` bytes are those of the old one. -/
structure Reallocated (taken : Finset Block) (A : Heaps) (k : Kmem) (h : CpuId × ℕ × ℕ) (len : ℕ)
    (q : Addr) (k' : Kmem) (A' : Heaps) : Prop where
  ok : A'.Ok taken
  rep : A'.Rep k'
  held : A.held \ {h} ⊆ A'.held
  null : q = 0 → h ∈ A'.held ∧ SameBytes k.mem k'.mem h.2
  block : q ≠ 0 → ∃ g ∈ A'.held, g ∉ A.held \ {h} ∧ q = BitVec.ofNat 64 (g.2.1 + 16) ∧ len ≤ g.2.2 ∧
    ∀ i < len, k'.mem (BitVec.ofNat 64 (g.2.1 + 16 + i)) = k.mem (BitVec.ofNat 64 (h.2.1 + 16 + i))

/-- A call after something that has left the blocks alone. -/
theorem Reallocated.after {k₁ : Kmem} (hreal : Reallocated taken A' k₁ h len q k' A'')
    (hheld : A.held ⊆ A'.held) (hsame : SameBytes k.mem k₁.mem h.2) (hlen : len ≤ h.2.2) :
    Reallocated taken A k h len q k' A'' := by
  refine ⟨hreal.ok, hreal.rep, fun g hg => hreal.held ⟨hheld hg.1, hg.2⟩, fun hq => ?_,
    fun hq => ?_⟩
  · exact ⟨(hreal.null hq).1, hsame.trans (hreal.null hq).2⟩
  · obtain ⟨g, hg, hnew, hptr, hle, hbytes⟩ := hreal.block hq
    refine ⟨g, hg, fun hin => hnew ⟨hheld hin.1, hin.2⟩, hptr, hle, fun i hi => ?_⟩
    rw [hbytes i hi]
    exact hsame _ ⟨by omega, by omega⟩

/-- The block is as it was. -/
theorem reallocated_null (hlead : A'.Ok taken) (hrep : A'.Rep k') (hheld : A.held ⊆ A'.held)
    (hh : h ∈ A.held) (hsame : SameBytes k.mem k'.mem h.2) : Reallocated taken A k h len 0 k' A' :=
  ⟨hlead, hrep, Set.sdiff_subset.trans hheld, fun _ => ⟨hheld hh, hsame⟩, fun hne => absurd rfl hne⟩

/-! ### The CPU of the block

`tlsf_realloc` decides between staying, merging with the block behind, and moving. If it returns
`NULL`, the heap is flushed or grown first and then asked again. -/

/-- `tlsf_realloc` of a block that is not cut to less than `len` bytes. If it returns `NULL`,
nothing has changed. -/
theorem exists_tlsfRealloc (hk : A.Rep k) (hok : A.Ok taken) (hx : (cpu, x) ∈ A.held) (hm : m ≠ 0)
    (hlen : len ≤ x.2) (hlenm : len ≤ m.toNat)
    (hsafe : x.2 < 32 + (adjustRequestSize m).toNat ∨
      adjustRequestSize m ≠ 0 ∧ len ≤ (adjustRequestSize m).toNat) :
    Kmem.tlsfRealloc cpu (BitVec.ofNat 64 (x.1 + 16)) m k = some (0, k) ∨
    ∃ q k' A', Kmem.tlsfRealloc cpu (BitVec.ofNat 64 (x.1 + 16)) m k = some (q, k') ∧ q ≠ 0 ∧
      Reallocated taken A k (cpu, x) len q k' A' := by
  obtain ⟨hxused, hxsize, hxpending⟩ : x ∈ (A.cpus cpu).held := id hx
  have hne := control_ne_zero hok hx
  have hgood := (hk.cpus cpu).good hne
  obtain ⟨-, -, hmin, -, hpos, hle⟩ := hk.bounds hok hx
  have hptr := ofNat_ne_zero (show 0 < x.1 + 16 by omega) (by omega)
  have hsetself : { k with
      mem := ((k.cpus cpu).heap k.mem).mem
      cpus := Function.update k.cpus cpu ((k.cpus cpu).setHeap ((k.cpus cpu).heap k.mem)) } =
        k := by
    simp only [Cpu.setHeap, Cpu.heap, Function.update_eq_self]
  by_cases hstays : (adjustRequestSize m).toNat ≤ x.2 ∧ x.2 < 32 + (adjustRequestSize m).toNat
  · refine .inr ⟨_, k, A, ?_, hptr, hok, hk, Set.sdiff_subset, fun hzero => absurd hzero hptr,
      fun _ =>
      ⟨(cpu, x), hx, fun hin => hin.2 rfl, rfl, hlen, fun _ _ => rfl⟩⟩
    rw [Kmem.tlsfRealloc, hk.onHeap_eq hne,
      hgood.tlsfRealloc_stays hxused hxsize hm hstays.1 hstays.2, Option.map_some, hsetself]
  have hadjust : adjustRequestSize m ≠ 0 := by
    rintro hzero
    rw [hzero] at hstays hsafe
    have hnat : (0 : Size).toNat = 0 := rfl
    rcases hsafe with hlt | hand
    · omega
    · exact hand.1 rfl
  rcases hgood.tlsfRealloc hxused hxsize hadjust with
    hnull | ⟨y, m', c', pools', hcall, hgood', hmoves, hfit, hkeeps⟩
  · left
    rw [Kmem.tlsfRealloc, hk.onHeap_eq hne, hnull, Option.map_some, hsetself]
  right
  obtain ⟨hnew, hused, hext⟩ := hmoves
  have hyused : y ∈ blocksOf false pools' := by
    rw [hused]
    exact Set.mem_insert _ _
  have hymin := (adjust_spec hadjust).1
  have hyb := hgood'.bounds hyused (by omega)
  -- pending blocks are neither the old block nor the new one
  have hpending : ∀ z ∈ (A.cpus cpu).pending, z ∈ blocksOf false pools' ∧ z ≠ y := fun z hz => by
    have hzx : z ∈ blocksOf false (A.cpus cpu).pools \ {x} :=
      ⟨((hok.cpus cpu).used z hz).1, fun heq => hxpending (Set.mem_singleton_iff.mp heq ▸ hz)⟩
    refine ⟨by rw [hused]; exact .inr hzx, fun heq => hnew (heq ▸ hzx)⟩
  have hB := (hok.cpus cpu).retile (c := c') hne hext fun z hz => (hpending z hz).1
  have hS : HeapWords (A.cpus cpu).control pools' ⊆ A.pagesOf cpu := hB.words hne
  have hrep := (hk.cpus cpu).retile (hok.cpus cpu) hne hgood' fun z hz =>
    hkeeps.other z (hpending z hz).1 (hpending z hz).2
  have hyheld : (cpu, y) ∈ (A.set cpu ((A.cpus cpu).retile c' pools')).held := by
    change y ∈ ((A.set cpu _).cpus cpu).held
    rw [set_cpus]
    exact ⟨hyused, by omega, fun hin => (hpending y hin).2 rfl⟩
  refine ⟨_, _, A.set cpu ((A.cpus cpu).retile c' pools'), ?_,
    ofNat_ne_zero (show 0 < y.1 + 16 by omega)
    (by omega), hok.set hB, hk.set hok hkeeps.agree hS hrep, ?_, fun hzero => ?_, fun _ =>
      ⟨(cpu, y), hyheld, fun hin => ?_, rfl, ?_, fun i hi => ?_⟩⟩
  · rw [Kmem.tlsfRealloc, hk.onHeap_eq hne, hcall, Option.map_some]
  · rintro ⟨d, z⟩ ⟨hz, hzx⟩
    change z ∈ ((A.set cpu _).cpus d).held
    by_cases hd : d = cpu
    · subst hd
      rw [set_cpus]
      refine ⟨?_, hz.2⟩
      rw [CpuHeap.retile, hused]
      exact .inr ⟨hz.1, fun heq => hzx (by rw [Set.mem_singleton_iff.mp heq]; rfl)⟩
    · rw [set_cpus_of_ne A _ hd]
      exact hz
  · exact absurd hzero (ofNat_ne_zero (by omega) (by omega))
  · exact hnew ⟨hin.1.1, fun heq => hin.2 (by rw [Set.mem_singleton_iff.mp heq]; rfl)⟩
  · simp only
    omega
  · exact hkeeps.moved i (by omega) (by omega) (.inr (by omega))

/-- `tlsf_realloc`, and what is done if it returns `NULL`. -/
theorem exists_orElse {f : KmemM Addr} (hk : A.Rep k) (hok : A.Ok taken) (hx : (cpu, x) ∈ A.held)
    (hm : m ≠ 0) (hlen : len ≤ x.2) (hlenm : len ≤ m.toNat)
    (hsafe : x.2 < 32 + (adjustRequestSize m).toNat ∨
      adjustRequestSize m ≠ 0 ∧ len ≤ (adjustRequestSize m).toNat)
    (hf : ∃ q k' A', f k = some (q, k') ∧ Reallocated taken A k (cpu, x) len q k' A') :
    ∃ q k' A', (Kmem.tlsfRealloc cpu (BitVec.ofNat 64 (x.1 + 16)) m >>= fun ptr =>
        if ptr ≠ 0 then pure ptr else f) k = some (q, k') ∧
          Reallocated taken A k (cpu, x) len q k' A' := by
  rcases exists_tlsfRealloc hk hok hx hm hlen hlenm hsafe with hnull | ⟨q, k', A', hcall, hq, hreal⟩
  · obtain ⟨q, k', A', hcall, hreal⟩ := hf
    refine ⟨q, k', A', ?_, hreal⟩
    rw [bind_of_eq_some hnull, if_neg (not_not.mpr rfl), hcall]
  · refine ⟨q, k', A', ?_, hreal⟩
    rw [bind_of_eq_some hcall, if_pos hq]
    rfl

/-- `krealloc` on the CPU of the block. -/
theorem kreallocOwner_spec (clzZero : ℕ) (hk : A.Rep k) (hok : A.Ok taken) (hx : (cpu, x) ∈ A.held)
    (hm : m ≠ 0) (hlen : len ≤ x.2) (hlenm : len ≤ m.toNat)
    (hsafe : x.2 < 32 + (adjustRequestSize m).toNat ∨
      adjustRequestSize m ≠ 0 ∧ len ≤ (adjustRequestSize m).toNat) :
    ∃ q k' A', Kmem.kreallocOwner clzZero cpu (BitVec.ofNat 64 (x.1 + 16)) m k = some (q, k') ∧
      Reallocated taken A k (cpu, x) len q k' A' := by
  apply exists_orElse hk hok hx hm hlen hlenm hsafe
  -- the second try is after the list of the CPU is flushed, the third after the heap has grown
  obtain ⟨A₁, hflush⟩ := leads_flush hok hk (control_ne_zero hok hx)
  obtain ⟨k₁, hcall₁, hk₁, -, hsame₁⟩ := hflush.run k hk
  have hx₁ := hflush.held hx
  obtain ⟨added, A₂, hadd⟩ := leads_addPages clzZero hflush.ok hk₁ (control_ne_zero hflush.ok hx₁) m
  obtain ⟨k₂, hcall₂, hk₂, -, hsame₂⟩ := hadd.run k₁ hk₁
  have hx₂ := hadd.held hx₁
  have hslow : ∃ q k' A', (do
      let added ← Kmem.addPages clzZero cpu m
      if added = true then Kmem.tlsfRealloc cpu (BitVec.ofNat 64 (x.1 + 16)) m else pure 0) k₁ =
        some (q, k') ∧ Reallocated taken A₁ k₁ (cpu, x) len q k' A' := by
    rw [bind_of_eq_some hcall₂]
    cases added with
    | false => exact ⟨0, k₂, A₂, rfl, reallocated_null hadd.ok hk₂ hadd.held hx₁ (hsame₂ _ hx₁)⟩
    | true =>
        rcases exists_tlsfRealloc hk₂ hadd.ok hx₂ hm hlen hlenm hsafe with
          hnull | ⟨q, k', A', hcall, -, hreal⟩
        · exact ⟨0, k₂, A₂, hnull, reallocated_null hadd.ok hk₂ hadd.held hx₁ (hsame₂ _ hx₁)⟩
        · exact ⟨q, k', A', hcall, hreal.after hadd.held (hsame₂ _ hx₁) hlen⟩
  obtain ⟨q, k', A', hcall, hreal⟩ := exists_orElse hk₁ hflush.ok hx₁ hm hlen hlenm hsafe hslow
  exact ⟨q, k', A', (bind_of_eq_some hcall₁).trans hcall,
    hreal.after hflush.held (hsame₁ _ hx) hlen⟩

/-! ### Another CPU

A new block is allocated on the calling processor, part of the old one is copied, and the old one
becomes pending on its own processor. -/

/-- What is copied, and what is not touched when the old block is pushed on the list of its CPU. -/
structure Copied (k k₁ k' : Kmem) (x y : ℕ × ℕ) (count : ℕ) : Prop where
  copied : ∀ i < count, i < y.2 →
    k'.mem (BitVec.ofNat 64 (y.1 + 16 + i)) = k.mem (BitVec.ofNat 64 (x.1 + 16 + i))
  rest : ∀ i, count ≤ i → i < y.2 →
    k'.mem (BitVec.ofNat 64 (y.1 + 16 + i)) = k₁.mem (BitVec.ofNat 64 (y.1 + 16 + i))
  header : k'.tlsfBlockSize (BitVec.ofNat 64 (y.1 + 16)) = BitVec.ofNat 64 y.2

/-- `krealloc` on another CPU. The copy may be longer than the new block. -/
theorem kreallocForeign_spec {clzZero : ℕ} (hk : A.Rep k) (hok : A.Ok taken) (hx : (d, x) ∈ A.held)
    (hd : d ≠ cpu) (hmalloc : Leads taken A (Kmem.kmalloc clzZero cpu m) q A' A.held)
    (hq : Allocated A A' cpu m q) {count : ℕ}
    (hcount : count = (tlsfMin m (BitVec.ofNat 64 x.2 - tlsfAllocOverhead)).toNat) :
    ∃ k₁, Kmem.kmalloc clzZero cpu m k = some (q, k₁) ∧ A'.Rep k₁ ∧ SameBytes k.mem k₁.mem x ∧
      (q = 0 → Kmem.kreallocForeign clzZero cpu (BitVec.ofNat 64 (x.1 + 16)) m k = some (0, k₁)) ∧
      (q ≠ 0 → ∃ y k', (cpu, y) ∈ A'.held ∧ (cpu, y) ∉ A.held ∧ q = BitVec.ofNat 64 (y.1 + 16) ∧
        Kmem.kreallocForeign clzZero cpu (BitVec.ofNat 64 (x.1 + 16)) m k = some (q, k') ∧
        Copied k k₁ k' x y count ∧ (count ≤ y.2 → ∃ B : Heaps, B.Ok taken ∧ B.Rep k' ∧
          A'.held \ {(d, x)} ⊆ B.held)) := by
  have hxb := hk.bounds hok hx
  obtain ⟨k₁, hcall, hk₁, -, hsame⟩ := hmalloc.run k hk
  have hx₁ := hmalloc.held hx
  have hsmall : count ≤ x.2 - 8 := by
    have hover : tlsfAllocOverhead.toNat = 8 := rfl
    have hsize : (BitVec.ofNat 64 x.2).toNat = x.2 := toNat_ofNat_of_lt (by omega)
    have hsub : (BitVec.ofNat 64 x.2 - tlsfAllocOverhead).toNat = x.2 - 8 := by
      rw [BitVec.toNat_sub_of_le (BitVec.le_def.mpr (by omega)), hsize, hover]
    rw [hcount, tlsfMin]
    split
    case isTrue hlt =>
      have hlt' := BitVec.lt_def.mp hlt
      omega
    case isFalse => exact hsub.le
  -- the call, up to the copy
  have hstart : Kmem.kreallocForeign clzZero cpu (BitVec.ofNat 64 (x.1 + 16)) m k =
      (if q = 0 then pure 0 else do
        modify fun k => { k with mem := memcpy q (BitVec.ofNat 64 (x.1 + 16)) count k.mem }
        Kmem.kfree cpu (BitVec.ofNat 64 (x.1 + 16))
        pure q : KmemM Addr) k₁ := by
    rw [Kmem.kreallocForeign, get_bind, (hk.header hok hx).1, bind_of_eq_some hcall, ← hcount]
  refine ⟨k₁, hcall, hk₁, hsame _ hx, fun hzero => ?_, fun hne => ?_⟩
  · rw [hstart, if_pos hzero]
    rfl
  obtain ⟨y, hptr, -, hynew, hyheld, -, -⟩ := hq.resolve_left hne
  have hyb := hk₁.bounds hmalloc.ok hyheld
  have hapart := hk₁.apart hmalloc.ok hx₁ hyheld fun heq => hd (Prod.mk.inj heq).1
  have hyend : y.1 + 16 < 2 ^ 64 - 2 ^ 46 := by
    obtain ⟨b, hb, hw⟩ :=
      mem_words (hmalloc.ok.cpus cpu) hyheld.1 (w := y.1 + 16) (by simp only; omega)
    exact (hmalloc.ok.pages.lt_of_mapped hb hw).2
  have hcopy := memcpy_apply (d := y.1 + 16) (s := x.1 + 16) count k₁.mem (by omega) (by omega)
    (by omega)
  obtain ⟨k₂, hk₂⟩ : ∃ k₂ : Kmem, k₂ = { k₁ with
    mem := memcpy (BitVec.ofNat 64 (y.1 + 16))
      (BitVec.ofNat 64 (x.1 + 16)) count k₁.mem } := ⟨_, rfl⟩
  have hmem₂ : k₂.mem = memcpy (BitVec.ofNat 64 (y.1 + 16))
    (BitVec.ofNat 64 (x.1 + 16)) count k₁.mem := by
    rw [hk₂]
  have hfree : Kmem.kfree cpu (BitVec.ofNat 64 (x.1 + 16)) k₂ =
      Kmem.tlsfPushPending d (BitVec.ofNat 64 (x.1 + 16)) k₂ := by
    have howner : k₂.owner (virtToPfn (BitVec.ofNat 64 (x.1 + 16))) = d := by
      rw [hk₂]
      exact (congrFun hk₁.owner _).trans (hmalloc.ok.owner_eq hx₁ (by omega))
    rw [Kmem.kfree, if_neg (ofNat_ne_zero (by omega) (by omega)), get_bind, howner,
      if_neg (Ne.symm hd)]
  obtain ⟨head, hhead⟩ : ∃ head, head = (k₂.cpus d).pendingFreeList := ⟨_, rfl⟩
  obtain ⟨k₃, hpush, hmem₃⟩ : ∃ k₃,
    Kmem.tlsfPushPending d (BitVec.ofNat 64 (x.1 + 16)) k₂ = some ((), k₃) ∧
      k₃.mem = store k₂.mem (BitVec.ofNat 64 (x.1 + 16)) head := by
    refine ⟨_, rfl, ?_⟩
    rw [hhead]
    simp only [(hk.header hok hx).2.1]
    rw [show (16#64 : Addr) = BitVec.ofNat 64 16 from rfl, ← BitVec.ofNat_add]
  -- neither the new block nor its header is touched when the old block is pushed
  have hsame₃ : ∀ z, y.1 + 8 ≤ z → z < y.1 + 16 + y.2 →
    k₃.mem (BitVec.ofNat 64 z) = k₂.mem (BitVec.ofNat 64 z) :=
    fun z hlo hhi => by
      rw [hmem₃]
      exact store_apply (by omega) (by omega) (by omega) _ _
  have hbyte : ∀ z, z < 2 ^ 64 → k₂.mem (BitVec.ofNat 64 z) =
      if y.1 + 16 ≤ z ∧ z <
      y.1 + 16 + count then k₁.mem (BitVec.ofNat 64 (x.1 + 16 + (z - (y.1 + 16))))
      else k₁.mem (BitVec.ofNat 64 z) := fun z hz => by
    rw [hmem₂, hcopy, toNat_ofNat_of_lt hz]
  refine ⟨y, k₃, hyheld, hynew, hptr, ?_, ⟨fun i hi hiy => ?_, fun i hi hiy => ?_, ?_⟩,
    fun hfit => ?_⟩
  · rw [hstart, if_neg hne, modify_bind, hptr, ← hk₂, bind_of_eq_some (hfree.trans hpush)]
    rfl
  · rw [hsame₃ _ (by omega) (by omega), hbyte _ (by omega), if_pos (by omega),
      Nat.add_sub_cancel_left]
    exact hsame _ hx _ ⟨by simp only; omega, by simp only; omega⟩
  · rw [hsame₃ _ (by omega) (by omega), hbyte _ (by omega), if_neg (by omega)]
  · obtain ⟨p, hp⟩ := hyheld.1
    have htag := (((hk₁.cpus cpu).good (control_ne_zero hmalloc.ok hyheld)).tagged _ hp).1
    have hword : wordAt k₃.mem (y.1 + 8) = wordAt k₁.mem (y.1 + 8) := by
      apply load_eq_iff.mpr
      intro i hi
      rw [← BitVec.ofNat_add, hsame₃ _ (by omega) (by omega), hbyte _ (by omega), if_neg (by omega)]
    exact tlsfBlockSize_of_tag (hword.trans htag) hyb.2.1 (by omega)
  · have hrep₂ : A'.Rep k₂ := by
      rw [hk₂]
      apply hk₁.store hmalloc.ok hyheld
      intro b hb
      rw [hcopy, if_neg (by omega)]
    have hlead := leads_push hmalloc.ok hrep₂ hx₁
    obtain ⟨k', hpush', hrep', -⟩ := hlead.run k₂ hrep₂
    obtain rfl : k₃ = k' := (Prod.mk.inj (Option.some.inj (hpush.symm.trans hpush'))).2
    exact ⟨_, hlead.ok, hrep', hlead.held⟩

/-! ### Which requests are safe

The two directions of the equivalence. For the one that refutes, a contents of the old block is
found that the call does not preserve. -/

/-- An adjusted request is below 2^32. -/
theorem adjust_lt (m : Size) : (adjustRequestSize m).toNat < 2 ^ 32 := by
  by_cases hzero : adjustRequestSize m = 0
  · rw [hzero]
    decide
  · exact (adjust_spec hzero).2.2.1

/-- The sizes, as numbers. -/
theorem Rep.trimSafe_iff (hk : A.Rep k) (hok : A.Ok taken) (hx : (d, x) ∈ A.held) :
    k.TrimSafe (BitVec.ofNat 64 (x.1 + 16)) m len ↔ x.2 < 32 + (adjustRequestSize m).toNat ∨
      adjustRequestSize m ≠ 0 ∧ len ≤ (adjustRequestSize m).toNat := by
  have hlt := adjust_lt m
  have hheader : sizeofBlockHeader.toNat = 32 := rfl
  have hsum : (sizeofBlockHeader + adjustRequestSize m).toNat =
    32 + (adjustRequestSize m).toNat := by
    rw [BitVec.toNat_add, hheader, Nat.mod_eq_of_lt (by omega)]
  rw [TrimSafe, BitVec.lt_def, hk.toNat_tlsfBlockSize hok hx, hsum]

/-- Blocks at the same address are the same. -/
theorem Rep.eq_of_ptr (hk : A.Rep k) (hok : A.Ok taken) (hx : (d, x) ∈ A.held)
    (hy : (cpu, y) ∈ A.held) (heq : BitVec.ofNat 64 (x.1 + 16) = BitVec.ofNat 64 (y.1 + 16)) :
    (d, x) = (cpu, y) := by
  have hxb := hk.bounds hok hx
  have hyb := hk.bounds hok hy
  by_contra hne
  have hapart := hk.apart hok hx hy hne
  have haddr := (ofNat_inj (by omega) (by omega)).mp heq
  omega

/-- `krealloc` of a block, to a size that is not zero. -/
theorem Rep.krealloc_eq (hk : A.Rep k) (hok : A.Ok taken) (hx : (d, x) ∈ A.held) (hm : m ≠ 0) :
    Kmem.krealloc clzZero cpu (BitVec.ofNat 64 (x.1 + 16)) m k =
      (if cpu ≠ d then Kmem.kreallocForeign clzZero cpu (BitVec.ofNat 64 (x.1 + 16)) m
        else Kmem.kreallocOwner clzZero cpu (BitVec.ofNat 64 (x.1 + 16)) m) k := by
  have hxb := hk.bounds hok hx
  rw [Kmem.krealloc, if_neg (ofNat_ne_zero (by omega) (by omega)), if_neg hm, get_bind, hk.owner,
    hok.owner_eq hx (by omega)]

/-- Other contents of the block. -/
theorem Rep.store_inBlock (hk : A.Rep k) (hok : A.Ok taken) (hx : (d, x) ∈ A.held)
    (hmem : ∀ b, ¬ k.InBlock (BitVec.ofNat 64 (x.1 + 16)) b → mem' b = k.mem b) :
    A.Rep { k with mem := mem' } := by
  refine hk.store hok hx fun b hb => hmem b fun hin => ?_
  have := (hk.inBlock_iff hok hx b).mp hin
  omega

section Preserves

variable (hk : A.Rep k) (hok : A.Ok taken) (hx : (d, x) ∈ A.held) (hm : m ≠ 0)

include hk hok hx hm

/-- On the CPU of the block. -/
theorem preserves_of_trimSafe (n : Size)
    (hsafe : k.TrimSafe (BitVec.ofNat 64 (x.1 + 16)) m
    (k.common (BitVec.ofNat 64 (x.1 + 16)) n m)) :
    Preserves clzZero k d (BitVec.ofNat 64 (x.1 + 16)) n m := by
  intro mem hmem
  -- the stores before the call are inside the block, so that the heaps still represent the state
  have hkmem := hk.store_inBlock hok hx hmem
  have hsize := hk.toNat_tlsfBlockSize hok hx
  obtain ⟨len, hlen⟩ : ∃ len, len = k.common (BitVec.ofNat 64 (x.1 + 16)) n m := ⟨_, rfl⟩
  rw [← hlen] at hsafe ⊢
  rw [common, hsize] at hlen
  obtain ⟨q, k', A', hcall, hreal⟩ := kreallocOwner_spec clzZero hkmem hok hx hm (by omega)
    (by omega) ((hk.trimSafe_iff hok hx).mp hsafe)
  refine ⟨q, k', ?_, fun hzero => ?_, fun hne => ?_⟩
  · rw [hkmem.krealloc_eq hok hx hm, if_neg (not_not.mpr rfl), hcall]
  · obtain ⟨hheld, hsame⟩ := hreal.null hzero
    exact hkmem.kept hok hx hreal.rep hreal.ok hheld hsame
  · obtain ⟨⟨e, y⟩, hy, -, hptr, hle, hbytes⟩ := hreal.block hne
    rw [hptr, hreal.rep.toNat_tlsfBlockSize hreal.ok hy]
    refine ⟨hle, fun i hi => ?_⟩
    rw [← BitVec.ofNat_add, ← BitVec.ofNat_add]
    exact hbytes i hi

/-- On another CPU. -/
theorem preserves_of_copySafe (hd : d ≠ cpu) (n : Size)
    (hsafe : k.CopySafe clzZero cpu (BitVec.ofNat 64 (x.1 + 16)) m
      (k.common (BitVec.ofNat 64 (x.1 + 16)) n m)) :
    Preserves clzZero k cpu (BitVec.ofNat 64 (x.1 + 16)) n m := by
  intro mem hmem
  have hkmem := hk.store_inBlock hok hx hmem
  have hsize := hk.header hok hx
  obtain ⟨q, k₁, hcall, hfit⟩ := hsafe
  rcases kmalloc_cases clzZero hok hk cpu m with hnone | ⟨q', A', hlead, hq⟩
  · rw [hnone k hk] at hcall
    cases hcall
  -- `kmalloc` does the same whatever is in the block
  obtain ⟨k₁', hcall', hk₁, -⟩ := hlead.run k hk
  obtain ⟨rfl, rfl⟩ := Prod.mk.inj (Option.some.inj (hcall.symm.trans hcall'))
  obtain ⟨k₂, -, hk₂, hsame, hnull, hcopy⟩ := kreallocForeign_spec hkmem hok hx hd hlead hq rfl
  by_cases hzero : q = 0
  · refine ⟨0, k₂, ?_, fun _ => ?_, fun hne => absurd rfl hne⟩
    · rw [hkmem.krealloc_eq hok hx hm, if_pos (Ne.symm hd), hnull hzero]
    · exact hkmem.kept hok hx hk₂ hlead.ok (hlead.held hx) hsame
  obtain ⟨y, k', hy, -, hptr, hrealloc, hcopied, -⟩ := hcopy hzero
  refine ⟨q, k', ?_, fun heq => absurd heq hzero, fun _ => ?_⟩
  · rw [hkmem.krealloc_eq hok hx hm, if_pos (Ne.symm hd), hrealloc]
  obtain ⟨hle, hfit⟩ := hfit.resolve_left hzero
  have hyb := hk₁.bounds hlead.ok hy
  rw [hptr, hk₁.toNat_tlsfBlockSize hlead.ok hy] at hfit
  rw [hptr, hcopied.header, toNat_ofNat_of_lt (by omega)]
  refine ⟨hfit, fun i hi => ?_⟩
  -- the bytes to keep are among those that are copied
  have hcount : i < (tlsfMin m (BitVec.ofNat 64 x.2 - tlsfAllocOverhead)).toNat := by
    have him : i < m.toNat := hi.trans_le ((min_le_left _ _).trans (min_le_right _ _))
    rw [hsize.1] at hle
    rw [tlsfMin]
    split
    · exact him
    · omega
  rw [← BitVec.ofNat_add, ← BitVec.ofNat_add]
  exact hcopied.copied i hcount (by omega)

/-- A block that is cut has no more than it was cut to. -/
theorem trimSafe_of_preserves {n : Size} (hpos : 0 < k.common (BitVec.ofNat 64 (x.1 + 16)) n m)
    (hpreserves : Preserves clzZero k d (BitVec.ofNat 64 (x.1 + 16)) n m) :
    k.TrimSafe (BitVec.ofNat 64 (x.1 + 16)) m (k.common (BitVec.ofNat 64 (x.1 + 16)) n m) := by
  obtain ⟨-, -, hmin, -, hpos', hle⟩ := hk.bounds hok hx
  have hptr := ofNat_ne_zero (show 0 < x.1 + 16 by omega) (by omega)
  have hadjust := adjust_lt m
  rw [hk.trimSafe_iff hok hx]
  -- otherwise the block is trimmed, and its new size shows that too little is left
  by_contra hunsafe
  obtain ⟨hroom, hcut⟩ := not_or.mp hunsafe
  obtain ⟨m', c', pools', hcall, hgood, hin⟩ :=
    ((hk.cpus d).good (control_ne_zero hok hx)).tlsfRealloc_trims hx.1 hm (not_lt.mp hroom)
  obtain ⟨k', hk'⟩ : ∃ k' : Kmem, k' = { k with
    mem := m'.mem
    cpus := Function.update k.cpus d ((k.cpus d).setHeap m') } := ⟨_, rfl⟩
  have hstep : Kmem.tlsfRealloc d (BitVec.ofNat 64 (x.1 + 16)) m k =
      some (BitVec.ofNat 64 (x.1 + 16), k') := by
    rw [Kmem.tlsfRealloc, hk.onHeap_eq (control_ne_zero hok hx), hcall, Option.map_some, hk']
  have howner : Kmem.kreallocOwner clzZero d (BitVec.ofNat 64 (x.1 + 16)) m k =
      some (BitVec.ofNat 64 (x.1 + 16), k') := by
    rw [Kmem.kreallocOwner, bind_of_eq_some hstep, if_pos hptr]
    rfl
  -- the header that the trimming has stored
  have hsize : (k'.tlsfBlockSize (BitVec.ofNat 64 (x.1 + 16))).toNat =
    (adjustRequestSize m).toNat := by
    obtain ⟨p, hp⟩ := hin
    have htag : wordAt k'.mem (x.1 + 8) = tag (adjustRequestSize m).toNat false p := by
      rw [hk']
      exact (hgood.tagged _ hp).1
    rw [tlsfBlockSize_of_tag htag (hgood.layout.headerOk hp).size_dvd (by omega),
      toNat_ofNat_of_lt (by omega)]
  obtain ⟨q, k'', hrealloc, -, hblock⟩ := hpreserves k.mem fun _ _ => rfl
  have heq := hrealloc.symm.trans (hk.krealloc_eq hok hx hm)
  rw [if_neg (not_not.mpr rfl), howner] at heq
  obtain ⟨rfl, rfl⟩ := Prod.mk.inj (Option.some.inj heq)
  have hfit := (hblock hptr).1
  rw [hsize] at hfit
  refine hcut ⟨fun hzero => ?_, hfit⟩
  rw [hzero] at hfit
  exact absurd hfit (not_le.mpr hpos)

/-- The last word of a block is not copied, and no header that is stored to the new block is like
everything that there may be in it. -/
theorem copySafe_of_preserves (hd : d ≠ cpu) {n : Size}
    (hpreserves : Preserves clzZero k cpu (BitVec.ofNat 64 (x.1 + 16)) n m) :
    k.CopySafe clzZero cpu (BitVec.ofNat 64 (x.1 + 16)) m
      (k.common (BitVec.ofNat 64 (x.1 + 16)) n m) := by
  obtain ⟨-, hxd, hxmin, hxlt, hxpos, hxle⟩ := hk.bounds hok hx
  have hforeign : ∀ k : Kmem, A.Rep k → Kmem.krealloc clzZero cpu (BitVec.ofNat 64 (x.1 + 16)) m k =
      Kmem.kreallocForeign clzZero cpu (BitVec.ofNat 64 (x.1 + 16)) m k := fun k hk => by
    rw [hk.krealloc_eq hok hx hm, if_pos (Ne.symm hd)]
  rcases kmalloc_cases clzZero hok hk cpu m with hnone | ⟨q, A', hlead, hq⟩
  · -- there is no result
    obtain ⟨q, k', hrealloc, -⟩ := hpreserves k.mem fun _ _ => rfl
    have heq := hrealloc.symm.trans (hforeign k hk)
    rw [Kmem.kreallocForeign, get_bind, bind_of_eq_none (hnone k hk)] at heq
    cases heq
  obtain ⟨k₁, hcall, hk₁, -⟩ := hlead.run k hk
  refine ⟨q, k₁, hcall, ?_⟩
  by_cases hzero : q = 0
  · exact .inl hzero
  right
  obtain ⟨y, hptr, -, hynew, hyheld, -, -⟩ := hq.resolve_left hzero
  obtain ⟨hyd, hyd', hymin, hylt, hypos, hyle⟩ := hk₁.bounds hlead.ok hyheld
  have hapart := hk₁.apart hlead.ok (hlead.held hx) hyheld fun heq => hd (Prod.mk.inj heq).1
  -- what becomes of any contents
  have hcopied : ∀ mem, (∀ b, ¬ k.InBlock (BitVec.ofNat 64 (x.1 + 16)) b → mem b = k.mem b) →
      ∃ k₁ k', Stores Set.univ mem k₁.mem ∧
        Copied { k with mem } k₁ k' x y
        (tlsfMin m (BitVec.ofNat 64 x.2 - tlsfAllocOverhead)).toNat ∧
        k.common (BitVec.ofNat 64 (x.1 + 16)) n m ≤ y.2 ∧
        ∀ i < k.common (BitVec.ofNat 64 (x.1 + 16)) n m,
          k'.mem (BitVec.ofNat 64 (y.1 + 16 + i)) = mem (BitVec.ofNat 64 (x.1 + 16 + i)) := by
    intro mem hmem
    have hkmem := hk.store_inBlock hok hx hmem
    obtain ⟨k₂, hcall₂, -, -, -, hcopy⟩ := kreallocForeign_spec hkmem hok hx hd hlead hq rfl
    obtain ⟨k₂', hcall₂', -, hstores, -⟩ := hlead.run _ hkmem
    obtain rfl : k₂ = k₂' := (Prod.mk.inj (Option.some.inj (hcall₂.symm.trans hcall₂'))).2
    obtain ⟨z, k', hz, -, hzptr, hrealloc, hcopied, -⟩ := hcopy hzero
    obtain rfl : z = y := (Prod.mk.inj (hk₁.eq_of_ptr hlead.ok hz hyheld (hzptr.symm.trans hptr))).2
    obtain ⟨q', k'', hrealloc', -, hblock⟩ := hpreserves mem hmem
    have heq := hrealloc'.symm.trans ((hforeign _ hkmem).trans hrealloc)
    obtain ⟨rfl, rfl⟩ := Prod.mk.inj (Option.some.inj heq)
    obtain ⟨hfit, hbytes⟩ := hblock hzero
    rw [hptr, hcopied.header, toNat_ofNat_of_lt (by omega)] at hfit
    refine ⟨k₂, _, hstores, hcopied, hfit, fun i hi => ?_⟩
    have hbyte := hbytes i hi
    rwa [hptr, ← BitVec.ofNat_add, ← BitVec.ofNat_add] at hbyte
  have hlen : k.common (BitVec.ofNat 64 (x.1 + 16)) n m ≤ m.toNat ∧
      k.common (BitVec.ofNat 64 (x.1 + 16)) n m ≤ x.2 := by
    rw [common, hk.toNat_tlsfBlockSize hok hx]
    omega
  have hover : tlsfAllocOverhead.toNat = 8 := rfl
  have hsub : (BitVec.ofNat 64 x.2 - tlsfAllocOverhead).toNat = x.2 - 8 := by
    rw [BitVec.toNat_sub_of_le (BitVec.le_def.mpr (by rw [toNat_ofNat_of_lt (by omega)]; omega)),
      toNat_ofNat_of_lt (by omega), hover]
  obtain ⟨-, -, -, -, hfit, -⟩ := hcopied k.mem fun _ _ => rfl
  rw [(hk.header hok hx).1, hsub, hptr, hk₁.toNat_tlsfBlockSize hlead.ok hyheld]
  refine ⟨?_, hfit⟩
  by_contra hlast
  -- the last word is not what was in the new block, nor a header
  obtain ⟨v, hv, hne⟩ : ∃ v : BitVec 8, 4 ≤ v.toNat % 8 ∧
      v ≠ k.mem (BitVec.ofNat 64 (y.1 + 16 + (x.2 - 8))) := by
    by_cases heq : k.mem (BitVec.ofNat 64 (y.1 + 16 + (x.2 - 8))) = 4#8
    · exact ⟨12#8, by decide, by rw [heq]; decide⟩
    · exact ⟨4#8, by decide, Ne.symm heq⟩
  obtain ⟨mem, hmem⟩ : ∃ mem,
    mem = Function.update k.mem (BitVec.ofNat 64 (x.1 + 16 + (x.2 - 8))) v :=
    ⟨_, rfl⟩
  have hout : ∀ z, z < 2 ^ 64 → z ≠ x.1 + 16 + (x.2 - 8) →
    mem (BitVec.ofNat 64 z) = k.mem (BitVec.ofNat 64 z) :=
    fun z hz hne => by
      rw [hmem, Function.update_of_ne fun heq => hne ((ofNat_inj hz (by omega)).mp heq)]
  obtain ⟨k₂, k', hstores, hcopy, -, hbytes⟩ := hcopied mem fun b hb => by
    rw [← ofNat_toNat b]
    refine hout _ b.isLt fun heq => hb ((hk.inBlock_iff hok hx b).mpr (by omega))
  have hcount : (tlsfMin m (BitVec.ofNat 64 x.2 - tlsfAllocOverhead)).toNat = x.2 - 8 := by
    rw [tlsfMin, if_neg (by rw [BitVec.lt_def]; omega), hsub]
  have hbyte := hbytes (x.2 - 8) (by omega)
  rw [hcopy.rest _ hcount.le (by omega), hmem, Function.update_self] at hbyte
  rcases hstores (y.1 + 16 + (x.2 - 8)) (by omega) (by omega) with hsame | ⟨-, hheader⟩
  · have hzeroth := load_eq_iff.mp hsame 0 (by decide)
    rw [BitVec.add_zero, hbyte, hout _ (by omega) (by omega)] at hzeroth
    exact hne hzeroth
  · have hlow := toNat_load_mod k₂.mem (BitVec.ofNat 64 (y.1 + 16 + (x.2 - 8)))
    rw [hbyte] at hlow
    rw [headerWords, Set.mem_ofPred_eq, wordAt] at hheader
    omega

end Preserves

/-- The first bytes are preserved if and only if the request is safe for them. -/
theorem preserves_iff_safe (hk : A.Rep k) (hok : A.Ok taken) (hx : (d, x) ∈ A.held) (hm : m ≠ 0)
    (hn : n ≠ 0) (cpu : CpuId) :
    Preserves clzZero k cpu (BitVec.ofNat 64 (x.1 + 16)) n m ↔
      Safe clzZero k cpu (BitVec.ofNat 64 (x.1 + 16)) m
        (k.common (BitVec.ofNat 64 (x.1 + 16)) n m) := by
  have hmin := (hk.bounds hok hx).2.2.1
  -- both sizes are positive and no block is empty, so that there is a byte to keep
  have hpos : 0 < k.common (BitVec.ofNat 64 (x.1 + 16)) n m := by
    have hn' : n.toNat ≠ 0 := fun hzero => hn (BitVec.eq_of_toNat_eq hzero)
    have hm' : m.toNat ≠ 0 := fun hzero => hm (BitVec.eq_of_toNat_eq hzero)
    rw [common, hk.toNat_tlsfBlockSize hok hx]
    omega
  rw [Safe, hk.owner, hok.owner_eq hx (by omega)]
  -- the owner trims or moves the block in `tlsf_realloc`; any other processor copies it
  by_cases hd : d = cpu
  · subst hd
    rw [if_pos rfl]
    exact ⟨trimSafe_of_preserves hk hok hx hm hpos, preserves_of_trimSafe hk hok hx hm n⟩
  · rw [if_neg hd]
    exact ⟨copySafe_of_preserves hk hok hx hm hd, preserves_of_copySafe hk hok hx hm hd n⟩

/-! ### What runs keep

The invariant of a run, call by call. -/

/-- The address is that of a block that the kernel has, with room for what it has asked for. -/
def Has (A : Heaps) (p : Addr) (o : Origin) : Prop :=
  ∃ h ∈ A.held, p = BitVec.ofNat 64 (h.2.1 + 16) ∧
    ∀ n, o = .kmalloc n → adjustRequestSize n ≠ 0 ∧ (adjustRequestSize n).toNat ≤ h.2.2

/-- The heaps are in memory, and what the kernel has not freed are blocks of theirs. -/
structure Tracks (A : Heaps) (s : Traffic) : Prop where
  ok : A.Ok s.taken
  rep : A.Rep s.kmem
  live : ∀ p o, s.live p = some o → A.Has p o

variable {s s' : Traffic} {p p' : Addr} {o : Origin} {live : Addr → Option Origin}

/-- A pointer that is live stays so among more blocks. -/
theorem Has.mono (h : A.Has p o) (hheld : A.held ⊆ A'.held) : A'.Has p o :=
  let ⟨g, hg, hp, hsize⟩ := h
  ⟨g, hheld hg, hp, hsize⟩

/-- A block at another address is another block. -/
theorem Has.of_ne (h : A.Has p' o) (hne : p' ≠ BitVec.ofNat 64 (x.1 + 16))
    (hheld : A.held \ {(d, x)} ⊆ A'.held) : A'.Has p' o := by
  obtain ⟨g, hg, hp, hsize⟩ := h
  refine ⟨g, hheld ⟨hg, fun heq => hne ?_⟩, hp, hsize⟩
  rw [hp, Set.mem_singleton_iff.mp heq]

/-- What is left when something is forgotten. -/
theorem Has.erase (hlive : ∀ p o, live p = some o → A.Has p o) (p : Addr) :
    ∀ p' o, Function.update live p none p' = some o → A.Has p' o := by
  intro p' o ho
  by_cases hne : p' = p
  · rw [hne, Function.update_self] at ho
    cases ho
  · rw [Function.update_of_ne hne] at ho
    exact hlive p' o ho

/-- What is left when a block is gone. -/
theorem Has.update (hlive : ∀ p o, live p = some o → A.Has p o)
    (hp : p = BitVec.ofNat 64 (x.1 + 16)) (hheld : A.held \ {(d, x)} ⊆ A'.held) :
    ∀ p' o, Function.update live p none p' = some o → A'.Has p' o := by
  intro p' o ho
  by_cases hne : p' = p
  · rw [hne, Function.update_self] at ho
    cases ho
  · rw [Function.update_of_ne hne] at ho
    exact (hlive p' o ho).of_ne (hp ▸ hne) hheld

/-- A block more. -/
theorem Has.insert {o : Origin} (hlive : ∀ p o, live p = some o → A.Has p o) (hq : A.Has q o) :
    ∀ p o', Function.update live q (some o) p = some o' → A.Has p o' := by
  intro p o' ho
  by_cases hne : p = q
  · rw [hne, Function.update_self] at ho
    cases ho
    rwa [hne]
  · rw [Function.update_of_ne hne] at ho
    exact hlive p o' ho

/-- What `kmalloc` returns is live. -/
theorem Allocated.has (h : Allocated A A' cpu m q) (hq : q ≠ 0) : A'.Has q (.kmalloc m) := by
  obtain ⟨x, hptr, -, -, hheld, hadjust, hle⟩ := h.resolve_left hq
  refine ⟨(cpu, x), hheld, hptr, fun n hn => ?_⟩
  cases hn
  exact ⟨hadjust, hle⟩

/-- A heap is created. -/
theorem Tracks.init (h : A.Tracks s) (hzero : (s.kmem.cpus cpu).tlsfCtrl = 0)
    (hstep : s.step clzZero (.init cpu) = some s') : ∃ A' : Heaps, A'.Tracks s' := by
  obtain ⟨⟨r, k'⟩, hcall, rfl⟩ := Option.map_eq_some_iff.mp hstep
  have hcontrol : (A.cpus cpu).control = 0 := (h.rep.cpus cpu).control.symm.trans hzero
  obtain ⟨q, A', hlead⟩ : ∃ q A', Leads s.taken A (percpuTlsfInit cpu) q A' A.held := by
    rcases leads_init h.ok hcontrol with hnone | ⟨A', a, hlead, -⟩
    · exact ⟨-1, A, hnone⟩
    · exact ⟨0, A', hlead⟩
  obtain ⟨k'', hrun, hrep, -⟩ := hlead.run _ h.rep
  obtain ⟨rfl, rfl⟩ := Prod.mk.inj (Option.some.inj (hcall.symm.trans hrun))
  exact ⟨A', hlead.ok, hrep, fun p o ho => (h.live p o ho).mono hlead.held⟩

/-- `kmalloc`. -/
theorem Tracks.kmalloc (h : A.Tracks s) {r : Addr × Kmem}
    (hcall : Kmem.kmalloc clzZero cpu m s.kmem = some r) :
    ∃ A' : Heaps, A'.Ok s.taken ∧ A'.Rep r.2 ∧ A.held ⊆ A'.held ∧
      (r.1 ≠ 0 → A'.Has r.1 (.kmalloc m)) := by
  obtain ⟨q, k'⟩ := r
  rcases kmalloc_cases clzZero h.ok h.rep cpu m with hnone | ⟨q', A', hlead, hq⟩
  · rw [hnone _ h.rep] at hcall
    cases hcall
  obtain ⟨k'', hrun, hrep, -⟩ := hlead.run _ h.rep
  obtain ⟨rfl, rfl⟩ := Prod.mk.inj (Option.some.inj (hcall.symm.trans hrun))
  exact ⟨A', hlead.ok, hrep, hlead.held, hq.has⟩

/-- `kfree`. -/
theorem Tracks.kfree (h : A.Tracks s) (hp : p = 0 ∨ s.live p ≠ none)
    {r : Unit × Kmem} (hcall : Kmem.kfree cpu p s.kmem = some r) :
    ∃ A' : Heaps, A'.Tracks { s with kmem := r.2, live := Function.update s.live p none } := by
  obtain ⟨⟨⟩, k'⟩ := r
  rcases hp with rfl | hlive
  · cases hcall
    exact ⟨A, h.ok, h.rep, Has.erase h.live 0⟩
  · obtain ⟨o, ho⟩ := Option.ne_none_iff_exists'.mp hlive
    obtain ⟨⟨d, x⟩, hx, rfl, -⟩ := h.live p o ho
    obtain ⟨A', hlead⟩ := leads_kfree h.ok h.rep hx cpu
    obtain ⟨k'', hrun, hrep, -⟩ := hlead.run _ h.rep
    obtain rfl := (Prod.mk.inj (Option.some.inj (hcall.symm.trans hrun))).2
    exact ⟨A', hlead.ok, hrep, Has.update h.live rfl hlead.held⟩

/-- `krealloc` of a block, to a size that is not zero. -/
theorem Tracks.krealloc (h : A.Tracks s) (hx : (d, x) ∈ A.held) (hm : m ≠ 0)
    (hcontained : Traffic.Contained clzZero s.kmem cpu (BitVec.ofNat 64 (x.1 + 16)) m)
    {r : Addr × Kmem} (hcall : Kmem.krealloc clzZero cpu (BitVec.ofNat 64 (x.1 + 16)) m s.kmem =
    some r) :
    ∃ A' : Heaps, A'.Ok s.taken ∧ A'.Rep r.2 ∧ A.held \ {(d, x)} ⊆ A'.held ∧
      (r.1 = 0 → (d, x) ∈ A'.held) ∧ (r.1 ≠ 0 → A'.Has r.1 .krealloc) := by
  obtain ⟨q, k'⟩ := r
  have hmin := (h.rep.bounds h.ok hx).2.2.1
  rw [Traffic.Contained, h.rep.owner, h.ok.owner_eq hx (by omega)] at hcontained
  rw [h.rep.krealloc_eq h.ok hx hm] at hcall
  -- On the CPU of the block the new heaps are those of `tlsf_realloc`, elsewhere a block is
  -- allocated, filled and the old one pushed.
  by_cases hd : d = cpu
  · subst hd
    rw [if_pos rfl] at hcontained
    rw [if_neg (not_not.mpr rfl)] at hcall
    obtain ⟨q', k'', A', hrun, hreal⟩ := kreallocOwner_spec clzZero h.rep h.ok hx hm
      (Nat.zero_le _) (Nat.zero_le _) ((h.rep.trimSafe_iff h.ok hx).mp hcontained)
    obtain ⟨rfl, rfl⟩ := Prod.mk.inj (Option.some.inj (hcall.symm.trans hrun))
    refine ⟨A', hreal.ok, hreal.rep, hreal.held, fun hzero => (hreal.null hzero).1, fun hne => ?_⟩
    obtain ⟨g, hg, -, hptr, -⟩ := hreal.block hne
    exact ⟨g, hg, hptr, fun n hn => by cases hn⟩
  rw [if_neg hd] at hcontained
  rw [if_pos (Ne.symm hd)] at hcall
  rcases kmalloc_cases clzZero h.ok h.rep cpu m with hnone | ⟨q', A', hlead, hq⟩
  · rw [Kmem.kreallocForeign, get_bind, bind_of_eq_none (hnone _ h.rep)] at hcall
    cases hcall
  obtain ⟨k₁, hmalloc, hk₁, -, hnull, hcopy⟩ := kreallocForeign_spec h.rep h.ok hx hd hlead hq rfl
  by_cases hzero : q' = 0
  · obtain ⟨rfl, rfl⟩ := Prod.mk.inj (Option.some.inj (hcall.symm.trans (hnull hzero)))
    exact ⟨A', hlead.ok, hk₁, Set.sdiff_subset.trans hlead.held, fun _ => hlead.held hx,
      fun hne => absurd rfl hne⟩
  obtain ⟨y, k'', hy, hynew, hptr, hrealloc, -, hheaps⟩ := hcopy hzero
  obtain ⟨rfl, rfl⟩ := Prod.mk.inj (Option.some.inj (hcall.symm.trans hrealloc))
  -- what is copied stays in the new block
  have hroom := BitVec.le_def.mp ((hcontained _ _ hmalloc).resolve_left hzero)
  rw [hptr, hk₁.toNat_tlsfBlockSize hlead.ok hy, (h.rep.header h.ok hx).1] at hroom
  obtain ⟨B, hB, hrep, hheld⟩ := hheaps hroom
  refine ⟨B, hB, hrep, fun g hg => hheld ⟨hlead.held hg.1, hg.2⟩, fun heq => absurd heq hzero,
    fun _ =>
    ⟨(cpu, y), hheld ⟨hy, fun heq => hd ?_⟩, hptr, fun n hn => by cases hn⟩⟩
  exact (Prod.mk.inj (Set.mem_singleton_iff.mp heq)).1.symm

/-- A store to memory that is not in a heap. -/
theorem Rep.store_outside (hk : A.Rep k) (hok : A.Ok taken) {a : Addr}
    (hout : ∀ c b, (c, b) ∈ A.pages → a.toNat ∉ mapped b) (v : BitVec 8) :
    A.Rep { k with mem := Function.update k.mem a v } := by
  have hagree : Agree {a.toNat / 8 * 8} k.mem (Function.update k.mem a v) := by
    intro w hw hle hne
    apply load_eq_iff.mpr
    intro i hi
    rw [← BitVec.ofNat_add]
    refine Function.update_of_ne (fun heq => hne ?_) _ _
    rw [Set.mem_singleton_iff, ← heq, toNat_ofNat_of_lt (by omega)]
    omega
  -- a word of the heaps lies in pages that some processor owns, and the store is in none of them
  have hhhdm : hhdmOffset.toNat = 2 ^ 64 - 2 ^ 47 := rfl
  refine ⟨fun d => (hk.cpus d).of_agree (hok.cpus d) hagree ?_, hk.pmm, hk.owner, hk.pages⟩
  rw [Set.disjoint_singleton_left]
  rintro ⟨b, hb, hlo, hhi⟩
  exact hout d b hb ⟨by omega, by omega⟩

/-- One call keeps the heaps in memory, and the blocks that are not freed. -/
theorem Tracks.step (h : A.Tracks s) {c : Call} (hallowed : s.Allowed clzZero c)
    (hstep : s.step clzZero c = some s') : ∃ A' : Heaps, A'.Tracks s' := by
  cases c with
  | init cpu => exact h.init hallowed hstep
  | kmalloc cpu size =>
      obtain ⟨r, hcall, rfl⟩ := Option.map_eq_some_iff.mp hstep
      obtain ⟨A', hok, hrep, hheld, hhas⟩ := h.kmalloc hcall
      have hlive := fun p o ho => (h.live p o ho).mono hheld
      refine ⟨A', hok, hrep, ?_⟩
      by_cases hzero : r.1 = 0
      · simpa only [if_pos hzero] using hlive
      · simpa only [if_neg hzero] using Has.insert hlive (hhas hzero)
  | kfree cpu p =>
      obtain ⟨r, hcall, rfl⟩ := Option.map_eq_some_iff.mp hstep
      exact h.kfree hallowed hcall
  | krealloc cpu p size =>
      obtain ⟨r, hcall, rfl⟩ := Option.map_eq_some_iff.mp hstep
      by_cases hp : p = 0
      · -- `kmalloc`
        rw [hp, Kmem.krealloc, if_pos rfl] at hcall
        obtain ⟨A', hok, hrep, hheld, hhas⟩ := h.kmalloc hcall
        have hlive := fun p o ho => (h.live p o ho).mono hheld
        have hnone := Has.erase hlive p
        refine ⟨A', hok, hrep, ?_⟩
        by_cases hzero : r.1 = 0
        · simp only [hzero, ne_eq, not_true_eq_false, if_false]
          split
          · exact hnone
          · exact hlive
        · simpa only [if_pos hzero, if_pos hp] using Has.insert hnone (hhas hzero)
      obtain ⟨hne, hcontained⟩ := hallowed.resolve_left hp
      by_cases hsize : size = 0
      · -- `kfree`
        rw [Kmem.krealloc, if_neg hp, if_pos hsize] at hcall
        obtain ⟨⟨u, k'⟩, hfree, hr⟩ := Option.bind_eq_some_iff.mp hcall
        cases hr
        simpa only [ne_eq, not_true_eq_false, if_false, if_pos hsize] using h.kfree (.inr hne) hfree
      · obtain ⟨o, ho⟩ := Option.ne_none_iff_exists'.mp hne
        obtain ⟨⟨d, x⟩, hx, rfl, hroom⟩ := h.live p o ho
        obtain ⟨A', hok, hrep, hheld, hnull, hhas⟩ :=
          h.krealloc hx hsize (hcontained.resolve_left hsize) hcall
        refine ⟨A', hok, hrep, ?_⟩
        by_cases hzero : r.1 = 0
        · simp only [hzero, ne_eq, not_true_eq_false, if_false, if_neg hsize]
          intro p' o' ho'
          by_cases hpp : p' = BitVec.ofNat 64 (x.1 + 16)
          · subst hpp
            obtain rfl := Option.some.inj (ho.symm.trans ho')
            exact ⟨(d, x), hnull hzero, rfl, hroom⟩
          · exact (h.live p' o' ho').of_ne hpp hheld
        · simpa only [if_pos hzero, if_neg hp] using Has.insert (Has.update h.live rfl hheld)
            (hhas hzero)
  | write a b =>
      cases hstep
      refine ⟨A, h.ok, ?_, h.live⟩
      rcases hallowed with ⟨p, hne, hin⟩ | hout
      · obtain ⟨o, ho⟩ := Option.ne_none_iff_exists'.mp hne
        obtain ⟨⟨d, x⟩, hx, rfl, -⟩ := h.live p o ho
        refine h.rep.store_inBlock h.ok hx fun c hc => Function.update_of_ne (fun heq => hc ?_) _ _
        rwa [heq]
      · rw [h.rep.pages] at hout
        exact h.rep.store_outside h.ok hout b
  | takePages order =>
      rw [Traffic.step] at hstep
      rcases h.ok.pages.alloc order with hnull | ⟨pfn, pmm', hcall, -, -, -, -, -, hpages⟩
      · rw [h.rep.pmm, hnull] at hstep
        cases hstep
        exact ⟨A, h.ok, ⟨h.rep.cpus, rfl, h.rep.owner, h.rep.pages⟩, h.live⟩
      · rw [h.rep.pmm, hcall] at hstep
        cases hstep
        refine ⟨{ A with pmm := pmm' }, ⟨?_, h.ok.cpus⟩,
          ⟨h.rep.cpus, rfl, h.rep.owner, h.rep.pages⟩, h.live⟩
        simpa only [Pmm.physToPfn_pfnToPhys] using hpages
  | freePages b =>
      rw [Traffic.step] at hstep
      split at hstep
      case isTrue hb =>
        obtain ⟨pmm', hcall, hpages⟩ := h.ok.pages.free hb (h.rep.pmm ▸ hallowed)
        rw [h.rep.pmm, hcall] at hstep
        cases hstep
        exact ⟨{ A with pmm := pmm' }, ⟨hpages, h.ok.cpus⟩,
          ⟨h.rep.cpus, rfl, h.rep.owner, h.rep.pages⟩, h.live⟩
      case isFalse => cases hstep

/-- No heap. -/
def boot (pmm : Pmm) (owner : ℕ → CpuId) : Heaps where
  cpus _ := { control := 0, lists := Control.empty, pools := [], pending := [] }
  pmm
  owner
  pages := ∅

/-- After `pmm_init` no pointer is live, and every heap is empty. -/
theorem tracks_boot {pmm : Pmm} (hpmm : pmm.Inv ∅) (mem : Addr → BitVec 8)
    (fields : CpuId → ControlFields) (owner : ℕ → CpuId) :
    (Heaps.boot pmm owner).Tracks (Traffic.boot pmm mem fields owner) where
  ok :=
    { pages := ⟨by simpa [Traffic.boot, Heaps.boot] using hpmm, Finset.disjoint_empty_left _,
        fun c b hb => absurd hb (Finset.notMem_empty _)⟩
      cpus _ := ⟨fun hne => absurd rfl hne, fun hne => absurd rfl hne, fun _ => rfl,
        fun x hx => absurd hx List.not_mem_nil, List.nodup_nil⟩ }
  rep := ⟨fun _ => ⟨rfl, fun hne => absurd rfl hne, rfl⟩, rfl, rfl, rfl⟩
  live p o ho := by cases ho

end Koharu.Heaps

namespace Koharu.Kmem

open Machine Traffic
open Pmm (pmmInit)
open Tlsf (Size adjustRequestSize)

variable {info : MmapInfo} {beyond : ℕ → Bool} {pmm : Pmm} {clzZero : ℕ} {mem : Addr → BitVec 8}
  {fields : CpuId → ControlFields} {owner : ℕ → CpuId} {s : Traffic} {p : Addr} {n m : Size}

/-- Every run keeps heaps in memory, and the blocks that are not freed. -/
theorem tracks_of_run (hwf : info.WellFormed) (hinit : pmmInit info beyond = some (some pmm))
    (hrun : Run (step clzZero) (Allowed clzZero) (boot pmm mem fields owner) s) :
    ∃ A : Heaps, A.Tracks s := by
  have hpmm : pmm.Inv ∅ := by
    rcases Pmm.pmmInit_spec hwf beyond with hnone | ⟨pmm', hcall, hinv⟩
    · rw [hnone] at hinit
      cases hinit
    · rw [hcall] at hinit
      cases hinit
      exact hinv
  refine hrun.invariant (I := fun s => ∃ A : Heaps, A.Tracks s)
    ⟨_, Heaps.tracks_boot hpmm mem fields owner⟩ ?_
  rintro s s' c ⟨A, htracks⟩ hallowed hstep
  exact htracks.step hallowed hstep

/-- In a run, a block that has come from `kmalloc` is reallocated with its contents if and only if
the request is safe for the bytes that it is to keep. -/
theorem krealloc_preserves_iff (hwf : info.WellFormed)
    (hinit : pmmInit info beyond = some (some pmm))
    (hrun : Run (step clzZero) (Allowed clzZero) (boot pmm mem fields owner) s)
    (hlive : s.live p = some (.kmalloc n)) (hm : m ≠ 0) (cpu : CpuId) :
    (n.toNat ≤ 2 ^ 64 - 8 → s.kmem.common p n m = min n.toNat m.toNat) ∧
      (Preserves clzZero s.kmem cpu p n m ↔ Safe clzZero s.kmem cpu p m (s.kmem.common p n m)) := by
  obtain ⟨A, htracks⟩ := tracks_of_run hwf hinit hrun
  -- the address stands for a block that is held, and it was asked for with a size that fits
  obtain ⟨⟨d, x⟩, hx, rfl, hroom⟩ := htracks.live p _ hlive
  obtain ⟨hadjust, hle⟩ := hroom n rfl
  have hn : n ≠ 0 := by
    rintro rfl
    exact hadjust rfl
  refine ⟨fun hsmall => ?_, Heaps.preserves_iff_safe htracks.rep htracks.ok hx hm hn cpu⟩
  have hup := (TlsfMem.adjust_spec hadjust).2.2.2 hsmall
  rw [common, htracks.rep.toNat_tlsfBlockSize htracks.ok hx]
  exact min_eq_left ((min_le_left _ _).trans (hup.trans hle))

/-! ### An exact fit

The smallest case of the lost bytes, evaluated on the embedded code. -/

/-- The first block of CPU 0. -/
def firstBlock : Addr := 0xFFFF800000111990#64

/-- Heaps are created, and blocks are taken from them. -/
def Traffic.Grows (s : Traffic) : Call → Prop
  | .init cpu => (s.kmem.cpus cpu).tlsfCtrl = 0
  | .kmalloc _ _ => True
  | _ => False

instance (s : Traffic) (c : Call) : Decidable (s.Grows c) :=
  match c with
  | .init _ => inferInstanceAs (Decidable (_ = _))
  | .kmalloc _ _ => inferInstanceAs (Decidable True)
  | .kfree _ _ | .krealloc _ _ _ | .write _ _ | .takePages _ | .freePages _ =>
      inferInstanceAs (Decidable False)

/-- A call that makes the heap grow is allowed. -/
theorem Traffic.Grows.allowed {c : Call} (h : s.Grows c) : s.Allowed clzZero c := by
  cases c with
  | init cpu => exact h
  | kmalloc cpu size => trivial
  | kfree | krealloc | write | takePages | freePages => exact h.elim

/-- CPUs 0 and 1 have heaps, and CPU 0 has a block of 24 bytes. At first there is one byte all over
each 64 KiB of memory, and another one in the next. -/
theorem exists_run_exactFit (check : Kmem → Bool)
    (hcheck : ((pmmInit SmpHeaps.oneMegabyte fun _ => false).any fun r => r.any fun pmm =>
      (execAll (step 0) Grows (boot pmm (fun a => (a >>> 16).setWidth 8)
          (fun _ => ⟨0, fun _ => 0, fun _ _ => 0⟩) fun _ => 0)
          [.init 0, .init 1, .kmalloc 0 24]).any
        fun s => decide (s.live firstBlock = some (.kmalloc 24)) && check s.kmem) = true) :
    ∃ pmm s, pmmInit SmpHeaps.oneMegabyte (fun _ => false) = some (some pmm) ∧
      Run (step 0) (Allowed 0) (boot pmm (fun a => (a >>> 16).setWidth 8)
        (fun _ => ⟨0, fun _ => 0, fun _ _ => 0⟩) fun _ => 0) s ∧
      s.live firstBlock = some (.kmalloc 24) ∧ check s.kmem = true := by
  obtain ⟨r, hr, hreturned⟩ := (Option.any_eq_true _ _).mp hcheck
  obtain ⟨pmm, rfl, hexecuted⟩ := (Option.any_eq_true _ _).mp hreturned
  obtain ⟨s, hrun, hchecked⟩ := exists_run_of_execAll (step 0) Grows _ _ _ hexecuted
  obtain ⟨hlive, hcheck⟩ := Bool.and_eq_true_iff.mp hchecked
  exact ⟨pmm, s, hr, hrun.mono fun _ _ => Grows.allowed, of_decide_eq_true hlive, hcheck⟩

/-- On its own CPU, the block is reallocated to 100 bytes with all that was in it. -/
theorem krealloc_preserves_iff_exactFit : ∃ pmm s,
    pmmInit SmpHeaps.oneMegabyte (fun _ => false) = some (some pmm) ∧
      Run (step 0) (Allowed 0) (boot pmm (fun a => (a >>> 16).setWidth 8)
        (fun _ => ⟨0, fun _ => 0, fun _ _ => 0⟩) fun _ => 0) s ∧
      s.live firstBlock = some (.kmalloc 24) ∧ s.kmem.common firstBlock 24 100 = 24 ∧
      Preserves 0 s.kmem 0 firstBlock 24 100 := by
  obtain ⟨pmm, s, hinit, hrun, hlive, hcheck⟩ := exists_run_exactFit
    (fun k => decide (k.owner (virtToPfn firstBlock) = 0 ∧
      k.tlsfBlockSize firstBlock < Tlsf.sizeofBlockHeader + adjustRequestSize 100))
      (by decide +kernel)
  obtain ⟨howner, hlt⟩ := of_decide_eq_true hcheck
  obtain ⟨hcommon, hpreserves⟩ :=
    krealloc_preserves_iff SmpHeaps.oneMegabyte_wellFormed hinit hrun hlive
    (by decide : (100 : Size) ≠ 0) 0
  have hcommon' := hcommon (by decide)
  refine ⟨pmm, s, hinit, hrun, hlive, hcommon', hpreserves.mpr ?_⟩
  rw [hcommon', Safe, if_pos howner]
  -- on the owner's side the block is too small to be trimmed
  exact .inl hlt

/-- On another CPU, byte 16 of the block is lost. -/
theorem krealloc_loses_byte : ∃ pmm s q k', SmpHeaps.oneMegabyte.WellFormed ∧
    pmmInit SmpHeaps.oneMegabyte (fun _ => false) = some (some pmm) ∧
      Run (step 0) (Allowed 0) (boot pmm (fun a => (a >>> 16).setWidth 8)
        (fun _ => ⟨0, fun _ => 0, fun _ _ => 0⟩) fun _ => 0) s ∧
      s.live firstBlock = some (.kmalloc 24) ∧ krealloc 0 1 firstBlock 100 s.kmem = some (q, k') ∧
      q ≠ 0 ∧ k'.mem (q + 16) ≠ s.kmem.mem (firstBlock + 16) := by
  obtain ⟨pmm, s, hinit, hrun, hlive, hcheck⟩ := exists_run_exactFit
    (fun k => (krealloc 0 1 firstBlock 100 k).any fun r =>
      r.1 ≠ 0 ∧ r.2.mem (r.1 + 16) ≠ k.mem (firstBlock + 16)) (by decide +kernel)
  obtain ⟨⟨q, k'⟩, hcall, hcheck⟩ := (Option.any_eq_true _ _).mp hcheck
  obtain ⟨hne, hbyte⟩ := of_decide_eq_true hcheck
  exact ⟨pmm, s, q, k', SmpHeaps.oneMegabyte_wellFormed, hinit, hrun, hlive, hcall, hne, hbyte⟩

end Koharu.Kmem
