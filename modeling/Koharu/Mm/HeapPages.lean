import Koharu.Mm.Kmalloc
import Koharu.Mm.PmmSafety

/-!
# Pages of heaps

Every CPU has a heap of its own. Its pools are blocks of pages from `pmm_alloc_pages`, used through
the direct map, and each of these pages names the CPU, which is how `kfree` finds out whose block it
is given.

* `HeapPages`: the pages of heaps are allocated, and name the CPU;
* `HeapPages.alloc`, `HeapPages.free`: what allocations and releases of pages do to this;
* `HeapPages.owner_of_mapped`: the CPU is read off any address in its pages.
-/

namespace Koharu

open Tlsf (blockStartOffset)

/-- `owner_cpu_id`. -/
abbrev CpuId := BitVec 16

/-- `tlsf_ptr_to_block`. -/
def tlsfPtrToBlock (p : Addr) : Addr := if p = 0 then 0 else p - blockStartOffset

/-- `virt_to_page`. -/
def virtToPfn (p : Addr) : ℕ := ((p - hhdmOffset) >>> pageShift).toNat

/-- The addresses of a block of pages in the direct map. -/
def mapped (b : Block) : Set ℕ :=
  {w | hhdmOffset.toNat + b.base * 4096 ≤ w ∧ w < hhdmOffset.toNat + (b.base + 2 ^ b.order) * 4096}

/-- The blocks `taken` and those of the heaps are allocated, no block is both, and the pages of
heaps name the CPU whose heap they are in. -/
structure HeapPages (pmm : Pmm) (taken : Finset Block) (pages : Finset (CpuId × Block))
    (owner : ℕ → CpuId) : Prop where
  pmm : pmm.Inv (taken ∪ pages.image Prod.snd)
  apart : Disjoint taken (pages.image Prod.snd)
  owner : ∀ c b, (c, b) ∈ pages → ∀ pfn ∈ b.frames, owner pfn = c

namespace HeapPages

variable {pmm pmm' : Pmm} {taken : Finset Block} {pages : Finset (CpuId × Block)}
  {owner : ℕ → CpuId} {c d : CpuId} {b b' : Block} {pfn w : ℕ} {p : Addr}

/-- The pages of a heap are among the blocks handed out. -/
theorem mem_allocated (taken : Finset Block) (hb : (c, b) ∈ pages) :
    b ∈ taken ∪ pages.image Prod.snd :=
  Finset.mem_union_right _ (Finset.mem_image_of_mem Prod.snd hb)

/-- The pages of heaps are below the pool of the root server. -/
theorem end_le (h : HeapPages pmm taken pages owner) (hb : (c, b) ∈ pages) :
    b.base + 2 ^ b.order ≤ pmmPoolStartPfn :=
  (h.pmm.tiling.placed (false, b) (Pmm.mem_owned_false.mpr (mem_allocated taken hb))).end_le

/-- A frame of a heap has a number below that pool. -/
theorem frame_lt (h : HeapPages pmm taken pages owner) (hb : (c, b) ∈ pages)
    (hpfn : pfn ∈ b.frames) :
    pfn < pmmPoolStartPfn :=
  (Block.mem_frames.mp hpfn).2.trans_le (h.end_le hb)

/-- A pointer into the pages of a heap is not `NULL`, and the header before it is not at `NULL`. -/
theorem ptr_of_frame (h : HeapPages pmm taken pages owner) (hb : (c, b) ∈ pages)
    (hp : virtToPfn p ∈ b.frames) : p ≠ 0 ∧ p - blockStartOffset ≠ 0 := by
  have hpfn := h.frame_lt hb hp
  -- the pages of these two addresses are far above
  have hnull : ¬ virtToPfn 0 < pmmPoolStartPfn := by decide
  have hheader : ¬ virtToPfn blockStartOffset < pmmPoolStartPfn := by decide
  constructor
  · rintro rfl
    exact hnull hpfn
  · intro hzero
    rw [sub_eq_zero.mp hzero] at hpfn
    exact hheader hpfn

/-! ### The direct map

Blocks of frames as intervals of addresses: disjoint blocks are disjoint intervals, and the page of
an address gives its owner. -/

/-- The direct map has the pages one after the other. -/
theorem virtToPfn_of_mapped (h : HeapPages pmm taken pages owner) (hb : (c, b) ∈ pages)
    (hw : w ∈ mapped b) : virtToPfn (BitVec.ofNat 64 w) ∈ b.frames := by
  have hend := h.end_le hb
  have hhhdm : hhdmOffset.toNat = 2 ^ 64 - 2 ^ 47 := rfl
  have hpool : pmmPoolStartPfn = 0x8000 := rfl
  obtain ⟨hlo, hhi⟩ := hw
  have hsub : (BitVec.ofNat 64 w - hhdmOffset).toNat = w - hhdmOffset.toNat := by
    have hle : hhdmOffset ≤ BitVec.ofNat 64 w := by
      rw [BitVec.le_def, BitVec.toNat_ofNat, Nat.mod_eq_of_lt (by omega)]
      omega
    rw [BitVec.toNat_sub_of_le hle, BitVec.toNat_ofNat, Nat.mod_eq_of_lt (by omega)]
  rw [virtToPfn, BitVec.toNat_ushiftRight, hsub, Nat.shiftRight_eq_div_pow, Block.mem_frames,
    show 2 ^ pageShift = 4096 from rfl]
  omega

/-- The direct map of the pages is away from both ends of the address space. -/
theorem lt_of_mapped (h : HeapPages pmm taken pages owner) (hb : (c, b) ∈ pages)
    (hw : w ∈ mapped b) :
    2 ^ 63 < w ∧ w < 2 ^ 64 - 2 ^ 46 := by
  have hend := h.end_le hb
  have hhhdm : hhdmOffset.toNat = 2 ^ 64 - 2 ^ 47 := rfl
  have hpool : pmmPoolStartPfn = 0x8000 := rfl
  obtain ⟨hlo, hhi⟩ := hw
  omega

/-- The page of an address names the CPU whose heap it is in. -/
theorem owner_of_mapped (h : HeapPages pmm taken pages owner) (hb : (c, b) ∈ pages)
    (hw : w ∈ mapped b) : owner (virtToPfn (BitVec.ofNat 64 w)) = c :=
  h.owner c b hb _ (h.virtToPfn_of_mapped hb hw)

/-- No address is in the heaps of two CPUs. -/
theorem eq_of_mapped (h : HeapPages pmm taken pages owner) (hb : (c, b) ∈ pages) (hw : w ∈ mapped b)
    (hb' : (d, b') ∈ pages) (hw' : w ∈ mapped b') : c = d :=
  (h.owner_of_mapped hb hw).symm.trans (h.owner_of_mapped hb' hw')

/-- Different blocks of pages are mapped to different addresses. -/
theorem disjoint_mapped (h : HeapPages pmm taken pages owner) (hb : (c, b) ∈ pages)
    (hb' : (d, b') ∈ pages) (hne : b ≠ b') : Disjoint (mapped b) (mapped b') := by
  have hdisjoint := h.pmm.safe.allocated_disjoint (mem_allocated taken hb)
    (mem_allocated taken hb') hne
  exact Set.disjoint_left.mpr fun w hw hw' =>
    Set.disjoint_left.mp hdisjoint (h.virtToPfn_of_mapped hb hw) (h.virtToPfn_of_mapped hb' hw')

/-! ### Allocations and releases

What the page allocator does to the division of the pages into those of the heaps and the rest. -/

/-- Pages are added to a heap. They were in no other one. -/
theorem insert_pages (h : HeapPages pmm taken pages owner)
    (hnew : b ∉ taken ∪ pages.image Prod.snd)
    (hinv : pmm'.Inv (insert b (taken ∪ pages.image Prod.snd))) (c : CpuId) :
    HeapPages pmm' taken (insert (c, b) pages)
      fun pfn => if b.base ≤ pfn ∧ pfn < b.base + 2 ^ b.order then c else owner pfn := by
  refine ⟨?_, ?_, fun d b' hb' pfn hpfn => ?_⟩
  · rwa [Finset.image_insert, Finset.union_insert]
  · rw [Finset.image_insert, Finset.disjoint_insert_right]
    exact ⟨fun hmem => hnew (Finset.mem_union_left _ hmem), h.apart⟩
  · rcases Finset.mem_insert.mp hb' with heq | hmem
    · obtain ⟨rfl, rfl⟩ := Prod.mk.inj heq
      rw [if_pos (Block.mem_frames.mp hpfn)]
    · -- the new pages are not those of another block
      have hmem' := mem_allocated taken hmem
      have hne : b ≠ b' := fun heq => hnew (heq ▸ hmem')
      have hdisjoint := hinv.safe.allocated_disjoint (Finset.mem_insert_self b _)
        (Finset.mem_insert_of_mem hmem') hne
      rw [if_neg fun hin => Set.disjoint_left.mp hdisjoint (Block.mem_frames.mpr hin) hpfn]
      exact h.owner d b' hmem pfn hpfn

/-- `pmm_alloc_pages` returns `NULL`, or a block of pages, which can be given to a heap or to
others. -/
theorem alloc (h : HeapPages pmm taken pages owner) (order : ℤ) :
    pmm.pmmAllocPages order = some (none, pmm) ∨
    ∃ pfn pmm', pmm.pmmAllocPages order = some (some (pfnToPhys pfn), pmm') ∧ pfnToPhys pfn ≠ 0 ∧
      0 ≤ order ∧ order ≤ 10 ∧ (∀ c, (c, ⟨pfn, order.toNat⟩) ∉ pages) ∧
      (∀ c : CpuId, HeapPages pmm' taken (insert (c, ⟨pfn, order.toNat⟩) pages)
        fun f => if pfn ≤ f ∧ f < pfn + 2 ^ order.toNat then c else owner f) ∧
      HeapPages pmm' (insert ⟨pfn, order.toNat⟩ taken) pages owner := by
  rcases h.pmm.alloc order with hnull | ⟨pfn, pmm', hcall, hnew, hinv⟩
  · exact .inl hnull
  · obtain ⟨hlo, hhi, -⟩ := Heap.exists_pfn_of_pmmAllocPages hcall
    -- no block starts at frame zero, so that the address is not `NULL`
    have hphys : pfnToPhys pfn ≠ 0 := by
      have hpos : 0 < pfn := (hinv.tiling.placed (false, ⟨pfn, order.toNat⟩)
        (Pmm.mem_owned_false.mpr (Finset.mem_insert_self _ _))).base_pos
      rw [pfnToPhys, Nat.shiftLeft_eq]
      exact Nat.mul_ne_zero hpos.ne' (Nat.two_pow_pos _).ne'
    refine .inr ⟨pfn, pmm', hcall, hphys, hlo, hhi, fun c hin => hnew (mem_allocated taken hin),
      fun c => h.insert_pages hnew hinv c, ?_, ?_, h.owner⟩
    · rwa [Finset.insert_union]
    · rw [Finset.disjoint_insert_left]
      exact ⟨fun hmem => hnew (Finset.mem_union_right _ hmem), h.apart⟩

/-- Pages that are in no heap are released. -/
theorem free (h : HeapPages pmm taken pages owner) (hb : b ∈ taken)
    (hmerge : pmm.Mergeable b.base b.order) :
    ∃ pmm', pmm.pmmFreePages (pfnToPhys b.base) b.order = some pmm' ∧
      HeapPages pmm' (taken.erase b) pages owner := by
  obtain ⟨pmm', hcall, hinv⟩ := h.pmm.free (Finset.mem_union_left _ hb) hmerge
  have hnot : b ∉ pages.image Prod.snd := Finset.disjoint_left.mp h.apart hb
  rw [Finset.erase_union_distrib, Finset.erase_eq_of_notMem hnot] at hinv
  exact ⟨pmm', hcall, hinv, h.apart.mono_left (Finset.erase_subset _ _), h.owner⟩

end HeapPages

end Koharu
