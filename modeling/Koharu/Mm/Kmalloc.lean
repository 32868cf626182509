import Koharu.Boot.DirectMap
import Koharu.Mm.PmmSplit
import Koharu.Mm.Tlsf

/-!
# Heaps that grow

`kmalloc` in `kernel/mm/kmem.c`. If the heap of the CPU has no block for a request, not even after
the blocks that other CPUs have freed are back, it takes pages from `pmm_alloc_pages` and adds them
to the heap. How many pages these are is computed from the request, without the size classes of the
heap.

* `kmalloc`: the function, for one CPU;
* `Fits`: the requests for which the pages are enough;
* `kmalloc_slow_iff`: these are the requests that are served after the heap has grown.

What `tlsf_flush_pending` does to the lists of the heap is a parameter. So is the result of
`__builtin_clz` for `0`.
-/

namespace Koharu

open Tlsf (Size Control clz)

/-- What `kmalloc` reads and writes: the heap of the CPU it runs on, the page allocator and the
owners of the pages. -/
structure Heap where
  /-- `*curcpu->tlsf_ctrl`. -/
  ctrl : Control
  pmm : Pmm
  /-- `mem_map[pfn].owner_cpu_id`. -/
  owner : ℕ → BitVec 16

/-- `pages` in `kmalloc`. -/
def kmallocPages (size : Size) : Size := (size + 64#64 + 0x1000#64 - 1#64) >>> 12

/-- `req_order` in `kmalloc`. -/
def reqOrder (clzZero : ℕ) (size : Size) : ℤ :=
  if kmallocPages size ≤ 1 then 0
  else 32 - clz clzZero ((kmallocPages size - 1).setWidth 32)

/-- `order` in `kmalloc`. As a `size_t`, a negative number is not below `4`. -/
def kmallocOrder (clzZero : ℕ) (size : Size) : ℤ :=
  if 0 ≤ reqOrder clzZero size ∧ reqOrder clzZero size < 4 then 4 else reqOrder clzZero size

namespace Heap

variable (clzZero : ℕ) (cpu : BitVec 16) (flush : Control → Control) (h : Heap)

/-- Add a block of pages to the heap, unless there is none. -/
def grow (size : Size) : Option (Bool × Heap) := do
  let order := kmallocOrder clzZero size
  let alloc ← h.pmm.pmmAllocPages order
  let phys := alloc.1.getD 0
  if phys = 0 then pure (false, { h with pmm := alloc.2 })
  else
    let base := Pmm.physToPfn phys
    pure (true, {
      ctrl := h.ctrl.tlsfAddPool (BitVec.ofNat 64 phys + hhdmOffset)
        (BitVec.twoPow 64 (order.toNat + 12))
      pmm := alloc.2
      owner := fun pfn => if base ≤ pfn ∧ pfn < base + 2 ^ order.toNat then cpu else h.owner pfn })

/-- `kmalloc`, where no pointer stands for `NULL`. -/
def kmalloc (size : Size) : Option (Option (BitVec 64) × Heap) :=
  if size = 0 then some (none, h)
  else
    match h.ctrl.tlsfMalloc size with
    | (some p, ctrl) => some (some p, { h with ctrl })
    | (none, ctrl) =>
        match (flush ctrl).tlsfMalloc size with
        | (some p, ctrl) => some (some p, { h with ctrl })
        | (none, ctrl) => do
            let grown ← grow clzZero cpu { h with ctrl } size
            if grown.1 then
              let r := grown.2.ctrl.tlsfMalloc size
              pure (r.1, { grown.2 with ctrl := r.2 })
            else pure (none, grown.2)

/-- There is no block for the request, and none after the flush. -/
structure SlowPath (size : Size) : Prop where
  fast : (h.ctrl.tlsfMalloc size).1 = none
  flushed : ((flush h.ctrl).tlsfMalloc size).1 = none

end Heap

/-- The requests that the pages `kmalloc` asks for are enough for: those up to `63 / 64` of them.
Requests of the last seven bytes of the address space are rounded up to `0`, and count as small. -/
def Fits (clzZero : ℕ) (size : Size) : Prop :=
  2 ^ 64 - 8 < size.toNat ∨ size.toNat ≤ 63 * 2 ^ ((kmallocOrder clzZero size).toNat + 6)

namespace Heap

variable {clzZero : ℕ} {cpu : BitVec 16} {flush : Control → Control} {h : Heap} {size : Size}

/-- `kmalloc` asks for 16 pages at least. -/
theorem four_le_kmallocOrder (hpos : 0 ≤ kmallocOrder clzZero size) :
    4 ≤ kmallocOrder clzZero size := by
  rw [kmallocOrder] at hpos ⊢
  split_ifs at hpos ⊢ <;> omega

/-- What `pmm_alloc_pages` returns is a block of an order that there is, at the start of a page. -/
theorem exists_pfn_of_pmmAllocPages {s s' : Pmm} {order : ℤ} {phys : ℕ}
    (halloc : s.pmmAllocPages order = some (some phys, s')) :
    0 ≤ order ∧ order ≤ 10 ∧ ∃ pfn, phys = pfnToPhys pfn := by
  rw [Pmm.pmmAllocPages] at halloc
  split at halloc
  case isTrue => cases halloc
  case isFalse horder =>
    unfold maxBuddyOrder at horder
    refine ⟨by omega, by omega, ?_⟩
    -- the scan over the orders comes out empty, or it takes the first block that is large enough
    rcases s.allocScan_eq order.toNat (maxBuddyOrder - order.toNat) order.toNat with
      ⟨-, hscan⟩ | ⟨o, p, -, -, -, hscan⟩
    · rw [hscan] at halloc
      cases halloc
    · rw [hscan, Pmm.takeBlock] at halloc
      obtain ⟨lists, -, halloc⟩ := Option.bind_eq_some_iff.mp halloc
      obtain ⟨s₁, -, halloc⟩ := Option.bind_eq_some_iff.mp halloc
      exact ⟨p, (Option.some.inj (Prod.ext_iff.mp (Option.some.inj halloc)).1).symm⟩

theorem pmm_of_pmmAllocPages_none {s s' : Pmm} {order : ℤ}
    (halloc : s.pmmAllocPages order = some (none, s')) : s' = s := by
  rw [Pmm.pmmAllocPages] at halloc
  split at halloc
  case isTrue => exact (Prod.ext_iff.mp (Option.some.inj halloc)).2.symm
  case isFalse =>
    rcases s.allocScan_eq order.toNat (maxBuddyOrder - order.toNat) order.toNat with
      ⟨-, hscan⟩ | ⟨o, p, -, -, -, hscan⟩
    · rw [hscan] at halloc
      exact (Prod.ext_iff.mp (Option.some.inj halloc)).2.symm
    · rw [hscan, Pmm.takeBlock] at halloc
      obtain ⟨lists, -, halloc⟩ := Option.bind_eq_some_iff.mp halloc
      obtain ⟨s₁, -, halloc⟩ := Option.bind_eq_some_iff.mp halloc
      cases halloc

/-- The pool begins at a multiple of `ALIGN_SIZE`. -/
theorem pool_aligned (pfn : ℕ) :
    (BitVec.ofNat 64 (pfnToPhys pfn) + hhdmOffset).toInt % Tlsf.alignSize = 0 := by
  have hhdm : hhdmOffset.toNat = 2 ^ 64 - 2 ^ 47 := rfl
  have hpage : 2 ^ pageShift = 4096 := rfl
  have hnat : (BitVec.ofNat 64 (pfnToPhys pfn) + hhdmOffset).toNat % 8 = 0 := by
    rw [BitVec.toNat_add, BitVec.toNat_ofNat, hhdm, pfnToPhys, Nat.shiftLeft_eq, hpage]
    omega
  have hsize : (Tlsf.alignSize : ℤ) = 8 := rfl
  rw [BitVec.toInt_eq_toNat_cond, hsize]
  split <;> omega

/-- `adjust_request_size` leaves a size that the pages can have exactly for the requests that
fit. -/
theorem adjust_iff (hsize : size ≠ 0) {order : ℕ} (hlo : 4 ≤ order) (hhi : order ≤ 10) :
    (Tlsf.adjustRequestSize size ≠ 0 ∧
      (Tlsf.adjustRequestSize size).toNat ≤ 63 * 2 ^ (order + 6)) ↔
    2 ^ 64 - 8 < size.toNat ∨ size.toNat ≤ 63 * 2 ^ (order + 6) := by
  have hbound : 2 ^ 10 ≤ 2 ^ (order + 6) ∧ 2 ^ (order + 6) ≤ 2 ^ 16 :=
    ⟨Nat.pow_le_pow_right (by decide) (by omega), Nat.pow_le_pow_right (by decide) (by omega)⟩
  have hdvd : 2 ^ (order + 6) = 8 * 2 ^ (order + 3) := by
    rw [show order + 6 = 3 + (order + 3) by omega, pow_add]
    norm_num
  have hup := Tlsf.alignUp_toNat size
  have hlt := size.isLt
  have hmin : Tlsf.blockSizeMin.toNat = 24 := rfl
  have hmax : Tlsf.blockSizeMax.toNat = 2 ^ 32 := rfl
  rw [Tlsf.adjustRequestSize, if_neg hsize]
  split
  -- a request that is too large becomes 0, also one that is rounded up to 0
  case isFalse hbig =>
    rw [BitVec.not_lt, BitVec.le_def, hmax] at hbig
    apply iff_of_false (fun h => h.1 rfl)
    omega
  case isTrue hsmall =>
    rw [BitVec.lt_def, hmax] at hsmall
    split
    case isTrue hlarge =>
      have hlarge' := BitVec.lt_def.mp hlarge
      have hne : Tlsf.alignUp size ≠ 0 := by
        rintro hzero
        rw [hzero] at hlarge'
        exact absurd hlarge' (Nat.not_lt_zero _)
      rw [and_iff_right hne]
      omega
    case isFalse hlarge =>
      rw [gt_iff_lt, BitVec.not_lt, BitVec.le_def, hmin] at hlarge
      refine iff_of_true ⟨by decide, ?_⟩ ?_
      · rw [hmin]
        omega
      · omega

/-- After the slow path has been taken, `kmalloc` is `grow` and one more try. -/
theorem kmalloc_of_slowPath (hsize : size ≠ 0) (hslow : h.SlowPath flush size) :
    kmalloc clzZero cpu flush h size =
      (grow clzZero cpu { h with ctrl := flush h.ctrl } size).bind fun grown =>
        if grown.1 then
          some ((grown.2.ctrl.tlsfMalloc size).1,
            { grown.2 with ctrl := (grown.2.ctrl.tlsfMalloc size).2 })
        else some (none, grown.2) := by
  have hfast : h.ctrl.tlsfMalloc size = (none, h.ctrl) :=
    Prod.ext hslow.fast (Control.tlsfMalloc_snd hslow.fast)
  have hflushed : (flush h.ctrl).tlsfMalloc size = (none, flush h.ctrl) :=
    Prod.ext hslow.flushed (Control.tlsfMalloc_snd hslow.flushed)
  rw [kmalloc, if_neg hsize]
  simp only [hfast, hflushed]
  rfl

/-- A block of pages is added to the heap. -/
theorem grow_of_block {phys : ℕ} {pmm : Pmm}
    (halloc : h.pmm.pmmAllocPages (kmallocOrder clzZero size) = some (some phys, pmm))
    (hphys : phys ≠ 0) : ∃ h', grow clzZero cpu h size = some (true, h') ∧
      h'.ctrl = h.ctrl.tlsfAddPool (BitVec.ofNat 64 phys + hhdmOffset)
        (BitVec.twoPow 64 ((kmallocOrder clzZero size).toNat + 12)) := by
  simp only [grow, halloc, Option.bind_eq_bind, Option.bind_some, Option.getD_some, if_neg hphys]
  exact ⟨_, rfl, by dsimp only⟩

/-- Without one, nothing is changed. -/
theorem grow_of_none {pmm : Pmm}
    (halloc : h.pmm.pmmAllocPages (kmallocOrder clzZero size) = some (none, pmm)) :
    grow clzZero cpu h size = some (false, h) := by
  obtain rfl := pmm_of_pmmAllocPages_none halloc
  simp only [grow, halloc, Option.bind_eq_bind, Option.bind_some, Option.getD_none]
  rfl

/-- If `kmalloc` has to ask for pages and is given some, it serves the request if and only if that
fits. If it is given none, it returns `NULL`, and the page allocator is as before. -/
theorem kmalloc_slow_iff (hsize : size ≠ 0) (hslow : h.SlowPath flush size) :
    (∀ phys pmm, h.pmm.pmmAllocPages (kmallocOrder clzZero size) = some (some phys, pmm) →
      phys ≠ 0 → ∃ p h', kmalloc clzZero cpu flush h size = some (p, h') ∧
        (p ≠ none ↔ Fits clzZero size)) ∧
    (∀ pmm, h.pmm.pmmAllocPages (kmallocOrder clzZero size) = some (none, pmm) →
      ∃ h', kmalloc clzZero cpu flush h size = some (none, h') ∧ h'.pmm = h.pmm) := by
  rw [kmalloc_of_slowPath hsize hslow]
  constructor
  · intro phys pmm halloc hphys
    obtain ⟨hpos, hhi, pfn, rfl⟩ := exists_pfn_of_pmmAllocPages halloc
    have hlo := four_le_kmallocOrder hpos
    have halloc' : ({ h with ctrl := flush h.ctrl } : Heap).pmm.pmmAllocPages
        (kmallocOrder clzZero size) = some (some (pfnToPhys pfn), pmm) := halloc
    -- with the new pool the only free block is the pool itself, so the request fits iff it fits in
    -- it
    obtain ⟨h', hgrow, hctrl⟩ : ∃ h', grow clzZero cpu _ size = some (true, h') ∧ _ :=
      grow_of_block halloc' hphys
    refine ⟨_, _, by rw [hgrow, Option.bind_some, if_pos rfl], ?_⟩
    rw [hctrl, Control.tlsfMalloc_addPool hslow.flushed (pool_aligned pfn) (by omega) (by omega),
      adjust_iff hsize (by omega) (by omega)]
    rfl
  · intro pmm halloc
    -- without new pages the heap is as flushed, and nothing else has changed
    have halloc' : ({ h with ctrl := flush h.ctrl } : Heap).pmm.pmmAllocPages
        (kmallocOrder clzZero size) = some (none, pmm) := halloc
    refine ⟨{ h with ctrl := flush h.ctrl }, ?_, rfl⟩
    rw [grow_of_none halloc', Option.bind_some, if_neg Bool.false_ne_true]

/-- An empty heap, and a page allocator with one block of 16 pages. -/
def sixteenPages : Heap where
  ctrl := Control.empty
  pmm := Pmm.single 16 4
  owner _ := 0

theorem sixteenPages_slowPath (size : Size) : sixteenPages.SlowPath id size := by
  have hlacks : ∀ k, Control.empty.Lacks k := fun k k' _ _ => rfl
  have hnone : (Control.empty.tlsfMalloc size).1 = none :=
    (Control.tlsfMalloc_eq_none_iff size).mpr (Or.inr (Or.inr (hlacks _)))
  exact ⟨hnone, hnone⟩

/-- A request of 100 bytes is served from these pages. -/
theorem kmalloc_slow_iff_hundred : ∃ p h', kmalloc 0 1 id sixteenPages 100 = some (p, h') ∧
    p ≠ none := by
  have halloc : ∃ pmm, sixteenPages.pmm.pmmAllocPages (kmallocOrder 0 100) =
      some (some 0x10000, pmm) := ⟨_, rfl⟩
  obtain ⟨pmm, halloc⟩ := halloc
  obtain ⟨p, h', hcall, hserved⟩ :=
    (kmalloc_slow_iff (by decide) (sixteenPages_slowPath 100)).1 _ pmm halloc (by decide)
  exact ⟨p, h', hcall, hserved.mpr (Or.inr (by decide))⟩

/-- A request of 65472 bytes is not, and the pages are gone. -/
theorem kmalloc_keeps_pages : ∃ h', sixteenPages.SlowPath id 65472 ∧
    kmalloc 0 1 id sixteenPages 65472 = some (none, h') ∧
      sixteenPages.pmm.freePages = 16 ∧ h'.pmm.freePages = 0 := by
  have hcheck : ((kmalloc 0 1 id sixteenPages 65472).any fun r =>
      r.1.isNone && r.2.pmm.freePages == 0) = true := by
    decide +kernel
  obtain ⟨⟨p, h'⟩, hcall, hcheck⟩ := (Option.any_eq_true _ _).mp hcheck
  rw [Bool.and_eq_true, Option.isNone_iff_eq_none, beq_iff_eq] at hcheck
  obtain ⟨hnull, hfree⟩ := hcheck
  obtain rfl : p = none := hnull
  exact ⟨h', sixteenPages_slowPath _, hcall, rfl, hfree⟩

end Heap

end Koharu
