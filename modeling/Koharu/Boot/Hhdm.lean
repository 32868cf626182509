import Koharu.Arch.Pmap

/-!
# The boot loader's page tables

`boot/arch/x86_64/hhdm.c`. The boot loader runs with memory mapped one to one, so that it stores to
a table at its physical address. `PmState` is reused for this memory; its allocator is the
firmware's `AllocatePages`, for one page below 4 GiB, whose failure is the address `0`.

The counters of the loops stay far below `2 ^ 64` and are natural numbers here. The loop over the
loader's image is a function of the iterations it may take.
-/

namespace Koharu

/-- Why `init_hhdm` does not return `EFI_SUCCESS`. -/
inductive BootStop
  /-- It returns `EFI_OUT_OF_RESOURCES`. -/
  | outOfResources
  /-- The loop over the image is not done. -/
  | running
  deriving DecidableEq, Repr

/-- The entry for a table: `table | PAGE_PRESENT | PAGE_WRITE`. -/
def bootEntry (table : Addr) : Entry := table ||| ptePresent ||| pteWritable

/-- The entry for 2 MiB: `phys | PAGE_PRESENT | PAGE_WRITE | PAGE_HUGE`. -/
def bootHuge (phys : Addr) : Entry := phys ||| ptePresent ||| pteWritable ||| pdeHuge

/-- The number of entries of a table, the bound of the inner loops. -/
def tableEntries : ℕ := 512

namespace PmState

variable {σ : Type*}

/-- The innermost loop of the direct map: the entries of `pd` from `k` on, until `total_pdes` have
been made. It returns `allocated_pdes`. -/
def fillPd (totalPdes : ℕ) (pd : Addr) : (left k allocatedPdes : ℕ) → PmState σ → ℕ × PmState σ
  | 0, _, allocatedPdes, s => (allocatedPdes, s)
  | left + 1, k, allocatedPdes, s =>
      if totalPdes ≤ allocatedPdes then (allocatedPdes, s)
      else
        let physAddr := BitVec.ofNat 64 (allocatedPdes * 2 * 1024 * 1024)
        fillPd totalPdes pd left (k + 1) (allocatedPdes + 1)
          (s.store .pd pd (BitVec.ofNat 9 k) (bootHuge physAddr))

/-- The loop over the entries of one of the kernel's page directories, from `pdeIdx` on. -/
def fillKernelPd (kernelPd : Addr) (pdptIdx : ℕ) : (left pdeIdx : ℕ) → PmState σ → PmState σ
  | 0, _, s => s
  | left + 1, pdeIdx, s =>
      let physAddr := BitVec.ofNat 64
        ((pdptIdx - 510) * 1024 * 1024 * 1024 + pdeIdx * 2 * 1024 * 1024)
      fillKernelPd kernelPd pdptIdx left (pdeIdx + 1)
        (s.store .pd kernelPd (BitVec.ofNat 9 pdeIdx) (bootHuge physAddr))

variable [PageAllocator σ]

/-- `alloc_page`. -/
def allocPage (s : PmState σ) : Except BootStop (Addr × PmState σ) :=
  let (addr, s) := s.allocPages
  if addr = 0 then .error .outOfResources else .ok (addr, s.clear addr)

/-- A new table at entry `i` of `table`. -/
def newTable (s : PmState σ) (level : Level) (table : Addr) (i : BitVec 9) :
    Except BootStop (Addr × PmState σ) := do
  let (t, s) ← s.allocPage
  .ok (t, s.store level table i (bootEntry t))

/-- The table at entry `i` of `table`, or a new one. -/
def bootTable (s : PmState σ) (level : Level) (table : Addr) (i : BitVec 9) :
    Except BootStop (Addr × PmState σ) :=
  if (s.mem table i).present then .ok (s.mem table i &&& ~~~0xFFF#64, s)
  else s.newTable level table i

/-- The body of the loop over the loader's image. -/
def identityPage (s : PmState σ) (pml4 addr : Addr) : Except BootStop (PmState σ) := do
  let (pdpt, s) ← s.bootTable .pml4 pml4 (pml4Index addr)
  let (pd, s) ← s.bootTable .pdpt pdpt (pdptIndex addr)
  .ok (s.store .pd pd (pdIndex addr) (bootHuge addr))

/-- The loop over the loader's image. -/
def identityLoop (pml4 imageEnd : Addr) : ℕ → Addr → PmState σ → Except BootStop (PmState σ)
  | 0, _, _ => .error .running
  | fuel + 1, addr, s =>
      if addr < imageEnd then do
        let s ← s.identityPage pml4 addr
        identityLoop pml4 imageEnd fuel (addr + 0x200000#64) s
      else .ok s

/-- The middle loop of the direct map, over the entries of `pdpt` from `j` on. It returns
`allocated_pdts` and `allocated_pdes`. -/
def fillPdpt (totalPdts totalPdes : ℕ) (pdpt : Addr) :
    (left j allocatedPdts allocatedPdes : ℕ) → PmState σ → Except BootStop ((ℕ × ℕ) × PmState σ)
  | 0, _, allocatedPdts, allocatedPdes, s => .ok ((allocatedPdts, allocatedPdes), s)
  | left + 1, j, allocatedPdts, allocatedPdes, s =>
      if totalPdts ≤ allocatedPdts then .ok ((allocatedPdts, allocatedPdes), s)
      else do
        let (pd, s) ← s.newTable .pdpt pdpt (BitVec.ofNat 9 j)
        let filled := fillPd totalPdes pd tableEntries 0 allocatedPdes s
        fillPdpt totalPdts totalPdes pdpt left (j + 1) (allocatedPdts + 1) filled.1 filled.2

/-- The outer loop of the direct map, over the entries of `pml4` from `256 + i` on. -/
def fillPml4 (totalPdpts totalPdts totalPdes : ℕ) (pml4 : Addr) :
    (left i allocatedPdts allocatedPdes : ℕ) → PmState σ → Except BootStop (PmState σ)
  | 0, _, _, _, s => .ok s
  | left + 1, i, allocatedPdts, allocatedPdes, s =>
      if i < totalPdpts then do
        let (pdpt, s) ← s.newTable .pml4 pml4 (BitVec.ofNat 9 (256 + i))
        let ((allocatedPdts, allocatedPdes), s) ←
          fillPdpt totalPdts totalPdes pdpt tableEntries 0 allocatedPdts allocatedPdes s
        fillPml4 totalPdpts totalPdts totalPdes pml4 left (i + 1) allocatedPdts allocatedPdes s
      else .ok s

/-- One round of the loop over the two page directories of the kernel. -/
def kernelPd (s : PmState σ) (kernelPdpt : Addr) (pdptIdx : ℕ) : Except BootStop (PmState σ) := do
  let (kernelPd, s) ← s.newTable .pdpt kernelPdpt (BitVec.ofNat 9 pdptIdx)
  .ok (fillKernelPd kernelPd pdptIdx tableEntries 0 s)

/-- `init_hhdm`, with the value it stores to `out_root_phys`. -/
def initHhdm (fuel : ℕ) (s : PmState σ) (maxPhysAddr imageBase imageSize : Addr) :
    Except BootStop (Addr × PmState σ) := do
  let (pml4, s) ← s.allocPage
  let s ← identityLoop pml4 (imageBase + imageSize) fuel (imageBase &&& ~~~0x1FFFFF#64) s
  let totalPdes := ((maxPhysAddr + 0x1FFFFF#64) >>> 21).toNat
  let totalPdts := (totalPdes + 511) >>> 9
  let totalPdpts := (totalPdts + 511) >>> 9
  let s ← fillPml4 totalPdpts totalPdts totalPdes pml4 256 0 0 0 s
  let (kernelPdpt, s) ← s.newTable .pml4 pml4 511#9
  let s ← s.kernelPd kernelPdpt 510
  let s ← s.kernelPd kernelPdpt 511
  .ok (pml4, s)

end PmState

end Koharu
