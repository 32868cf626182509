import Koharu.Lib.Block
import Koharu.Lib.ListStore
import Mathlib.Algebra.BigOperators.Group.Finset.Basic

/-!
# The physical page allocator

`kernel/mm/pmm.c` is a buddy allocator with `MAX_BUDDY_ORDER` free lists. A free block is
represented by its first page: that page's `page_list` node is on the free list of the block's
order and its `is_free` flag is set. No page records the order of the block it starts.

`Pmm` is the allocator's state, `pmmInit`, `pmmAllocPages` and `pmmFreePages` are its functions
with their loops as recursions on the iterations left. All of them are partial: `none` stands for
a `list_add` of a linked node or a `list_del` of an unlinked one, after which the links of the
lists are corrupt (`Koharu.List`).
-/

namespace Koharu

/-- A 64-bit machine word. -/
abbrev U64 := BitVec 64

/-- `PAGE_SHIFT`. -/
def pageShift : ℕ := 12

/-- `PAGE_SIZE`. -/
def Pmm.pageSize : ℕ := 4096

/-- `MAX_BUDDY_ORDER`. -/
def maxBuddyOrder : ℕ := 11

/-- `PMM_POOL_START_PFN`: frames from here on are left to the root server's pool. -/
def pmmPoolStartPfn : ℕ := 0x8000

/-- `sizeof(page_t)`: two pointers, a flag and a 16-bit id, padded to 8 bytes. -/
def sizeofPage : ℕ := 24

/-- `0x100000`: memory below is never handed out. -/
def lowMemory : ℕ := 0x100000

/-- Reduction of a sum to 64 bits. -/
def wrap64 (x : ℕ) : ℕ := x % 2 ^ 64

/-- `ALIGN_UP(addr, PAGE_SIZE)`. The sum wraps. -/
def alignUp (addr : ℕ) : ℕ := wrap64 (addr + (Pmm.pageSize - 1)) / Pmm.pageSize * Pmm.pageSize

/-- `ALIGN_DOWN(addr, PAGE_SIZE)`. -/
def alignDown (addr : ℕ) : ℕ := addr / Pmm.pageSize * Pmm.pageSize

/-- `phys_to_pfn`. -/
def Pmm.physToPfn (phys : ℕ) : ℕ := phys >>> pageShift

/-- `pfn_to_phys`. -/
def pfnToPhys (pfn : ℕ) : ℕ := pfn <<< pageShift

/-- The types of a memory map entry. -/
inductive MmapType
  | usable
  | reserved
  | acpiReclaimable
  | acpiNvs
  | badMem
  | bootloaderReclaimable
  deriving DecidableEq, Repr

/-- `mmap_entry_t`. -/
structure MmapEntry where
  physStart : U64
  length : U64
  type : MmapType

/-- `mmap_info_t`, as far as the kernel reads it. -/
structure MmapInfo where
  maxPhysAddr : U64
  entries : List MmapEntry

/-- `pmm_t`, with the `is_free` flags of `mem_map` and the free lists over the pages' nodes. A
page is named by its pfn. The array has `totalPages` entries; an index past its end reads and
writes whatever the memory behind it holds. -/
structure Pmm where
  /-- `orders[i].free_list`. -/
  freeList : ListStore ℕ ℕ
  /-- `orders[i].free_count`. -/
  freeCount : ℕ → U64
  /-- `mem_map[pfn].is_free`. -/
  isFree : ℕ → Bool
  memMapPhys : ℕ
  memMapSize : ℕ
  totalPages : ℕ
  freePages : U64

namespace Pmm

/-! ### Allocation

The scan over the orders, the block taken off its list and its halves given back. -/

/-- The `while (curr_order > order)` loop of `pmm_alloc_pages`: give back the upper half of the
block at `pfn` once for every order between `order` and the order it was found at. The argument
counts the orders left. -/
def splitLoop (s : Pmm) (pfn order : ℕ) : ℕ → Option Pmm
  | 0 => some s
  | left + 1 => do
      let curr := order + left
      let buddy := pfn ^^^ 2 ^ curr
      let lists ← s.freeList.pushFront buddy curr
      splitLoop { s with
        isFree := Function.update s.isFree buddy true
        freeList := lists
        freeCount := Function.update s.freeCount curr (s.freeCount curr + 1) } pfn order left

/-- What `pmm_alloc_pages` does with the first node of the list `curr`. -/
def takeBlock (s : Pmm) (order curr pfn : ℕ) : Option (Option ℕ × Pmm) := do
  let lists ← s.freeList.unlink pfn
  let s ← splitLoop { s with
    freeList := lists
    freeCount := Function.update s.freeCount curr (s.freeCount curr - 1) } pfn order (curr - order)
  return (some (pfnToPhys pfn), { s with
    isFree := Function.update s.isFree pfn false
    freePages := s.freePages - BitVec.ofNat 64 (2 ^ order) })

/-- The `for` loop of `pmm_alloc_pages`. The first argument counts the orders left. -/
def allocScan (s : Pmm) (order : ℕ) : ℕ → ℕ → Option (Option ℕ × Pmm)
  | 0, _ => some (none, s)
  | left + 1, curr =>
      match s.freeList.queue curr with
      | [] => allocScan s order left (curr + 1)
      | pfn :: _ => s.takeBlock order curr pfn

/-- `pmm_alloc_pages`: the physical address of a block of `2 ^ order` pages, or `NULL`. -/
def pmmAllocPages (s : Pmm) (order : ℤ) : Option (Option ℕ × Pmm) :=
  if order < 0 ∨ order ≥ maxBuddyOrder then some (none, s)
  else s.allocScan order.toNat (maxBuddyOrder - order.toNat) order.toNat

/-! ### Release

The loop merges as long as the buddy's flag is set. It asks neither for the order of the buddy nor
on which list it is, and takes it off whichever list it is linked into. -/

/-- The loop of `pmm_free_pages`: as long as the buddy's flag is set, take it off the list it is
on and go on with the union. The last argument counts the orders left below the largest. -/
def coalesce (s : Pmm) (pfn curr : ℕ) : ℕ → Option (Pmm × ℕ × ℕ)
  | 0 => some (s, pfn, curr)
  | left + 1 =>
      let buddy := pfn ^^^ 2 ^ curr
      if !s.isFree buddy then some (s, pfn, curr)
      else do
        let lists ← s.freeList.unlink buddy
        coalesce { s with
          freeList := lists
          isFree := Function.update s.isFree buddy false
          freeCount := Function.update s.freeCount curr (s.freeCount curr - 1) }
          (pfn &&& buddy) (curr + 1) left

/-- `pmm_free_pages`. -/
def pmmFreePages (s : Pmm) (addr : ℕ) (order : ℤ) : Option Pmm :=
  if addr = 0 ∨ order < 0 ∨ order ≥ maxBuddyOrder then some s
  else do
    let (s, pfn, curr) ← s.coalesce (physToPfn addr) order.toNat
      (maxBuddyOrder - 1 - order.toNat)
    let lists ← s.freeList.pushBack pfn curr
    return { s with
      isFree := Function.update s.isFree pfn true
      freeList := lists
      freeCount := Function.update s.freeCount curr (s.freeCount curr + 1)
      freePages := s.freePages + BitVec.ofNat 64 (2 ^ order.toNat) }

/-! ### Initialisation

The page array is put into the first region that is large enough; then the regions are cut into
blocks from the lower end, each as large as alignment and room allow. -/

/-- The first loop of `pmm_init`: the start of the first usable region the page array fits into,
or `0`. -/
def findArray (arraySize : ℕ) : List MmapEntry → ℕ
  | [] => 0
  | e :: es =>
      if e.type = .usable then
        let start := alignUp e.physStart.toNat
        let stop := alignUp (wrap64 (e.physStart.toNat + e.length.toNat))
        let start := if start < lowMemory then lowMemory else start
        if stop > start ∧ stop - start ≥ arraySize then start else findArray arraySize es
      else findArray arraySize es

/-- The innermost loop of `pmm_init`: the largest order up to the given one whose blocks are
aligned at `curr` and fit into `remain` bytes. -/
def targetOrder (remain curr : ℕ) : ℕ → ℕ
  | 0 => 0
  | order + 1 =>
      let blockSize := 2 ^ (pageShift + (order + 1))
      if remain ≥ blockSize ∧ curr &&& (blockSize - 1) = 0 then order + 1
      else targetOrder remain curr order

/-- Put the block at `curr` on its free list, as the body of the `while` loop does. -/
def seedBlock (s : Pmm) (curr order : ℕ) : Option Pmm := do
  let pfn := physToPfn curr
  let lists ← s.freeList.pushBack pfn order
  return { s with
    isFree := Function.update s.isFree pfn true
    freeList := lists
    freeCount := Function.update s.freeCount order (s.freeCount order + 1)
    freePages := s.freePages + BitVec.ofNat 64 (2 ^ order) }

/-- The `while (curr < end)` loop of `pmm_init` for one entry. Every iteration advances `curr` by
at least a page, so `(stop - curr) / PAGE_SIZE + 1` iterations reach the end. -/
def seedRegion (s : Pmm) (arrayPhys arrayEnd stop : ℕ) : ℕ → ℕ → Option Pmm
  | 0, _ => some s
  | left + 1, curr =>
      if curr < stop then
        if curr ≥ pmmPoolStartPfn <<< pageShift then some s
        else if curr ≥ arrayPhys ∧ curr < arrayEnd then
          seedRegion s arrayPhys arrayEnd stop left arrayEnd
        else do
          let limit := if curr < arrayPhys ∧ stop > arrayPhys then arrayPhys else stop
          let limit := if limit > pmmPoolStartPfn <<< pageShift then
            pmmPoolStartPfn <<< pageShift else limit
          let order := targetOrder (limit - curr) curr (maxBuddyOrder - 1)
          let s ← s.seedBlock curr order
          seedRegion s arrayPhys arrayEnd stop left (curr + 2 ^ (pageShift + order))
      else some s

/-- The second loop of `pmm_init` over the memory map. -/
def seedEntries (s : Pmm) (arrayPhys arrayEnd : ℕ) : List MmapEntry → Option Pmm
  | [] => some s
  | e :: es =>
      if e.type = .usable then do
        let curr := alignUp e.physStart.toNat
        let curr := if curr < lowMemory then lowMemory else curr
        let stop := alignDown (wrap64 (e.physStart.toNat + e.length.toNat))
        let s ← s.seedRegion arrayPhys arrayEnd stop ((stop - curr) / pageSize + 1) curr
        seedEntries s arrayPhys arrayEnd es
      else seedEntries s arrayPhys arrayEnd es

/-- The state `pmm_init` starts its second loop from: empty lists, and the page array zeroed as
far as it reaches. `beyond` is what the memory behind the array holds. -/
def blank (totalPages arrayPhys arraySize : ℕ) (beyond : ℕ → Bool) : Pmm where
  freeList := ListStore.empty
  freeCount _ := 0
  isFree pfn := if pfn < arraySize / sizeofPage then false else beyond pfn
  memMapPhys := arrayPhys
  memMapSize := arraySize
  totalPages := totalPages
  freePages := 0

/-- `pmm_init`: the allocator's state when it returns `0`, and `some none` when it returns
`-1`. -/
def pmmInit (info : MmapInfo) (beyond : ℕ → Bool) : Option (Option Pmm) :=
  let totalPages := alignUp info.maxPhysAddr.toNat / pageSize
  let arraySize := alignUp (totalPages * sizeofPage)
  let arrayPhys := findArray arraySize info.entries
  if arrayPhys = 0 then some none
  else do
    let s ← (blank totalPages arrayPhys arraySize beyond).seedEntries arrayPhys
      (arrayPhys + arraySize) info.entries
    return some s

end Pmm

end Koharu
