import Koharu.Lib.Radix
import Mathlib.Data.BitVec

/-!
# Page tables

`kernel/arch/x86_64/pmap.c`. The four levels of page tables live in physical pages of 512 entries,
which the kernel reads and writes through its direct map. `PmState` is this memory with the state
of the page allocator, about which nothing is assumed here: it is a parameter, and its results
are whatever `pmm_alloc_pages(0)` returns.

`PmState.trace` records what the functions do to the outside: the pages they take and give back
and the stores they make, with the level of the table that the source takes the page for. No
function reads it.

The locks and the flushes of the TLB have no part in what is modelled. A loop is a function of
the iterations it may take, and `none` stands for a loop that is not done by then.
-/

namespace Koharu

/-- `uintptr_t`. -/
abbrev Addr := BitVec 64

/-- `PAGE_SIZE`. -/
def pageSize : Addr := 0x1000#64

/-- `PAGE_SIZE_HUGE`. -/
def pageSizeHuge : Addr := 0x200000#64

/-- `PROT_READ`. -/
def protRead : BitVec 32 := 0x01#32

/-- `PROT_WRITE`. -/
def protWrite : BitVec 32 := 0x02#32

/-- `PROT_EXEC`. -/
def protExec : BitVec 32 := 0x04#32

/-- `PROT_USER`. -/
def protUser : BitVec 32 := 0x08#32

/-- `PROT_WC`. -/
def protWc : BitVec 32 := 0x10#32

/-- `PROT_GLOBAL`. -/
def protGlobal : BitVec 32 := 0x20#32

/-- `PROT_HUGE`. -/
def protHuge : BitVec 32 := 0x40#32

/-! ### Entries

The bits of an entry, with the source's own names for the masks, and the indices that an address
gives at each level. An entry is a 64-bit word: no invalid entry is ruled out here, since the
functions read whatever is in memory. -/

/-- An entry of a table of any level. -/
abbrev Entry := BitVec 64

/-- `PTE_ADDR_MASK`. -/
def pteAddrMask : Entry := 0x000FFFFFFFFFF000#64

/-- The address bits of an entry that maps a huge page, `pd_addr_mask`. -/
def pdAddrMask : Entry := 0x000FFFFFFFE00000#64

/-- `PTE_PRESENT`. -/
def ptePresent : Entry := 1#64 <<< 0

/-- `PTE_WRITABLE`. -/
def pteWritable : Entry := 1#64 <<< 1

/-- `PTE_USER`. -/
def pteUser : Entry := 1#64 <<< 2

/-- `PTE_PAT`. -/
def ptePat : Entry := 1#64 <<< 7

/-- `PTE_GLOBAL`. -/
def pteGlobal : Entry := 1#64 <<< 8

/-- `PTE_NX`. -/
def pteNx : Entry := 1#64 <<< 63

/-- `PDE_HUGE`. -/
def pdeHuge : Entry := 1#64 <<< 7

/-- `PDE_PAT`. -/
def pdePat : Entry := 1#64 <<< 12

/-- `e & PTE_PRESENT`. -/
def Entry.present (e : Entry) : Bool := e &&& ptePresent != 0

/-- `e & PDE_HUGE`. -/
def Entry.huge (e : Entry) : Bool := e &&& pdeHuge != 0

/-- `e & PTE_WRITABLE`. -/
def Entry.writable (e : Entry) : Bool := e &&& pteWritable != 0

/-- The table, or the page, that an entry points to. -/
def Entry.addr (e : Entry) : Addr := e &&& pteAddrMask

/-- The entry for a new table. -/
def tableEntry (phys : Addr) : Entry := phys ||| ptePresent ||| pteWritable ||| pteUser

/-- Whether `PROT_x` is among the flags. -/
def hasProt (flags prot : BitVec 32) : Bool := flags &&& prot != 0

/-- `pte_flags` before the size of the page matters. -/
def pteFlags (flags : BitVec 32) : Entry :=
  ptePresent ||| (if hasProt flags protWrite then pteWritable else 0) |||
    (if hasProt flags protUser then pteUser else 0) |||
    (if hasProt flags protGlobal then pteGlobal else 0) |||
    (if hasProt flags protExec then 0 else pteNx)

/-- The entry of a normal page. -/
def pageEntry (pa : Addr) (flags : BitVec 32) : Entry :=
  (pa &&& pteAddrMask) ||| (pteFlags flags ||| if hasProt flags protWc then ptePat else 0)

/-- The entry of a huge page. -/
def hugeEntry (pa : Addr) (flags : BitVec 32) : Entry :=
  (pa &&& pdAddrMask) |||
    (pteFlags flags ||| pdeHuge ||| if hasProt flags protWc then pdePat else 0)

/-- `PML4_INDEX`. -/
def pml4Index (va : Addr) : BitVec 9 := (va >>> 39).setWidth 9

/-- `PDPT_INDEX`. -/
def pdptIndex (va : Addr) : BitVec 9 := (va >>> 30).setWidth 9

/-- `PD_INDEX`. -/
def pdIndex (va : Addr) : BitVec 9 := (va >>> 21).setWidth 9

/-- `PT_INDEX`. -/
def ptIndex (va : Addr) : BitVec 9 := (va >>> 12).setWidth 9

/-! ### The machine

Memory is read and written by page and index, and the page allocator is a parameter. Each function
records what it does to pages in the order in which it does it; the source has no such record, and
no function reads it. -/

/-- What the source takes a table page for, by the type of the pointer to it. -/
inductive Level
  | pml4
  | pdpt
  | pd
  | pt
  deriving DecidableEq, Repr

/-- What the functions do to the outside. -/
inductive Effect
  /-- `pmm_alloc_pages(0)` returned `page`, or `NULL`. -/
  | alloc (page : Addr)
  /-- `pmm_free_pages(page, 0)`. -/
  | free (page : Addr)
  /-- `memset(page, 0, PAGE_SIZE)`. -/
  | clear (page : Addr)
  /-- The upper half of the table `src` was copied to `dst`. -/
  | copy (src dst : Addr)
  /-- One entry was stored. -/
  | store (level : Level) (page : Addr) (index : BitVec 9) (entry : Entry)
  deriving DecidableEq

/-- The allocator of pages: `pmm_alloc_pages(0)`, where `0` is `NULL`, and
`pmm_free_pages(page, 0)`. -/
class PageAllocator (σ : Type*) where
  allocPages : σ → Addr × σ
  freePages : σ → Addr → σ

/-- Physical memory, as far as page tables are concerned. -/
structure PmState (σ : Type*) where
  /-- The entries of the page at a physical address. -/
  mem : Addr → BitVec 9 → Entry
  pmm : σ
  trace : List Effect

namespace PmState

variable {σ : Type*}

/-- `memset(page, 0, PAGE_SIZE)`. -/
def clear (s : PmState σ) (page : Addr) : PmState σ :=
  { s with mem := Function.update s.mem page fun _ => 0#64, trace := s.trace ++ [.clear page] }

/-- Copy the entries 256 to 511. -/
def copyUpper (s : PmState σ) (src dst : Addr) : PmState σ :=
  { s with
    mem := Function.update s.mem dst fun i => if 256#9 ≤ i then s.mem src i else s.mem dst i
    trace := s.trace ++ [.copy src dst] }

/-- Store one entry. -/
def store (s : PmState σ) (level : Level) (page : Addr) (i : BitVec 9) (e : Entry) : PmState σ :=
  { s with
    mem := Radix.write s.mem page i e
    trace := s.trace ++ [.store level page i e] }

/-- `is_table_empty`. -/
def isTableEmpty (s : PmState σ) (table : Addr) : Bool :=
  (List.range 512).all fun i => !(s.mem table (BitVec.ofNat 9 i)).present

/-! ### Looking up

The walk stops with `0` at the first entry that is not present, and at a huge page it takes the rest
of the address as the offset. -/

/-- `pmap_extract`. -/
def pmapExtract (s : PmState σ) (root va : Addr) : Addr :=
  if !(s.mem root (pml4Index va)).present then 0
  else
    let pdpt := (s.mem root (pml4Index va)).addr
    if !(s.mem pdpt (pdptIndex va)).present then 0
    else
      let pd := (s.mem pdpt (pdptIndex va)).addr
      let e := s.mem pd (pdIndex va)
      if !e.present then 0
      else if e.huge then (e &&& pdAddrMask) + (va &&& 0x1FFFFF#64)
      else
        let e := s.mem e.addr (ptIndex va)
        if !e.present then 0 else (e &&& pteAddrMask) + (va &&& 0xFFF#64)

variable [PageAllocator σ]

/-- `pmm_alloc_pages(0)`. -/
def allocPages (s : PmState σ) : Addr × PmState σ :=
  let (page, pmm) := PageAllocator.allocPages s.pmm
  (page, { s with pmm, trace := s.trace ++ [.alloc page] })

/-- `pmm_free_pages(page, 0)`. -/
def freePages (s : PmState σ) (page : Addr) : PmState σ :=
  { s with pmm := PageAllocator.freePages s.pmm page, trace := s.trace ++ [.free page] }

/-! ### Mapping

A missing table is allocated on the way down, so that a call that fails may leave new tables behind.
What fails is the allocator only; the flags are not checked. -/

/-- One level down in `pmap_map_page`: the table that entry `i` of `table` points to, after a new
one has been put there if there was none. -/
def nextTable (s : PmState σ) (level : Level) (table : Addr) (i : BitVec 9) :
    Option Addr × PmState σ :=
  if (s.mem table i).present then (some (s.mem table i).addr, s)
  else
    let (phys, s) := s.allocPages
    if phys = 0 then (none, s)
    else
      let s := (s.clear phys).store level table i (tableEntry phys)
      (some (s.mem table i).addr, s)

/-- The last step of `pmap_map_page` for a huge page. A table that was there goes back to the
allocator. -/
def mapHuge (s : PmState σ) (pd : Addr) (va pa : Addr) (flags : BitVec 32) : PmState σ :=
  let e := s.mem pd (pdIndex va)
  let s := if e.present ∧ ¬ e.huge then s.freePages e.addr else s
  s.store .pd pd (pdIndex va) (hugeEntry pa flags)

/-- `pmap_map_page`, and whether it returns `0`. -/
def pmapMapPage (s : PmState σ) (root va pa : Addr) (flags : BitVec 32) : Bool × PmState σ :=
  match s.nextTable .pml4 root (pml4Index va) with
  | (none, s) => (false, s)
  | (some pdpt, s) =>
      match s.nextTable .pdpt pdpt (pdptIndex va) with
      | (none, s) => (false, s)
      | (some pd, s) =>
          if hasProt flags protHuge then (true, s.mapHuge pd va pa flags)
          else
            match s.nextTable .pd pd (pdIndex va) with
            | (none, s) => (false, s)
            | (some pt, s) => (true, s.store .pt pt (ptIndex va) (pageEntry pa flags))

/-- The loop of `pmap_map`. -/
def mapLoop (root vaEnd step : Addr) (flags : BitVec 32) :
    ℕ → Addr → Addr → PmState σ → Option (Bool × PmState σ)
  | 0, _, _, _ => none
  | fuel + 1, va, pa, s =>
      if va < vaEnd then
        match s.pmapMapPage root va pa flags with
        | (true, s) => mapLoop root vaEnd step flags fuel (va + step) (pa + step) s
        | (false, s) => some (false, s)
      else some (true, s)

/-- `step` in `pmap_map`. -/
def mapStep (flags : BitVec 32) : Addr := if hasProt flags protHuge then pageSizeHuge else pageSize

/-- `pmap_map` on the pmap with this `pm_root_phys`, and whether it returns `0`. -/
def pmapMap (fuel : ℕ) (s : PmState σ) (root virt phys size : Addr) (flags : BitVec 32) :
    Option (Bool × PmState σ) :=
  if size = 0 then some (false, s)
  else
    let step := mapStep flags
    let mask := step - 1
    mapLoop root ((virt + size + mask) &&& ~~~mask) step flags fuel (virt &&& ~~~mask)
      (phys &&& ~~~mask) s

/-! ### Unmapping

A page is cleared where the walk finds one, and the tables that have become empty are given back
from the bottom up. The loop goes on by what the page was found to be, a page or 2 MiB. -/

/-- The end of `pmap_unmap_page`: give back the tables that have become empty, from the bottom. -/
def teardown (s : PmState σ) (pml4 pdpt pd pt : Addr) (l4 l3 l2 : BitVec 9) : PmState σ :=
  if s.isTableEmpty pt then
    let s := (s.freePages (s.mem pd l2).addr).store .pd pd l2 0#64
    if s.isTableEmpty pd then
      let s := (s.freePages (s.mem pdpt l3).addr).store .pdpt pdpt l3 0#64
      if s.isTableEmpty pdpt then
        (s.freePages (s.mem pml4 l4).addr).store .pml4 pml4 l4 0#64
      else s
    else s
  else s

/-- `pmap_unmap_page`, and how far it lets `pmap_unmap` advance. -/
def pmapUnmapPage (s : PmState σ) (root va : Addr) : Addr × PmState σ :=
  let l4 := pml4Index va
  if !(s.mem root l4).present then (pageSize, s)
  else
    let pdpt := (s.mem root l4).addr
    let l3 := pdptIndex va
    if !(s.mem pdpt l3).present || (s.mem pdpt l3).huge then (pageSize, s)
    else
      let pd := (s.mem pdpt l3).addr
      let l2 := pdIndex va
      if !(s.mem pd l2).present then (pageSize, s)
      -- a huge page is cleared whole, whatever part of it `va` points to; its tables stay
      else if (s.mem pd l2).huge then (pageSizeHuge, s.store .pd pd l2 0#64)
      else
        let pt := (s.mem pd l2).addr
        let l1 := ptIndex va
        if !(s.mem pt l1).present then (pageSize, s)
        else (pageSize, (s.store .pt pt l1 0#64).teardown root pdpt pd pt l4 l3 l2)

/-- The loop of `pmap_unmap`. -/
def unmapLoop (root vaEnd : Addr) : ℕ → Addr → PmState σ → Option (PmState σ)
  | 0, _, _ => none
  | fuel + 1, va, s =>
      if va < vaEnd then
        let (advance, s) := s.pmapUnmapPage root va
        unmapLoop root vaEnd fuel (va + advance) s
      else some s

/-- `pmap_unmap`. -/
def pmapUnmap (fuel : ℕ) (s : PmState σ) (root virt size : Addr) : Option (PmState σ) :=
  if size = 0 then some s
  else unmapLoop root ((virt + size + 0xFFF#64) &&& ~~~0xFFF#64) fuel (virt &&& ~~~0xFFF#64) s

/-! ### Whole address spaces

A new root shares the tables of the kernel's half, and `pmap_destroy` gives back what hangs below
the other half. -/

/-- `pmap_create` after its `kmalloc`, given the `pm_root_phys` of the kernel's pmap. The result of
the allocation is not checked in the source either. -/
def pmapCreate (s : PmState σ) (kernelRoot : Addr) : Addr × PmState σ :=
  let (pml4, s) := s.allocPages
  (pml4, (s.clear pml4).copyUpper kernelRoot pml4)

/-- `pmap_init`, with the `pm_root_phys` of the kernel's pmap unless it returns `-1`. -/
def pmapInit (s : PmState σ) : Option Addr × PmState σ :=
  let (pml4, s) := s.allocPages
  if pml4 = 0 then (none, s) else (some pml4, s.clear pml4)

/-- The innermost loop of `pmap_destroy`. -/
def destroyPd (s : PmState σ) (pd : Addr) : PmState σ :=
  (List.range 512).foldl (fun s k =>
    let e := s.mem pd (BitVec.ofNat 9 k)
    if e.present ∧ ¬ e.huge then s.freePages e.addr else s) s

/-- The middle loop of `pmap_destroy`. -/
def destroyPdpt (s : PmState σ) (pdpt : Addr) : PmState σ :=
  (List.range 512).foldl (fun s j =>
    let e := s.mem pdpt (BitVec.ofNat 9 j)
    if e.present ∧ ¬ e.huge then
      let pd := e &&& ~~~0xFFF#64
      (s.destroyPd pd).freePages pd
    else s) s

/-- `pmap_destroy`, but for the final `kfree`. -/
def pmapDestroy (s : PmState σ) (root : Addr) : PmState σ :=
  let s := (List.range 256).foldl (fun s i =>
    let e := s.mem root (BitVec.ofNat 9 i)
    if e.present then (s.destroyPdpt e.addr).freePages e.addr else s) s
  s.freePages root

end PmState

end Koharu
