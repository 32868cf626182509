import Koharu.Arch.Pmap
import Koharu.Task.Ipc

/-!
# Kernel objects and grants

The objects that the system calls on address spaces work on: the pmaps, each with its page tables
and its grants, the threads, and the counters of `kernel/task/grant.c`.

Objects on the kernel heap are named by their addresses. A function that follows a pointer to
something that is not there is not defined, and returns `none`.
-/

namespace Koharu

/-- `struct grant_entry`. -/
structure GrantEntry where
  pfn : BitVec 64
  rights : BitVec 8
  deriving DecidableEq

/-- `GRANT_READ`. -/
def grantRead : BitVec 8 := 1#8 <<< 0

/-- `GRANT_WRITE`. -/
def grantWrite : BitVec 8 := 1#8 <<< 1

/-- `GRANT_GRANT`. -/
def grantGrant : BitVec 8 := 1#8 <<< 2

/-- The search of `grant_add` and what follows it: the rights go to the entry for the frame, or to a
new one at the end. -/
def addEntry (pfn : BitVec 64) (rights : BitVec 8) : List GrantEntry → List GrantEntry
  | [] => [{ pfn, rights }]
  | e :: l =>
      if e.pfn = pfn then { e with rights := e.rights ||| rights } :: l
      else e :: addEntry pfn rights l

/-- `pmap_t`. -/
structure Pmap where
  /-- `pm_root_phys`; `pm_root_virt` is its address in the direct map. -/
  rootPhys : Addr
  /-- `grant_list`. -/
  grants : List GrantEntry
  deriving DecidableEq

/-- `struct thread`, as far as these system calls use it. -/
structure KThread where
  pmap : Addr
  pagerTid : BitVec 64
  utcb : Addr
  state : ThreadState
  deriving DecidableEq

/-- The kernel, as far as these system calls use it. -/
structure Kernel (σ : Type) where
  /-- Page tables and the page allocator. -/
  pm : PmState σ
  /-- The pmaps there are, by address. -/
  pmaps : Addr → Option Pmap
  /-- `pmap_kernel()`. -/
  kernelPmap : Addr
  /-- The threads, by tid. -/
  thread : BitVec 64 → KThread
  /-- The tids `thread_lookup` finds. -/
  registered : BitVec 64 → Bool
  /-- `g_next_tid`. -/
  nextTid : BitVec 32
  /-- The tid of `curcpu->current`. -/
  current : BitVec 64
  /-- The address space that is active. -/
  cr3 : Addr
  /-- The pages that hold the kernel's own code and data. -/
  kernelData : Addr → Bool
  /-- `g_root_pmap`. -/
  rootPmap : Addr
  /-- `g_frames`. -/
  frames : BitVec 64
  /-- The bits of `g_pool_v`. -/
  pool : BitVec 64 → Bool
  /-- `g_refs`. -/
  refs : BitVec 64 → BitVec 16
  /-- `g_maps`. -/
  maps : BitVec 64 → BitVec 16

/-- `phys_to_pfn`. -/
def physToPfn (phys : Addr) : BitVec 64 := phys >>> 12

namespace Kernel

variable {σ : Type}

/-- `curcpu->current`. -/
def cur (s : Kernel σ) : KThread := s.thread s.current

/-- `grant_pool_test`. -/
def grantPoolTest (s : Kernel σ) (pfn : BitVec 64) : Bool :=
  if s.frames ≤ pfn then false else s.pool pfn

/-- `grant_holds`. -/
def grantHolds (s : Kernel σ) (pmap : Addr) (pfn : BitVec 64) (rights : BitVec 8) : Option Bool :=
  if pmap = 0 ∨ s.frames ≤ pfn then some false
  else if pmap = s.rootPmap ∧ s.grantPoolTest pfn ∧ s.refs pfn = 0 then some true
  else do
    let p ← s.pmaps pmap
    match p.grants.find? fun e => e.pfn = pfn with
    | some e => return e.rights &&& rights = rights
    | none => return false

/-- Replace the grants of a pmap. -/
def setGrants (s : Kernel σ) (pmap : Addr) (p : Pmap) (grants : List GrantEntry) : Kernel σ :=
  { s with pmaps := Function.update s.pmaps pmap (some { p with grants }) }

/-- `grant_add`, and whether it returns `0`. The flag tells whether `kmalloc` has memory for an
entry. -/
def grantAdd (s : Kernel σ) (kmalloc : Bool) (pmap : Addr) (pfn : BitVec 64) (rights : BitVec 8) :
    Option (Bool × Kernel σ) :=
  if pmap = 0 ∨ s.frames ≤ pfn then some (false, s)
  else if !kmalloc then some (false, s)
  else do
    let p ← s.pmaps pmap
    let s := s.setGrants pmap p (addEntry pfn rights p.grants)
    -- an entry that was there keeps its reference
    if p.grants.any fun e => e.pfn = pfn then return (true, s)
    else return (true, { s with refs := Function.update s.refs pfn (s.refs pfn + 1) })

/-- `grant_drop`, and whether it returns `0`. -/
def grantDrop (s : Kernel σ) (pmap : Addr) (pfn : BitVec 64) : Option (Bool × Kernel σ) :=
  if pmap = 0 ∨ s.frames ≤ pfn then some (false, s)
  else do
    let p ← s.pmaps pmap
    if p.grants.any fun e => e.pfn = pfn then
      let s := s.setGrants pmap p (p.grants.eraseP fun e => e.pfn = pfn)
      if s.refs pfn ≠ 0 then
        return (true, { s with refs := Function.update s.refs pfn (s.refs pfn - 1) })
      else return (true, s)
    else return (false, s)

/-- `grant_mapping_add`. -/
def grantMappingAdd (s : Kernel σ) (pfn : BitVec 64) : Kernel σ :=
  if pfn < s.frames then { s with maps := Function.update s.maps pfn (s.maps pfn + 1) } else s

/-- `grant_mapping_remove`. -/
def grantMappingRemove (s : Kernel σ) (pfn : BitVec 64) : Kernel σ :=
  if pfn < s.frames ∧ s.maps pfn ≠ 0 then
    { s with maps := Function.update s.maps pfn (s.maps pfn - 1) }
  else s

end Kernel

end Koharu
