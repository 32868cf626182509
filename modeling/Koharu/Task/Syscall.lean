import Koharu.Task.Grant

/-!
# System calls on address spaces and threads

`SYS_MAP`, `SYS_UNMAP`, `SYS_GRANT` and `SYS_THREAD_CONTROL` of `kernel/task/syscall.c`.

The loops over address ranges are functions of the iterations they may take; `none` is a call that
does not return, either because a loop is not done by then or because it follows a pointer to
something that is not there. A store through an unmapped address halts the kernel.

`thread_create_child` needs memory from the kernel heap. What `kmalloc` gives it is an argument,
`Alloc`.
-/

namespace Koharu

namespace Kernel

variable {σ : Type}

/-! ### Stores to user memory

`put_user_u64` checks nothing: the store goes where the hardware translates the address. -/

/-- Whether the hardware accepts the address: bits 47 to 63 are equal. -/
def canonical (va : Addr) : Bool := (va.setWidth 48).signExtend 64 = va

/-- The translation of the hardware, which knows huge pages on two levels. -/
def mmuTranslate (mem : Addr → BitVec 9 → Entry) (root va : Addr) : Option Addr :=
  let e4 := mem root (pml4Index va)
  let e3 := mem e4.addr (pdptIndex va)
  let e2 := mem e3.addr (pdIndex va)
  let e1 := mem e2.addr (ptIndex va)
  if !canonical va || !e4.present || !e3.present then none
  else if e3.huge then some ((e3 &&& 0x000FFFFFC0000000#64) + (va &&& 0x3FFFFFFF#64))
  else if !e2.present then none
  else if e2.huge then some ((e2 &&& pdAddrMask) + (va &&& 0x1FFFFF#64))
  else if !e1.present then none
  else some (e1.addr + (va &&& 0xFFF#64))

/-- The page of a physical address. -/
def pageOf (phys : Addr) : Addr := phys &&& ~~~0xFFF#64

/-- Replace one byte of memory. -/
def storeByte (mem : Addr → BitVec 9 → Entry) (phys : Addr) (b : BitVec 8) :
    Addr → BitVec 9 → Entry :=
  let i : BitVec 9 := (phys >>> 3).setWidth 9
  let shift := 8 * (phys.toNat % 8)
  Radix.write mem (pageOf phys) i
    ((mem (pageOf phys) i &&& ~~~(0xFF#64 <<< shift)) ||| (b.setWidth 64 <<< shift))

/-- `put_user_u64`. The address is not looked at; the store is one of the kernel in the active
address space. It has no result when it faults, and none when it goes into the kernel's own code or
data: what becomes of the kernel then is open, see `putUserOverwrites`. -/
def putUserU64 (s : Kernel σ) (dst : Addr) (val : BitVec 64) : Option (Kernel σ) := do
  let bytes ← (List.range 8).mapM fun k =>
    (mmuTranslate s.pm.mem s.cr3 (dst + BitVec.ofNat 64 k)).map fun phys =>
      (phys, (val >>> (8 * k)).setWidth 8)
  if bytes.any fun b => s.kernelData (pageOf b.1) then none
  else
    let mem := bytes.foldl (fun mem b => storeByte mem b.1 b.2) s.pm.mem
    return { s with pm := { s.pm with mem } }

/-- Whether the eight bytes at `dst` are mapped and one of them is the kernel's own code or data, so
that `put_user_u64` overwrites it. -/
def putUserOverwrites (s : Kernel σ) (dst : Addr) : Bool :=
  ((List.range 8).mapM fun k => mmuTranslate s.pm.mem s.cr3 (dst + BitVec.ofNat 64 k)).any
    fun bytes => bytes.any fun phys => s.kernelData (pageOf phys)

/-- Where `put_user_u64` overwrites nothing of the kernel's, it stores all bytes or faults. -/
theorem putUserU64_isSome_iff {s : Kernel σ} {dst : Addr} (h : s.putUserOverwrites dst = false)
    (val : BitVec 64) : (s.putUserU64 dst val).isSome ↔
      ((List.range 8).mapM fun k =>
        mmuTranslate s.pm.mem s.cr3 (dst + BitVec.ofNat 64 k)).isSome := by
  have hmap : ∀ l : List ℕ, (l.mapM fun k =>
      (mmuTranslate s.pm.mem s.cr3 (dst + BitVec.ofNat 64 k)).map fun phys =>
        (phys, ((val >>> (8 * k)).setWidth 8 : BitVec 8))) =
      (l.mapM fun k => mmuTranslate s.pm.mem s.cr3 (dst + BitVec.ofNat 64 k)).map fun bytes =>
        bytes.zip (l.map fun k => (val >>> (8 * k)).setWidth 8) := by
    intro l
    induction l with
    | nil => rfl
    | cons k l ih =>
        simp only [List.mapM_cons, ih]
        cases mmuTranslate s.pm.mem s.cr3 (dst + BitVec.ofNat 64 k) with
        | none => rfl
        | some phys =>
            cases l.mapM fun k => mmuTranslate s.pm.mem s.cr3 (dst + BitVec.ofNat 64 k) <;> rfl
  unfold putUserOverwrites at h
  rw [putUserU64, hmap]
  cases hbytes : (List.range 8).mapM fun k =>
      mmuTranslate s.pm.mem s.cr3 (dst + BitVec.ofNat 64 k) with
  | none => simp
  | some bytes =>
      rw [hbytes, Option.any_some] at h
      -- the addresses of the stores are those of the bytes
      have hspared : ∀ phys (b : BitVec 8), (phys, b) ∈ bytes.zip ((List.range 8).map fun k =>
          (val >>> (8 * k)).setWidth 8) → s.kernelData (pageOf phys) = false := by
        intro phys b hb
        simpa using List.any_eq_false.mp h phys (List.of_mem_zip hb).1
      simpa using hspared

/-! ### The range loops of `SYS_MAP`

One loop tests the rights and one counts. Both take the steps of the source, with its wrapping
additions. -/

/-- The rights that `SYS_MAP` asks for. -/
def mapRights (prot : BitVec 64) : BitVec 8 :=
  (if prot &&& protRead.setWidth 64 != 0 then grantRead else 0) |||
    (if prot &&& protWrite.setWidth 64 != 0 then grantWrite else 0)

/-- The first loop of `SYS_MAP`: whether the caller holds every frame it looks at. -/
def mapCheck (s : Kernel σ) (rights : BitVec 8) (paEnd : Addr) : ℕ → Addr → Option Bool
  | 0, _ => none
  | fuel + 1, pa =>
      if pa < paEnd then do
        let held ← s.grantHolds s.cur.pmap (physToPfn pa) rights
        if held then mapCheck s rights paEnd fuel (pa + pageSize) else return false
      else some true

/-- The second loop of `SYS_MAP`. -/
def mapCount (paEnd : Addr) : ℕ → Addr → Kernel σ → Option (Kernel σ)
  | 0, _, _ => none
  | fuel + 1, pa, s =>
      if pa < paEnd then mapCount paEnd fuel (pa + pageSize) (s.grantMappingAdd (physToPfn pa))
      else some s

/-- The flags that `SYS_MAP` hands to `pmap_map`. -/
def mapFlags (prot : BitVec 64) : BitVec 32 := (prot ||| protUser.setWidth 64).setWidth 32

/-! ### Threads

What `TC_CREATE` needs from the heap, and what a call can end with. -/

/-- What the kernel heap gives `TC_CREATE`. -/
structure Alloc where
  /-- The address of the new `pmap_t`, or `0`. -/
  pmapPtr : Addr
  /-- Whether there is memory for the `struct thread`. -/
  thread : Bool
  /-- Whether there is memory for the thread's place in the registry. -/
  register : Bool

/-- `thread_create_child`: the new tid, if there is one. -/
def threadCreateChild (s : Kernel σ) (alloc : Alloc) (pmap : Addr) :
    Option (BitVec 64) × Kernel σ :=
  if !alloc.thread then (none, s)
  else
    let tid : BitVec 64 := s.nextTid.setWidth 64
    let s := { s with nextTid := s.nextTid + 1 }
    if !alloc.register then (none, s)
    else (some tid, { s with
      thread := Function.update s.thread tid { pmap, pagerTid := 0, utcb := 0, state := .created }
      registered := Function.update s.registered tid true })

/-- How a system call ends. -/
inductive Outcome (σ : Type)
  /-- It returns to its caller. -/
  | returned (value : BitVec 64) (s : Kernel σ)
  /-- The calling thread does not run again. -/
  | exited (s : Kernel σ)

/-- The end of `TC_CREATE`, for the new thread `tid`. -/
def setUtcb (s : Kernel σ) (tid pager : BitVec 64) (utcb : Addr) : Option (Kernel σ) :=
  let s := { s with
    thread := Function.update s.thread tid { s.thread tid with pagerTid := pager, utcb } }
  if utcb = 0 then some s
  else do
    let s ← s.putUserU64 (utcb + 0) tid
    s.putUserU64 (utcb + 8) pager

/-- Whether the stores at the end of `TC_CREATE` overwrite the kernel's own code or data. -/
def setUtcbOverwrites (s : Kernel σ) (tid pager : BitVec 64) (utcb : Addr) : Bool :=
  let s := { s with
    thread := Function.update s.thread tid { s.thread tid with pagerTid := pager, utcb } }
  utcb ≠ 0 && (s.putUserOverwrites (utcb + 0) ||
    (s.putUserU64 (utcb + 0) tid).any fun s => s.putUserOverwrites (utcb + 8))

/-- `TC_DESTROY`. For a target that may run, `sched_exit` ends the caller. -/
def tcDestroy (s : Kernel σ) (a2 : BitVec 64) : Outcome σ :=
  if !s.registered a2 then .returned (-1) s
  else if (s.thread a2).pagerTid ≠ s.current then .returned (-1) s
  else if (s.thread a2).state = .ready ∨ (s.thread a2).state = .running then
    .exited { s with
      thread := Function.update s.thread s.current { s.cur with state := .terminated } }
  else .returned 0 { s with registered := Function.update s.registered a2 false }

/-- `TC_BIND_SPACE`. -/
def tcBindSpace (s : Kernel σ) (a2 a3 : BitVec 64) : Outcome σ :=
  if !s.registered a2 then .returned (-1) s
  else if (s.thread a2).pagerTid ≠ s.current then .returned (-1) s
  else if a3 = 0 then .returned (-1) s
  else .returned 0 { s with
    thread := Function.update s.thread a2 { s.thread a2 with pmap := a3 } }

/-! ### `SYS_GRANT` -/

/-- `SYS_GRANT`. -/
def sysGrant (s : Kernel σ) (kmalloc : Bool) (a1 a2 a3 : BitVec 64) :
    Option (BitVec 64 × Kernel σ) :=
  if !s.registered a1 then some (-1, s)
  else if a3 = 0 ∨ a3 &&& ~~~(grantRead ||| grantWrite ||| grantGrant).setWidth 64 ≠ 0 then
    some (-1, s)
  else do
    let pfn := physToPfn a2
    let held ← s.grantHolds s.cur.pmap pfn (a3.setWidth 8)
    if !held then return (-1, s)
    let (ok, s) ← s.grantAdd kmalloc (s.thread a1).pmap pfn (a3.setWidth 8)
    return (if ok then 0 else -1, s)

/-! ### Pmaps by address

System calls name a pmap by the address of its `pmap_t`. There is no result where nothing is at the
address. -/

/-- `pmap_extract`. -/
def pmapExtract (s : Kernel σ) (pmap va : Addr) : Option Addr :=
  if pmap = 0 then some 0
  else do
    let p ← s.pmaps pmap
    return s.pm.pmapExtract p.rootPhys va

variable [PageAllocator σ]

/-- `pmap_map`, and whether it returns `0`. -/
def pmapMap (fuel : ℕ) (s : Kernel σ) (pmap virt phys size : Addr) (flags : BitVec 32) :
    Option (Bool × Kernel σ) :=
  if pmap = 0 then some (false, s)
  else do
    let p ← s.pmaps pmap
    let (ok, pm) ← s.pm.pmapMap fuel p.rootPhys virt phys size flags
    return (ok, { s with pm })

/-- `pmap_unmap`. -/
def pmapUnmap (fuel : ℕ) (s : Kernel σ) (pmap virt size : Addr) : Option (Kernel σ) :=
  if pmap = 0 then some s
  else do
    let p ← s.pmaps pmap
    let pm ← s.pm.pmapUnmap fuel p.rootPhys virt size
    return { s with pm }

/-- `pmap_create`, where `ptr` is what `kmalloc` returned. -/
def pmapCreate (s : Kernel σ) (ptr : Addr) : Option (Addr × Kernel σ) :=
  if ptr = 0 then some (0, s)
  else do
    let k ← s.pmaps s.kernelPmap
    let (root, pm) := s.pm.pmapCreate k.rootPhys
    return (ptr, { s with
      pm
      pmaps := Function.update s.pmaps ptr (some { rootPhys := root, grants := [] }) })

/-- `pmap_destroy`. -/
def pmapDestroy (s : Kernel σ) (pmap : Addr) : Option (Kernel σ) :=
  if pmap = 0 ∨ pmap = s.kernelPmap then some s
  else do
    let p ← s.pmaps pmap
    return { s with
      pm := s.pm.pmapDestroy p.rootPhys
      pmaps := Function.update s.pmaps pmap none }

/-! ### `SYS_MAP` -/

/-- `SYS_MAP`. -/
def sysMap (fuel : ℕ) (s : Kernel σ) (a1 a2 a3 a4 a5 : BitVec 64) :
    Option (BitVec 64 × Kernel σ) :=
  if !s.registered a1 then some (-1, s)
  else if (s.thread a1).pagerTid ≠ s.current then some (-1, s)
  else if a4 = 0 then some (-1, s)
  else if mapRights a5 = 0 then some (-1, s)
  else do
    let held ← s.mapCheck (mapRights a5) (a3 + a4) fuel a3
    if !held then return (-1, s)
    let (ok, s) ← s.pmapMap fuel (s.thread a1).pmap a2 a3 a4 (mapFlags a5)
    if !ok then return (-1, s)
    let s ← mapCount (a3 + a4) fuel a3 s
    return (0, s)

/-! ### `SYS_UNMAP` -/

/-- The loop of `SYS_UNMAP`. -/
def unmapPages (pmap vaEnd : Addr) : ℕ → Addr → Kernel σ → Option (Kernel σ)
  | 0, _, _ => none
  | fuel + 1, va, s =>
      if va < vaEnd then do
        let phys ← s.pmapExtract pmap va
        if phys = 0 then unmapPages pmap vaEnd fuel (va + pageSize) s
        else
          let s ← s.pmapUnmap fuel pmap va pageSize
          unmapPages pmap vaEnd fuel (va + pageSize) (s.grantMappingRemove (physToPfn phys))
      else some s

/-- `SYS_UNMAP`. -/
def sysUnmap (fuel : ℕ) (s : Kernel σ) (a1 a2 a3 : BitVec 64) : Option (BitVec 64 × Kernel σ) :=
  if !s.registered a1 then some (-1, s)
  else if (s.thread a1).pagerTid ≠ s.current then some (-1, s)
  else if a3 = 0 then some (-1, s)
  else do
    let s ← unmapPages (s.thread a1).pmap (a2 + a3) fuel (a2 &&& ~~~0xFFF#64) s
    return (0, s)

/-! ### `SYS_THREAD_CONTROL` -/

/-- `TC_CREATE`. -/
def tcCreate (s : Kernel σ) (alloc : Alloc) (a3 a4 a5 : BitVec 64) : Option (Outcome σ) := do
  let (pmap, s) ← if a3 ≠ 0 then some (a3, s) else s.pmapCreate alloc.pmapPtr
  if pmap = 0 then return .returned (-1) s
  match s.threadCreateChild alloc pmap with
  | (none, s) =>
      let s ← if a3 = 0 then s.pmapDestroy pmap else some s
      return .returned (-1) s
  | (some tid, s) =>
      let s ← s.setUtcb tid a4 a5
      return .returned tid s

/-- `sys_thread_control`. -/
def sysThreadControl (s : Kernel σ) (alloc : Alloc) (op a2 a3 a4 a5 : BitVec 64) :
    Option (Outcome σ) :=
  if op = 0 then s.tcCreate alloc a3 a4 a5
  else if op = 1 then some (s.tcDestroy a2)
  else if op = 2 then some (s.tcBindSpace a2 a3)
  else some (.returned (-1) s)

end Kernel

end Koharu
