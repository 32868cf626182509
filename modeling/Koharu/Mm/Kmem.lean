import Koharu.Mm.HeapPages
import Koharu.Mm.TlsfPools
import Koharu.Mm.TlsfRealloc
import Mathlib.Order.Interval.Finset.Nat

/-!
# Kernel memory

`kernel/mm/kmem.c` on all CPUs, in memory: the heaps of `tlsf.c`, one for each CPU, in pages from
`pmm.c`, and the lists of blocks that other CPUs have freed. A call is one step here; what the
instructions of several CPUs do to such a list at the same time is in `PendingFrees.lean`. A
function is not defined where the source follows a `tlsf_ctrl` that is `NULL`, or an assertion
fails.

* `Kmem`: the state;
* `kmalloc`, `kfree`, `krealloc`, `percpuTlsfInit`: the functions of `kmem.c`;
* `Heaps`: what the heaps are, without the contents of memory;
* `Rep`: the heaps are in memory;
* `Leads`: a function takes heaps to heaps, and leaves the blocks alone that are in use;
* `leads_kmalloc`, `leads_kfree`, `leads_init`: it is so for the functions.
-/

namespace Koharu

open Tlsf (Size Control adjustRequestSize mappingSearch flIndexCount blockStartOffset
  blockHeaderOverhead)
open WordMemory Tiling TlsfMem

/-- The fields of `control_t` that no pointer points to. -/
structure ControlFields where
  flBitmap : BitVec 32
  slBitmap : ℕ → BitVec 32
  blocks : ℕ → Fin 32 → Addr

/-- `struct cpu`, with what `tlsf_ctrl` points to. -/
structure Cpu where
  /-- `0` is `NULL`. -/
  tlsfCtrl : Addr
  fields : ControlFields
  pendingFreeList : Addr

/-- The heap of a CPU, in memory. -/
def Cpu.heap (c : Cpu) (mem : Addr → BitVec 8) : TlsfMem :=
  ⟨mem, c.fields.flBitmap, c.fields.slBitmap, c.fields.blocks⟩

/-- The fields of the control structure have changed. -/
def Cpu.setHeap (c : Cpu) (m : TlsfMem) : Cpu :=
  { c with fields := ⟨m.flBitmap, m.slBitmap, m.blocks⟩ }

/-- The kernel's memory, and who owns what of it. -/
structure Kmem where
  mem : Addr → BitVec 8
  cpus : CpuId → Cpu
  pmm : Pmm
  /-- `mem_map[pfn].owner_cpu_id`. -/
  owner : ℕ → CpuId
  /-- The blocks of pages that were added to the heap of a CPU. -/
  pages : Finset (CpuId × Block)

/-- A function of the kernel. -/
abbrev KmemM := StateT Kmem Option

namespace Kmem

variable (clzZero : ℕ) (cpu : CpuId)

/-- A function of `tlsf.c` is called with the `tlsf_ctrl` of a CPU, and follows it. -/
def onHeap {α : Type} (f : Addr → TlsfMem → Option (α × TlsfMem)) : KmemM α := fun k =>
  if (k.cpus cpu).tlsfCtrl = 0 then none
  else (f (k.cpus cpu).tlsfCtrl ((k.cpus cpu).heap k.mem)).map fun r =>
    (r.1, { k with mem := r.2.mem, cpus := Function.update k.cpus cpu ((k.cpus cpu).setHeap r.2) })

/-- `tlsf_malloc`. It does not look at the heap for sizes that there is no list for. -/
def tlsfMalloc (size : Size) : KmemM Addr := fun k =>
  if (k.cpus cpu).tlsfCtrl = 0 ∧
      (adjustRequestSize size = 0 ∨ flIndexCount ≤ (mappingSearch (adjustRequestSize size)).1) then
    some (0, k)
  else onHeap cpu (fun control m => m.tlsfMalloc control size) k

/-- `tlsf_free`, of a block. -/
def tlsfFree (ptr : Addr) : KmemM Unit :=
  onHeap cpu fun control m => (m.tlsfFree control ptr).map fun m => ((), m)

/-- `tlsf_realloc`, of a block. -/
def tlsfRealloc (ptr : Addr) (size : Size) : KmemM Addr :=
  onHeap cpu fun control m => m.tlsfRealloc control ptr size

/-- `tlsf_add_pool`, for a pool of a size that there is a list for. -/
def tlsfAddPool (mem bytes : BitVec 64) : KmemM Addr :=
  onHeap cpu fun control m => m.tlsfAddPool control mem bytes

/-- Memory, for functions of `tlsf.c` that look at headers only. -/
def headers (k : Kmem) : TlsfMem := ⟨k.mem, 0, fun _ => 0, fun _ _ => 0⟩

/-- `tlsf_block_size`. -/
def tlsfBlockSize (k : Kmem) (ptr : Addr) : Size := k.headers.tlsfBlockSize ptr

/-- `tlsf_alloc_overhead`. -/
def tlsfAllocOverhead : Size := blockHeaderOverhead

/-- The loop of `tlsf_flush_pending`. It ends, as there are less than `2 ^ 64` blocks. -/
def flushLoop : ℕ → Addr → KmemM Unit
  | 0, _ => failure
  | fuel + 1, pending =>
      if pending = 0 then pure ()
      else do
        let next := load (← get).mem (pending + 16#64)
        tlsfFree cpu (pending + blockStartOffset)
        flushLoop fuel next

/-- `tlsf_flush_pending`. -/
def tlsfFlushPending : KmemM Unit := do
  let c := (← get).cpus cpu
  if c.tlsfCtrl = 0 then pure ()
  else
    modify fun k => { k with cpus := Function.update k.cpus cpu { c with pendingFreeList := 0 } }
    flushLoop cpu (2 ^ 64) c.pendingFreeList

/-- `tlsf_push_pending`. -/
def tlsfPushPending (ptr : Addr) : KmemM Unit :=
  modify fun k => { k with
    mem := store k.mem (tlsfPtrToBlock ptr + 16#64) (k.cpus cpu).pendingFreeList
    cpus := Function.update k.cpus cpu { k.cpus cpu with pendingFreeList := tlsfPtrToBlock ptr } }

/-- Take a block of pages from `pmm_alloc_pages`, and write its owner to every page. -/
def ownPages (order : ℤ) : KmemM ℕ := fun k => do
  let alloc ← k.pmm.pmmAllocPages order
  let phys := alloc.1.getD 0
  if phys = 0 then some (0, { k with pmm := alloc.2 })
  else
    let base := Pmm.physToPfn phys
    some (phys, { k with
      pmm := alloc.2
      owner := fun pfn => if base ≤ pfn ∧ pfn < base + 2 ^ order.toNat then cpu else k.owner pfn
      pages := insert (cpu, ⟨base, order.toNat⟩) k.pages })

/-- `phys_to_virt`. -/
def physToVirt (phys : ℕ) : Addr := BitVec.ofNat 64 phys + hhdmOffset

/-- The end of the slow path of `kmalloc` and `krealloc`: add pages to the heap, unless there are
none. -/
def addPages (size : Size) : KmemM Bool := do
  let order := kmallocOrder clzZero size
  let phys ← ownPages cpu order
  if phys = 0 then return false
  else
    let _ ← tlsfAddPool cpu (physToVirt phys) (BitVec.twoPow 64 (order.toNat + 12))
    return true

/-- `kmalloc`. -/
def kmalloc (size : Size) : KmemM Addr := do
  if size = 0 then return 0
  else
    let ptr ← tlsfMalloc cpu size
    if ptr ≠ 0 then return ptr
    else
      tlsfFlushPending cpu
      let ptr ← tlsfMalloc cpu size
      if ptr ≠ 0 then return ptr
      else
        let added ← addPages clzZero cpu size
        if added = true then tlsfMalloc cpu size else return 0

/-- `kfree`. -/
def kfree (ptr : Addr) : KmemM Unit := do
  if ptr = 0 then return ()
  else
    let owner := (← get).owner (virtToPfn ptr)
    if cpu = owner then tlsfFree cpu ptr else tlsfPushPending owner ptr

/-- `tlsf_min`. -/
def tlsfMin (a b : Size) : Size := if a < b then a else b

/-- `krealloc` on a CPU that the block does not belong to. -/
def kreallocForeign (ptr : Addr) (size : Size) : KmemM Addr := do
  let oldSize := (← get).tlsfBlockSize ptr - tlsfAllocOverhead
  let newPtr ← kmalloc clzZero cpu size
  if newPtr = 0 then return 0
  else
    modify fun k => { k with mem := memcpy newPtr ptr (tlsfMin size oldSize).toNat k.mem }
    kfree cpu ptr
    return newPtr

/-- `krealloc` on the CPU that the block belongs to. -/
def kreallocOwner (ptr : Addr) (size : Size) : KmemM Addr := do
  let newPtr ← tlsfRealloc cpu ptr size
  if newPtr ≠ 0 then return newPtr
  else
    tlsfFlushPending cpu
    let newPtr ← tlsfRealloc cpu ptr size
    if newPtr ≠ 0 then return newPtr
    else
      let added ← addPages clzZero cpu size
      if added = true then tlsfRealloc cpu ptr size else return 0

/-- `krealloc`. -/
def krealloc (ptr : Addr) (size : Size) : KmemM Addr := do
  if ptr = 0 then kmalloc clzZero cpu size
  else if size = 0 then
    kfree cpu ptr
    return 0
  else
    let owner := (← get).owner (virtToPfn ptr)
    if cpu ≠ owner then kreallocForeign clzZero cpu ptr size else kreallocOwner clzZero cpu ptr size

/-- `percpu_tlsf_init`. -/
def percpuTlsfInit : KmemM ℤ := do
  let phys ← ownPages cpu 4
  if phys = 0 then return -1
  else fun k => do
    let r ← ((k.cpus cpu).heap k.mem).tlsfCreateWithPool (physToVirt phys) (BitVec.twoPow 64 16)
    some (0, { k with
      mem := r.2.mem
      cpus := Function.update k.cpus cpu { (k.cpus cpu).setHeap r.2 with tlsfCtrl := r.1 } })

end Kmem

/-! ### What the heaps are

`Heaps` is what can be said of the heaps without looking at memory: their pools and lists, what is
pending, and whose pages are whose. `Rep` connects it with a state of memory. -/

/-- The heap of a CPU, without the contents of memory. -/
structure CpuHeap where
  control : Addr
  lists : Control
  pools : List Pool
  /-- The blocks on `pending_free_list`. -/
  pending : List (ℕ × ℕ)

/-- The heaps of all CPUs, and the pages that they are in. -/
structure Heaps where
  cpus : CpuId → CpuHeap
  pmm : Pmm
  owner : ℕ → CpuId
  pages : Finset (CpuId × Block)

/-- What is in the block is the same. -/
def SameBytes (mem mem' : Addr → BitVec 8) (x : ℕ × ℕ) : Prop :=
  ∀ z, x.1 + 16 ≤ z ∧ z < x.1 + 16 + x.2 → mem' (BitVec.ofNat 64 z) = mem (BitVec.ofNat 64 z)

/-- The blocks are linked, one after the other, by their first words. -/
def Linked (mem : Addr → BitVec 8) (block : Addr) : List (ℕ × ℕ) → Prop
  | [] => block = 0
  | x :: l => block = BitVec.ofNat 64 x.1 ∧ Linked mem (wordAt mem (x.1 + 16)) l

namespace CpuHeap

/-- The blocks that the kernel has: they are in use, and no CPU has freed them. -/
def held (h : CpuHeap) : Set (ℕ × ℕ) := {x | x ∈ blocksOf false h.pools ∧ x.2 ≠ 0 ∧ x ∉ h.pending}

/-- The heap is within the addresses `S`, and what is pending was in use. -/
structure Ok (h : CpuHeap) (S : Set ℕ) : Prop where
  control : h.control ≠ 0 → h.control.toNat ∈ S
  words : h.control ≠ 0 → HeapWords h.control h.pools ⊆ S
  pools : h.control = 0 → h.pools = []
  used : ∀ x ∈ h.pending, x ∈ blocksOf false h.pools ∧ x.2 ≠ 0
  nodup : h.pending.Nodup

/-- The heap is in memory. -/
structure Rep (h : CpuHeap) (mem : Addr → BitVec 8) (c : Cpu) : Prop where
  control : c.tlsfCtrl = h.control
  good : h.control ≠ 0 → Good h.control (c.heap mem) h.lists h.pools
  linked : Linked mem c.pendingFreeList h.pending

end CpuHeap

namespace Heaps

/-- The addresses of the pages of a CPU. -/
def pagesOf (A : Heaps) (cpu : CpuId) : Set ℕ := {w | ∃ b, (cpu, b) ∈ A.pages ∧ w ∈ mapped b}

/-- The blocks that the kernel has. -/
def held (A : Heaps) : Set (CpuId × ℕ × ℕ) := {h | h.2 ∈ (A.cpus h.1).held}

/-- The heaps are in their pages. -/
structure Ok (A : Heaps) (taken : Finset Block) : Prop where
  pages : HeapPages A.pmm taken A.pages A.owner
  cpus : ∀ cpu, (A.cpus cpu).Ok (A.pagesOf cpu)

/-- The heaps are in memory. -/
structure Rep (A : Heaps) (k : Kmem) : Prop where
  cpus : ∀ cpu, (A.cpus cpu).Rep k.mem (k.cpus cpu)
  pmm : k.pmm = A.pmm
  owner : k.owner = A.owner
  pages : k.pages = A.pages

/-- The heap of one CPU is another one. -/
def set (A : Heaps) (cpu : CpuId) (h : CpuHeap) : Heaps :=
  { A with cpus := Function.update A.cpus cpu h }

end Heaps

/-! ### Stores to other memory

Each heap depends on the words of its own headers and free blocks. A store elsewhere keeps it, also
when it is to the contents of a block. -/

section Frame

variable {mem mem' : Addr → BitVec 8} {block : Addr} {x y : ℕ × ℕ} {l : List (ℕ × ℕ)} {S P : Set ℕ}
  {h : CpuHeap} {c : Cpu}

/-- What is known of where a block in use is. -/
theorem TlsfMem.Good.bounds {control : Addr} {m : TlsfMem} {c : Control} {pools : List Pool}
    (h : Good control m c pools) (hx : x ∈ blocksOf false pools) (hsize : x.2 ≠ 0) :
    8 ∣ x.1 ∧ 8 ∣ x.2 ∧ 24 ≤ x.2 ∧ x.2 < 2 ^ 32 ∧ 8 ≤ x.1 ∧ x.1 + 16 + x.2 ≤ 2 ^ 64 := by
  obtain ⟨p, hp⟩ := hx
  have hok := h.layout.headerOk hp
  exact ⟨hok.addr_dvd, hok.size_dvd, hok.min.resolve_left hsize, hok.lt, hok.addr_pos, hok.le⟩

/-- The words of a block in use, and its header, are the heap's. -/
theorem mem_words (hok : h.Ok P) (hx : x ∈ blocksOf false h.pools) {w : ℕ}
    (hw : x.1 + 8 ≤ w ∧ w ≤ x.1 + 8 + x.2) : w ∈ P := by
  obtain ⟨p, hp⟩ := hx
  by_cases hcontrol : h.control = 0
  · rw [hok.pools hcontrol] at hp
    cases hp
  · exact hok.words hcontrol (mem_heapWords h.control hp hw)

/-- A block keeps its bytes while nothing is written. -/
theorem SameBytes.refl (mem : Addr → BitVec 8) (x : ℕ × ℕ) : SameBytes mem mem x := fun _ _ => rfl

/-- What two steps keep is kept by both together. -/
theorem SameBytes.trans {mem'' : Addr → BitVec 8} (h : SameBytes mem mem' x)
    (h' : SameBytes mem' mem'' x) : SameBytes mem mem'' x := fun z hz => (h' z hz).trans (h z hz)

/-- A block in use is not touched by stores to the rest of its heap. -/
theorem TlsfMem.Good.sameBytes {control : Addr} {m : TlsfMem} {c : Control} {pools : List Pool}
    (h : Good control m c pools) (hx : x ∈ blocksOf false pools)
    (hstores : Stores (Spare control pools) mem mem') : SameBytes mem mem' x :=
  fun _ hz => h.byte hx hz hstores.agree

/-- The word behind the first two of a kept block is kept; a block of the smallest size has it. -/
theorem SameBytes.word (h : SameBytes mem mem' x) (hmin : 24 ≤ x.2) :
    wordAt mem' (x.1 + 16) = wordAt mem (x.1 + 16) := by
  apply load_eq_iff.mpr
  intro i hi
  rw [← BitVec.ofNat_add]
  exact h _ ⟨by omega, by omega⟩

/-- The chain of pending blocks is read through the third word of each of them only. -/
theorem Linked.congr (h : Linked mem block l)
    (hsame : ∀ x ∈ l, wordAt mem' (x.1 + 16) = wordAt mem (x.1 + 16)) : Linked mem' block l := by
  induction l generalizing block with
  | nil => exact h
  | cons x l ih =>
      refine ⟨h.1, ?_⟩
      rw [hsame x List.mem_cons_self]
      exact ih h.2 fun y hy => hsame y (List.mem_cons_of_mem x hy)

/-- A block in use keeps its contents when the words of its heap are the same. -/
theorem CpuHeap.Rep.sameBytes (hrep : h.Rep mem c) (hok : h.Ok P) (hagree : Agree S mem mem')
    (hS : Disjoint S P) (hx : x ∈ blocksOf false h.pools) : SameBytes mem mem' x := by
  intro z hz
  by_cases hcontrol : h.control = 0
  · rw [hok.pools hcontrol] at hx
    obtain ⟨p, hp⟩ := hx
    cases hp
  · obtain ⟨hd, hd', -, -, -, hle⟩ := (hrep.good hcontrol).bounds hx (by omega)
    have hword : z / 8 * 8 ∈ P := mem_words hok hx (by omega)
    exact hagree.byte (by omega) (by decide) fun hin => Set.disjoint_left.mp hS hin hword

/-- A heap is in memory as long as its words are. -/
theorem CpuHeap.Rep.of_agree (hrep : h.Rep mem c) (hok : h.Ok P) (hagree : Agree S mem mem')
    (hS : Disjoint S P) : h.Rep mem' c := by
  refine ⟨hrep.control, fun hcontrol => ?_, hrep.linked.congr fun x hx => ?_⟩
  · exact (hrep.good hcontrol).of_agree hagree fun w hw hspare =>
      Set.disjoint_left.mp hS hw (hok.words hcontrol hspare.1)
  · obtain ⟨hused, hsize⟩ := hok.used x hx
    by_cases hcontrol : h.control = 0
    · rw [hok.pools hcontrol] at hused
      obtain ⟨p, hp⟩ := hused
      cases hp
    · exact (hrep.sameBytes hok hagree hS hused).word
        ((hrep.good hcontrol).bounds hused hsize).2.2.1

end Frame

/-! ### One heap changes

The heaps lie in different pages, so that a change of one keeps the others. -/

namespace Heaps

variable {taken : Finset Block} {A A' A'' : Heaps} {k k' : Kmem} {mem' : Addr → BitVec 8}
  {c d cpu : CpuId} {s : Cpu} {B : CpuHeap} {S : Set ℕ} {x y : ℕ × ℕ} {h : CpuId × ℕ × ℕ}
  {H H' : Set (CpuId × ℕ × ℕ)} {α β : Type} {q : α} {r : β} {f : KmemM α} {g : α → KmemM β}

/-- The heap of the CPU that was set. -/
@[simp] theorem set_cpus (A : Heaps) (cpu : CpuId) (B : CpuHeap) : (A.set cpu B).cpus cpu = B :=
  Function.update_self ..

/-- The heaps of the other CPUs stay. -/
theorem set_cpus_of_ne (A : Heaps) (B : CpuHeap) (hne : d ≠ cpu) :
    (A.set cpu B).cpus d = A.cpus d :=
  Function.update_of_ne hne ..

/-- No address is in the pages of two CPUs. -/
theorem Ok.disjoint (hok : A.Ok taken) (hne : c ≠ d) : Disjoint (A.pagesOf c) (A.pagesOf d) := by
  apply Set.disjoint_left.mpr
  rintro w ⟨b, hb, hw⟩ ⟨b', hb', hw'⟩
  exact hne (hok.pages.eq_of_mapped hb hw hb' hw')

/-- Changing one CPU's heap keeps the heaps apart when the new one stays within the pages the CPU
owns. -/
theorem Ok.set (hok : A.Ok taken) (hB : B.Ok (A.pagesOf cpu)) : (A.set cpu B).Ok taken := by
  refine ⟨hok.pages, fun d => ?_⟩
  by_cases hd : d = cpu
  · rw [hd, set_cpus]
    exact hB
  · rw [set_cpus_of_ne A B hd]
    exact hok.cpus d

/-- The blocks of other CPUs are the same. -/
theorem Rep.sameBytes (hrep : A.Rep k) (hok : A.Ok taken) (hagree : Agree S k.mem mem')
    (hS : S ⊆ A.pagesOf cpu) (hne : d ≠ cpu) (hx : x ∈ (A.cpus d).held) : SameBytes k.mem mem' x :=
  (hrep.cpus d).sameBytes (hok.cpus d) hagree ((hok.disjoint hne.symm).mono_left hS) hx.1

/-- All heaps are in memory, if the one that has changed is, and only its pages were stored to. -/
theorem Rep.set (hrep : A.Rep k) (hok : A.Ok taken) (hagree : Agree S k.mem mem')
    (hS : S ⊆ A.pagesOf cpu) (hB : B.Rep mem' s) :
    (A.set cpu B).Rep { k with mem := mem', cpus := Function.update k.cpus cpu s } := by
  refine ⟨fun d => ?_, hrep.pmm, hrep.owner, hrep.pages⟩
  by_cases hd : d = cpu
  · rw [hd, set_cpus]
    simpa using hB
  · rw [set_cpus_of_ne A B hd]
    simp only [Function.update_of_ne hd]
    exact (hrep.cpus d).of_agree (hok.cpus d) hagree ((hok.disjoint (Ne.symm hd)).mono_left hS)

/-! ### Functions

`Leads` describes a function for all memories that represent the same heaps: its result and the
heaps afterwards do not depend on what is in the blocks. This is what `krealloc` needs, whose effect
on the contents is the question. -/

/-- Whatever is in memory where the heaps are `A`, the function returns `q` and leaves `A'`. It does
not touch the contents of the blocks `H`, and what it stores are words of headers. -/
structure Leads (taken : Finset Block) (A : Heaps) (f : KmemM α) (q : α) (A' : Heaps)
    (H : Set (CpuId × ℕ × ℕ)) : Prop where
  ok : A'.Ok taken
  heaps : ∀ d, (A.cpus d).control ≠ 0 → (A'.cpus d).control ≠ 0
  held : H ⊆ A'.held
  run : ∀ k, A.Rep k → ∃ k', f k = some (q, k') ∧ A'.Rep k' ∧ Stores Set.univ k.mem k'.mem ∧
    ∀ h ∈ H, SameBytes k.mem k'.mem h.2

/-- A call whose first step returns goes on with the second. -/
theorem bind_of_eq_some (hf : f k = some (q, k')) : (f >>= g) k = g q k' := by
  change Option.bind (f k) _ = _
  rw [hf]
  rfl

/-- A call whose first step does not return does not return. -/
theorem bind_of_eq_none (hf : f k = none) : (f >>= g) k = none := by
  change Option.bind (f k) _ = _
  rw [hf]
  rfl

/-- Reading the machine leaves it as it is. -/
theorem get_bind (g : Kmem → KmemM β) (k : Kmem) : ((get : KmemM Kmem) >>= g) k = g k k := rfl

/-- A change of the machine is seen by what follows. -/
theorem modify_bind (e : Kmem → Kmem) (g : Unit → KmemM β) (k : Kmem) :
    ((modify e : KmemM Unit) >>= g) k = g () (e k) := rfl

/-- Doing nothing keeps all blocks handed out. -/
theorem leads_pure (hok : A.Ok taken) (hH : H ⊆ A.held) (q : α) : Leads taken A (pure q) q A H :=
  ⟨hok, fun _ hd => hd, hH, fun k hk => ⟨k, rfl, hk, Writes.refl _ _ _, fun _ _ => .refl _ _⟩⟩

/-- One function after the other. -/
theorem Leads.bind (hf : Leads taken A f q A' H) (hg : Leads taken A' (g q) r A'' H')
    (hsub : H ⊆ H') :
    Leads taken A (f >>= g) r A'' H := by
  refine ⟨hg.ok, fun d hd => hg.heaps d (hf.heaps d hd), hsub.trans hg.held, fun k hk => ?_⟩
  obtain ⟨k₁, hk₁, hrep₁, hstores₁, hsame₁⟩ := hf.run k hk
  obtain ⟨k₂, hk₂, hrep₂, hstores₂, hsame₂⟩ := hg.run k₁ hrep₁
  refine ⟨k₂, (bind_of_eq_some hk₁).trans hk₂, hrep₂, ?_, fun h hh => ?_⟩
  · exact (hstores₁.trans hstores₂).mono (Set.subset_univ _)
  · exact (hsame₁ h hh).trans (hsame₂ h (hsub hh))

/-- What a function reads of the state is the same wherever the heaps are the same. -/
theorem Leads.congr {f' : KmemM α} (hf : Leads taken A f q A' H) (heq : ∀ k, A.Rep k → f' k = f k) :
    Leads taken A f' q A' H := by
  refine ⟨hf.ok, hf.heaps, hf.held, fun k hk => ?_⟩
  rw [heq k hk]
  exact hf.run k hk

/-- A call that keeps fewer blocks than allowed keeps at most those. -/
theorem Leads.mono (hf : Leads taken A f q A' H') (hsub : H ⊆ H') : Leads taken A f q A' H :=
  ⟨hf.ok, hf.heaps, hsub.trans hf.held, fun k hk => (hf.run k hk).imp fun _ hk' =>
    ⟨hk'.1, hk'.2.1, hk'.2.2.1, fun h hh => hk'.2.2.2 h (hsub hh)⟩⟩

/-- A function that changes one heap, and stores to its pages only. -/
theorem leads_set (hok : A.Ok taken) (hB : B.Ok (A.pagesOf cpu))
    (hheap : (A.cpus cpu).control ≠ 0 → B.control ≠ 0) (hS : S ⊆ A.pagesOf cpu) (hH : H ⊆ A.held)
    (hheld : ∀ x, (cpu, x) ∈ H → x ∈ B.held) (hrun : ∀ k, A.Rep k → ∃ mem' s,
      f k = some (q, { k with mem := mem', cpus := Function.update k.cpus cpu s }) ∧ B.Rep mem' s ∧
        Stores S k.mem mem' ∧ ∀ x, (cpu, x) ∈ H → SameBytes k.mem mem' x) :
    Leads taken A f q (A.set cpu B) H := by
  -- only this CPU's heap changes
  refine ⟨hok.set hB, fun d hd => ?_, ?_, fun k hk => ?_⟩
  · by_cases hdc : d = cpu
    · subst hdc
      rw [set_cpus]
      exact hheap hd
    · rwa [set_cpus_of_ne A B hdc]
  · rintro ⟨d, x⟩ hh
    change x ∈ ((A.set cpu B).cpus d).held
    by_cases hd : d = cpu
    · subst hd
      rw [set_cpus]
      exact hheld x hh
    · rw [set_cpus_of_ne A B hd]
      exact hH hh
  · obtain ⟨mem', s, hf, hrep, hstores, hsame⟩ := hrun k hk
    refine ⟨_, hf, hk.set hok hstores.agree hS hrep, hstores.mono (Set.subset_univ _), ?_⟩
    rintro ⟨d, x⟩ hh
    by_cases hd : d = cpu
    · subst hd
      exact hsame x hh
    · exact hk.sameBytes hok hstores.agree hS hd (hH hh)

end Heaps

namespace CpuHeap

variable {h : CpuHeap} {mem : Addr → BitVec 8} {s : Cpu} {m : TlsfMem} {c : Control}
  {pools : List Pool} {S : Set ℕ} {x : ℕ × ℕ}

/-- The heap has other pools, and the lists that go with them. -/
def retile (h : CpuHeap) (c : Control) (pools : List Pool) : CpuHeap := { h with lists := c, pools }

/-- The pages a heap lies in may be counted generously. -/
theorem Ok.mono {P : Set ℕ} (hok : h.Ok S) (hsub : S ⊆ P) : h.Ok P :=
  ⟨fun hne => hsub (hok.control hne), fun hne => (hok.words hne).trans hsub, hok.pools, hok.used,
    hok.nodup⟩

/-- Pools that lie where the others were. -/
theorem Ok.retile (hok : h.Ok S) (hne : h.control ≠ 0) (hext : extents pools = extents h.pools)
    (hpending : ∀ x ∈ h.pending, x ∈ blocksOf false pools) : (h.retile c pools).Ok S := by
  refine ⟨hok.control, fun _ => ?_, fun hzero => absurd hzero hne,
    fun x hx => ⟨hpending x hx, (hok.used x hx).2⟩, hok.nodup⟩
  have hwords : HeapWords h.control pools = HeapWords h.control h.pools := by
    rw [HeapWords, hext, HeapWords]
  exact hwords.trans_subset (hok.words hne)

/-- What is pending stays linked, if the blocks are left alone. -/
theorem Rep.retile (hrep : h.Rep mem s) (hok : h.Ok S) (hne : h.control ≠ 0)
    (hgood : Good h.control m c pools) (hsame : ∀ x ∈ h.pending, SameBytes mem m.mem x) :
    (h.retile c pools).Rep m.mem (s.setHeap m) := by
  refine ⟨hrep.control, fun _ => hgood, hrep.linked.congr fun x hx => ?_⟩
  obtain ⟨hused, hsize⟩ := hok.used x hx
  exact (hsame x hx).word ((hrep.good hne).bounds hused hsize).2.2.1

end CpuHeap

/-! ### Calls of `tlsf.c`

The calls on one heap, in the pages of one processor. -/

namespace Heaps

variable {taken : Finset Block} {A A' A'' : Heaps} {k k' : Kmem} {cpu : CpuId} {S : Set ℕ}
  {x y : ℕ × ℕ} {mem' : Addr → BitVec 8} {H : Set (CpuId × ℕ × ℕ)} {α : Type} {q : α} {size : Size}
  {c : Control} {pools : List Pool} {f : Addr → TlsfMem → Option (α × TlsfMem)}

/-- A call that follows `tlsf_ctrl`. -/
theorem Rep.onHeap_eq (hk : A.Rep k) (hne : (A.cpus cpu).control ≠ 0) : Kmem.onHeap cpu f k =
    (f (A.cpus cpu).control ((k.cpus cpu).heap k.mem)).map fun r =>
      (r.1, { k with
        mem := r.2.mem
        cpus := Function.update k.cpus cpu ((k.cpus cpu).setHeap r.2) }) := by
  have hcontrol := (hk.cpus cpu).control
  rw [Kmem.onHeap, hcontrol, if_neg hne]

/-- A call that does the same to each heap like this one. -/
theorem leads_onHeap (hok : A.Ok taken) (hne : (A.cpus cpu).control ≠ 0)
    (hB : ((A.cpus cpu).retile c pools).Ok (A.pagesOf cpu)) (hS : S ⊆ A.pagesOf cpu)
    (hH : H ⊆ A.held) (hheld : ∀ x, (cpu, x) ∈ H → x ∈ blocksOf false pools)
    (hrun : ∀ m, Good (A.cpus cpu).control m (A.cpus cpu).lists (A.cpus cpu).pools →
      ∃ m', f (A.cpus cpu).control m = some (q, m') ∧ Good (A.cpus cpu).control m' c pools ∧
        Stores S m.mem m'.mem ∧ ∀ x ∈ blocksOf false (A.cpus cpu).pools, x ∈ blocksOf false pools →
          SameBytes m.mem m'.mem x) :
    Leads taken A (Kmem.onHeap cpu f) q (A.set cpu ((A.cpus cpu).retile c pools)) H := by
  apply leads_set hok hB (fun _ => hne) hS hH (fun x hx => ⟨hheld x hx, (hH hx).2⟩)
  intro k hk
  -- on its own words the operation runs as the law of the heap says; the other heaps are disjoint
  obtain ⟨m', hm', hgood, hstores, hsame⟩ := hrun _ ((hk.cpus cpu).good hne)
  refine ⟨m'.mem, (k.cpus cpu).setHeap m', ?_, ?_, hstores,
    fun x hx => hsame x (hH hx).1 (hheld x hx)⟩
  · rw [hk.onHeap_eq hne, hm']
    rfl
  · exact (hk.cpus cpu).retile (hok.cpus cpu) hne hgood fun x hx =>
      hsame x ((hok.cpus cpu).used x hx).1 (hB.used x hx).1

/-- `tlsf_malloc`. -/
theorem leads_tlsfMalloc (hok : A.Ok taken) (hk : A.Rep k) (hne : (A.cpus cpu).control ≠ 0)
    (size : Size) :
    Leads taken A (Kmem.tlsfMalloc cpu size) 0 A A.held ∨
    ∃ x A', Leads taken A (Kmem.tlsfMalloc cpu size) (BitVec.ofNat 64 (x.1 + 16)) A' A.held ∧
      (cpu, x) ∉ A.held ∧ (cpu, x) ∈ A'.held ∧ adjustRequestSize size ≠ 0 ∧
      (adjustRequestSize size).toNat ≤ x.2 ∧
      ∃ s, (x.1, s) ∈ blocksOf true (A.cpus cpu).pools ∧
        (32 + (adjustRequestSize size).toNat ≤ s → x.2 = (adjustRequestSize size).toNat) := by
  have hgood := (hk.cpus cpu).good hne
  have hcall : ∀ k, A.Rep k → Kmem.tlsfMalloc cpu size k =
      Kmem.onHeap cpu (fun control m => m.tlsfMalloc control size) k := fun k hk => by
    rw [Kmem.tlsfMalloc, (hk.cpus cpu).control, if_neg fun hand => hne hand.1]
  rcases hgood.tlsfMalloc size with ⟨-, hm⟩ | ⟨x, pools, hc, htakes, hle, hmin, hexact, hm⟩
  · -- the heap is as it was
    refine .inl (Leads.congr ⟨hok, fun _ hd => hd, subset_rfl,
      fun k hk => ⟨k, ?_, hk, Writes.refl _ _ _, fun _ _ => .refl _ _⟩⟩ hcall)
    rw [hk.onHeap_eq hne, hm _ ((hk.cpus cpu).good hne)]
    simp only [Option.map_some, Cpu.setHeap, Cpu.heap, Function.update_eq_self]
  · obtain ⟨hnew, hused, hext⟩ := htakes
    have hold : ∀ y ∈ blocksOf false (A.cpus cpu).pools, y ∈ blocksOf false pools := fun y hy => by
      rw [hused]
      exact .inr hy
    have hB : ((A.cpus cpu).retile ((A.cpus cpu).lists.tlsfMalloc size).2 pools).Ok
      (A.pagesOf cpu) :=
      (hok.cpus cpu).retile hne hext fun y hy => hold y ((hok.cpus cpu).used y hy).1
    have hadjust : adjustRequestSize size ≠ 0 := fun hzero => by
      rw [((A.cpus cpu).lists.tlsfMalloc_eq_none_iff size).mpr (.inl hzero)] at hc
      cases hc
    have hspare : Spare (A.cpus cpu).control (A.cpus cpu).pools ⊆ A.pagesOf cpu := fun w hw =>
      (hok.cpus cpu).words hne hw.1
    refine .inr ⟨x, _, (leads_onHeap hok hne hB hspare subset_rfl (fun y hy => hold y hy.1)
      fun m hm' => ?_).congr hcall, fun hin => hnew hin.1, ?_, hadjust, hle, hexact⟩
    · obtain ⟨m', hm', hgood', hstores⟩ := hm m hm'
      exact ⟨m', hm', hgood', hstores, fun y hy _ => hgood.sameBytes hy hstores⟩
    · change x ∈ ((A.set cpu _).cpus cpu).held
      rw [set_cpus]
      refine ⟨?_, by omega, fun hin => hnew ((hok.cpus cpu).used x hin).1⟩
      rw [CpuHeap.retile, hused]
      exact Set.mem_insert _ _

/-- `tlsf_free`, of a block that the kernel has. -/
theorem leads_tlsfFree (hok : A.Ok taken) (hk : A.Rep k) (hne : (A.cpus cpu).control ≠ 0)
    (hx : (cpu, x) ∈ A.held) :
    ∃ A', Leads taken A (Kmem.tlsfFree cpu (BitVec.ofNat 64 (x.1 + 16)))
      () A' (A.held \ {(cpu, x)}) := by
  have hgood := (hk.cpus cpu).good hne
  obtain ⟨hxused, hxsize, hxpending⟩ := hx
  obtain ⟨c, pools, ⟨hnew, hused, hext⟩, hm⟩ := hgood.tlsfFree hxused hxsize
  -- every other block in use stays in use, and the freed one was not a pending one
  have hold : ∀ y ∈ blocksOf false (A.cpus cpu).pools, y ≠ x → y ∈ blocksOf false pools :=
    fun y hy hyx => by
    rw [hused] at hy
    exact hy.resolve_left hyx
  have hB : ((A.cpus cpu).retile c pools).Ok (A.pagesOf cpu) :=
    (hok.cpus cpu).retile hne hext.symm fun y hy => hold y ((hok.cpus cpu).used y hy).1 fun heq =>
      hxpending (heq ▸ hy)
  refine ⟨_, leads_onHeap hok hne hB (S := Spare (A.cpus cpu).control pools) (fun w hw => ?_)
    Set.sdiff_subset (fun y hy => ?_) fun m hm' => ?_⟩
  · have hwords : w ∈ HeapWords (A.cpus cpu).control (A.cpus cpu).pools := by
      rw [HeapWords, hext]
      exact hw.1
    exact (hok.cpus cpu).words hne hwords
  · refine hold y hy.1.1 fun heq => hy.2 ?_
    rw [heq]
    exact Set.mem_singleton _
  · obtain ⟨m', hm', hgood', hstores⟩ := hm m hm'
    refine ⟨m', ?_, hgood', hstores, fun y _ hy => hgood'.sameBytes hy hstores⟩
    rw [hm']
    rfl

/-! ### Pending blocks

The blocks that other processors have freed, linked through the first word behind
the header of each. A flush frees them one after another, and nothing else uses those words
meanwhile. -/

/-- What the loop of `tlsf_flush_pending` comes to. -/
def freeAll (cpu : CpuId) : List (ℕ × ℕ) → KmemM Unit
  | [] => pure ()
  | x :: l => do
      Kmem.tlsfFree cpu (BitVec.ofNat 64 (x.1 + 16))
      freeAll cpu l

/-- A CPU with a block handed out has initialised its control structure. -/
theorem control_ne_zero (hok : A.Ok taken) (hx : (cpu, x) ∈ A.held) : (A.cpus cpu).control ≠ 0 := by
  intro hzero
  obtain ⟨p, hp⟩ := hx.1
  rw [(hok.cpus cpu).pools hzero] at hp
  cases hp

/-- Blocks of the kernel are not too small for a link, and not at `NULL`. -/
theorem Rep.bounds (hk : A.Rep k) (hok : A.Ok taken) (hx : (cpu, x) ∈ A.held) :
    8 ∣ x.1 ∧ 8 ∣ x.2 ∧ 24 ≤ x.2 ∧ x.2 < 2 ^ 32 ∧ 8 ≤ x.1 ∧ x.1 + 16 + x.2 ≤ 2 ^ 64 :=
  ((hk.cpus cpu).good (control_ne_zero hok hx)).bounds hx.1 hx.2.1

/-- The blocks of a list are freed, and the loop does nothing else. -/
theorem leads_freeAll (l : List (ℕ × ℕ)) (hok : A.Ok taken) (hk : A.Rep k)
    (hne : (A.cpus cpu).control ≠ 0) (hl : ∀ x ∈ l, (cpu, x) ∈ A.held) (hnodup : l.Nodup) :
    ∃ A', Leads taken A (freeAll cpu l) () A' (A.held \ {h | h.1 = cpu ∧ h.2 ∈ l}) ∧
      ∀ k fuel block, A.Rep k → Linked k.mem block l → l.length < fuel →
        Kmem.flushLoop cpu fuel block k = freeAll cpu l k := by
  induction l generalizing A k with
  | nil =>
      refine ⟨A, leads_pure hok Set.sdiff_subset (), fun k fuel block _ hlinked hfuel => ?_⟩
      obtain ⟨fuel, rfl⟩ : ∃ n, fuel = n + 1 := ⟨fuel - 1, by simp at hfuel; omega⟩
      rw [Kmem.flushLoop, if_pos (show block = 0 from hlinked)]
      rfl
  | cons x l ih =>
      obtain ⟨hxl, hnodup⟩ := List.nodup_cons.mp hnodup
      have hx := hl x List.mem_cons_self
      obtain ⟨hd, -, hmin, -, hpos, hle⟩ := hk.bounds hok hx
      obtain ⟨A₁, hfree⟩ := leads_tlsfFree hok hk hne hx
      obtain ⟨k₁, -, hk₁, -⟩ := hfree.run k hk
      have hrest : ∀ y ∈ l, (cpu, y) ∈ A.held \ {(cpu, x)} := fun y hy =>
        ⟨hl y (List.mem_cons_of_mem x hy), fun heq => hxl ((Prod.mk.inj heq).2 ▸ hy)⟩
      obtain ⟨A₂, hall, hloop⟩ := ih hfree.ok hk₁ (hfree.heaps cpu hne)
        (fun y hy => hfree.held (hrest y hy)) hnodup
      refine ⟨A₂, (hfree.mono ?_).bind hall ?_, fun k fuel block hk hlinked hfuel => ?_⟩
      · rintro ⟨d, y⟩ ⟨hy, hout⟩
        refine ⟨hy, fun heq => hout ?_⟩
        obtain ⟨rfl, rfl⟩ := Prod.mk.inj heq
        exact ⟨rfl, List.mem_cons_self⟩
      · rintro ⟨d, y⟩ ⟨hy, hout⟩
        refine ⟨hfree.held ⟨hy, fun heq => hout ?_⟩,
          fun hin => hout ⟨hin.1, List.mem_cons_of_mem x hin.2⟩⟩
        obtain ⟨rfl, rfl⟩ := Prod.mk.inj heq
        exact ⟨rfl, List.mem_cons_self⟩
      · obtain ⟨fuel, rfl⟩ : ∃ n, fuel = n + 1 := ⟨fuel - 1, by simp at hfuel; omega⟩
        obtain ⟨rfl, hnext⟩ := hlinked
        obtain ⟨k₁, hcall, hk₁, -, hsame⟩ := hfree.run k hk
        have hword : load k.mem (BitVec.ofNat 64 x.1 + 16#64) = wordAt k.mem (x.1 + 16) := by
          rw [wordAt, BitVec.ofNat_add]
        have hptr : BitVec.ofNat 64 x.1 + blockStartOffset = BitVec.ofNat 64 (x.1 + 16) :=
          (BitVec.ofNat_add ..).symm
        -- the link is read before the block is freed, and the links of the others stay
        have hlinked₁ : Linked k₁.mem (wordAt k.mem (x.1 + 16)) l := hnext.congr fun y hy => by
          have hy' := hk.bounds hok (hl y (List.mem_cons_of_mem x hy))
          exact (hsame _ (hrest y hy)).word hy'.2.2.1
        rw [Kmem.flushLoop, if_neg (ofNat_ne_zero (by omega) (by omega)), freeAll,
          bind_of_eq_some hcall, ← hloop k₁ fuel _ hk₁ hlinked₁ (by simpa using hfuel), get_bind,
          hptr, bind_of_eq_some hcall, hword]

/-- There is room in the address space for less than `2 ^ 64` blocks. -/
theorem Rep.length_lt (hk : A.Rep k) (hok : A.Ok taken) (hne : (A.cpus cpu).control ≠ 0) :
    (A.cpus cpu).pending.length < 2 ^ 64 := by
  have hgood := (hk.cpus cpu).good hne
  have hused := (hok.cpus cpu).used
  -- pending blocks start at different addresses, of which there are fewer than `2 ^ 64`
  have hnodup : ((A.cpus cpu).pending.map Prod.fst).Nodup := by
    apply (hok.cpus cpu).nodup.map_on
    intro x hx y hy heq
    have hxb := hgood.bounds (hused x hx).1 (hused x hx).2
    have hyb := hgood.bounds (hused y hy).1 (hused y hy).2
    exact hgood.eq_of_ptr (hused x hx).1 hxb.2.2.1 (hused y hy).1 hyb.2.2.1 (by rw [heq])
  have hsub : ((A.cpus cpu).pending.map Prod.fst).toFinset ⊆ Finset.Ico 1 (2 ^ 64) := fun a ha => by
    obtain ⟨x, hx, rfl⟩ := List.mem_map.mp (List.mem_toFinset.mp ha)
    have hxb := hgood.bounds (hused x hx).1 (hused x hx).2
    exact Finset.mem_Ico.mpr (by omega)
  have hcard := Finset.card_le_card hsub
  rw [List.toFinset_card_of_nodup hnodup, List.length_map, Nat.card_Ico] at hcard
  omega

/-- `tlsf_flush_pending`. -/
theorem leads_flush (hok : A.Ok taken) (hk : A.Rep k) (hne : (A.cpus cpu).control ≠ 0) :
    ∃ A', Leads taken A (Kmem.tlsfFlushPending cpu) () A' A.held := by
  -- the exchange
  have htake : Leads taken A (modify fun k => { k with
      cpus := Function.update k.cpus cpu { k.cpus cpu with pendingFreeList := 0 } }) ()
      (A.set cpu { A.cpus cpu with pending := [] }) A.held := by
    have hB := hok.cpus cpu
    refine leads_set (S := ∅) hok
      ⟨hB.control, hB.words, hB.pools, fun x hx => absurd hx List.not_mem_nil, List.nodup_nil⟩
      (fun hd => hd) (Set.empty_subset _) subset_rfl
      (fun x hx => ⟨hx.1, hx.2.1, List.not_mem_nil⟩) fun k hk => ?_
    have hrep := hk.cpus cpu
    exact ⟨k.mem, _, rfl, ⟨hrep.control, hrep.good, rfl⟩, Writes.refl _ _ _, fun _ _ => .refl _ _⟩
  obtain ⟨k₁, -, hk₁, -⟩ := htake.run k hk
  obtain ⟨A₂, hall, hloop⟩ := leads_freeAll (A.cpus cpu).pending htake.ok hk₁ (htake.heaps cpu hne)
    (fun x hx => by
      change x ∈ ((A.set cpu _).cpus cpu).held
      rw [set_cpus]
      exact ⟨((hok.cpus cpu).used x hx).1, ((hok.cpus cpu).used x hx).2, List.not_mem_nil⟩)
    (hok.cpus cpu).nodup
  refine ⟨A₂, (htake.bind (g := fun _ => freeAll cpu (A.cpus cpu).pending) hall ?_).congr
    fun k hk => ?_⟩
  · rintro ⟨d, x⟩ hh
    refine ⟨htake.held hh, ?_⟩
    rintro ⟨rfl, hin⟩
    exact hh.2.2 hin
  · obtain ⟨k₁, hcall, hk₁, -⟩ := htake.run k hk
    cases hcall
    rw [Kmem.tlsfFlushPending, get_bind, if_neg ((hk.cpus cpu).control.trans_ne hne), modify_bind,
      modify_bind]
    exact hloop _ _ _ hk₁ (hk.cpus cpu).linked (hk.length_lt hok hne)

/-! ### More pages

A heap that has no block for a request is given a pool of new pages. -/

/-- Pages that the CPU did not have are a pool, apart from the others. -/
theorem layout_addPool {control : Addr} {pools : List Pool} {b : Block} (h : Layout control pools)
    (horder : b.order ≤ 10) (hend : b.base + 2 ^ b.order ≤ pmmPoolStartPfn)
    (hold : ∀ w, w = control.toNat ∨ w ∈ HeapWords control pools → w ∉ mapped b) :
    Layout control (⟨hhdmOffset.toNat + b.base * 4096 - 8,
      [⟨2 ^ b.order * 4096 - 16, true⟩]⟩ :: pools) := by
  have hhhdm : hhdmOffset.toNat = 2 ^ 64 - 2 ^ 47 := rfl
  have hpool : pmmPoolStartPfn = 0x8000 := rfl
  have hone : 1 ≤ 2 ^ b.order := Nat.one_le_two_pow
  have hmax : 2 ^ b.order ≤ 2 ^ 10 := Nat.pow_le_pow_right (by decide) horder
  have hd := h.control_dvd
  have hout : ∀ w, w = control.toNat ∨ w ∈ HeapWords control pools →
    w < hhdmOffset.toNat + b.base * 4096 ∨
      hhdmOffset.toNat + (b.base + 2 ^ b.order) * 4096 ≤ w := fun w hw => by
    by_contra hin
    exact hold w hw ⟨by omega, by omega⟩
  obtain ⟨n, hn⟩ : ∃ n, n = 2 ^ b.order := ⟨_, rfl⟩
  rw [← hn] at hone hmax hout hend ⊢
  have hstop : (⟨hhdmOffset.toNat + b.base * 4096 - 8, [⟨n * 4096 - 16, true⟩]⟩ : Pool).stop 8 =
      hhdmOffset.toNat + b.base * 4096 - 8 + (8 + (n * 4096 - 16)) := rfl
  refine ⟨hd, h.control_pos, h.control_le,
    fun P hP => ?_, List.pairwise_cons.mpr ⟨fun Q hQ => ?_, h.apart⟩⟩
  · rcases List.mem_cons.mp hP with rfl | hP
    · have h₀ := hout control.toNat (.inl rfl)
      have h₂₄ := hout (control.toNat + 24) (.inr (.inl (.inr rfl)))
      refine ⟨?_, ?_, ?_, ?_, ?_, fun t ht => ?_⟩
      · simp only
        omega
      · simp only
        omega
      · rw [hstop]
        omega
      · rw [hstop]
        simp only
        omega
      · rw [hstop]
        simp only
        omega
      · obtain rfl := List.mem_singleton.mp ht
        simp only
        omega
    · exact h.ok P hP
  · -- the first address is not in the other pool
    have hQok := h.ok Q hQ
    have hstart := hQok.start_dvd
    have hwidth := width_dvd hQok.tiles
    have hmem : (Q.start, Q.stop 8) ∈ extents pools := List.mem_map.mpr ⟨Q, hQ, rfl⟩
    have hfirst := hout (Q.start + 8) (.inr (.inr ⟨_, hmem, le_rfl, by rw [Pool.stop]; omega⟩))
    have hnot : ¬ (Q.start + 8 ≤ hhdmOffset.toNat + b.base * 4096 ∧
        hhdmOffset.toNat + b.base * 4096 ≤ Q.stop 8 + 8) := fun hin => by
      have := hout _ (.inr (.inr ⟨_, hmem, hin⟩))
      omega
    rw [hstop]
    rw [Pool.stop] at hnot ⊢
    simp only
    omega

/-- The pages are those of the CPU now. -/
def own (A : Heaps) (cpu : CpuId) (b : Block) (pmm : Pmm) : Heaps :=
  { A with
    pmm := pmm
    owner := fun pfn => if b.base ≤ pfn ∧ pfn < b.base + 2 ^ b.order then cpu else A.owner pfn
    pages := insert (cpu, b) A.pages }

/-- Pages given to one CPU are taken from none. -/
theorem subset_pagesOf_own (A : Heaps) (cpu d : CpuId) (b : Block) (pmm : Pmm) :
    A.pagesOf d ⊆ (A.own cpu b pmm).pagesOf d :=
  fun _ ⟨b', hb', hw⟩ => ⟨b', Finset.mem_insert_of_mem hb', hw⟩

/-- There are no pages, or the CPU gets a block of them that no one had. -/
theorem leads_ownPages (hok : A.Ok taken) (cpu : CpuId) (order : ℤ) :
    Leads taken A (Kmem.ownPages cpu order) 0 A A.held ∨
    ∃ pfn pmm, pfnToPhys pfn ≠ 0 ∧ 0 ≤ order ∧ order ≤ 10 ∧
      (∀ d, (d, ⟨pfn, order.toNat⟩) ∉ A.pages) ∧
      Leads taken A (Kmem.ownPages cpu order) (pfnToPhys pfn)
        (A.own cpu ⟨pfn, order.toNat⟩ pmm) A.held := by
  -- without a block nothing happens; a block that is given becomes one of the pages of `cpu`
  rcases hok.pages.alloc order with hnull | ⟨pfn, pmm, hcall, hphys, hlo, hhi, hnew, hpages, -⟩
  · refine .inl ⟨hok, fun _ hd => hd, subset_rfl, fun k hk => ⟨k, ?_, hk, Writes.refl _ _ _,
      fun _ _ => .refl _ _⟩⟩
    rw [Kmem.ownPages, hk.pmm, hnull, ← hk.pmm]
    rfl
  · refine .inr ⟨pfn, pmm, hphys, hlo, hhi, hnew,
      ⟨hpages cpu, fun d => (hok.cpus d).mono (subset_pagesOf_own A cpu d _ pmm)⟩,
      fun _ hd => hd, subset_rfl, fun k hk => ?_⟩
    refine ⟨{ k with
      pmm := pmm
      owner := (A.own cpu ⟨pfn, order.toNat⟩ pmm).owner
      pages := (A.own cpu ⟨pfn, order.toNat⟩ pmm).pages },
      ?_, ⟨hk.cpus, rfl, rfl, rfl⟩, Writes.refl _ _ _, fun _ _ => .refl _ _⟩
    rw [Kmem.ownPages, hk.pmm, hcall, Option.bind_eq_bind, Option.bind_some]
    simp only [Option.getD_some, if_neg hphys, Pmm.physToPfn_pfnToPhys, hk.owner, hk.pages, own]

/-- The direct map is at `HHDM_OFFSET`. -/
theorem physToVirt_eq (pfn : ℕ) :
    Kmem.physToVirt (pfnToPhys pfn) = BitVec.ofNat 64 (hhdmOffset.toNat + pfn * 4096) := by
  have hshift : pfnToPhys pfn = pfn * 4096 := by
    rw [pfnToPhys, Nat.shiftLeft_eq]
    rfl
  rw [Kmem.physToVirt, hshift, Nat.add_comm, BitVec.ofNat_add, BitVec.ofNat_toNat,
    BitVec.setWidth_eq]

/-- The heap has pages more, or there are none. -/
theorem leads_addPages (clzZero : ℕ) (hok : A.Ok taken) (hk : A.Rep k)
    (hne : (A.cpus cpu).control ≠ 0) (size : Size) :
    ∃ q A', Leads taken A (Kmem.addPages clzZero cpu size) q A' A.held := by
  obtain ⟨order, horder⟩ : ∃ order, order = kmallocOrder clzZero size := ⟨_, rfl⟩
  rw [Kmem.addPages, ← horder]
  rcases leads_ownPages hok cpu order with hnull | ⟨pfn, pmm, hphys, -, hhi, hnew, hown⟩
  · exact ⟨false, A, hnull.bind (leads_pure hok subset_rfl false) subset_rfl⟩
  obtain ⟨b, hb⟩ : ∃ b : Block, b = ⟨pfn, order.toNat⟩ := ⟨_, rfl⟩
  have hbase : pfn = b.base := by rw [hb]
  have horder' : order.toNat = b.order := by rw [hb]
  rw [← hb] at hnew hown
  have hmem : (cpu, b) ∈ (A.own cpu b pmm).pages := Finset.mem_insert_self _ _
  have hend := hown.ok.pages.end_le hmem
  have hpos := (hown.ok.pages.pmm.tiling.placed (false, b)
    (Pmm.mem_owned_false.mpr (HeapPages.mem_allocated taken hmem))).base_pos
  have hone : 1 ≤ 2 ^ b.order := Nat.one_le_two_pow
  have hhhdm : hhdmOffset.toNat = 2 ^ 64 - 2 ^ 47 := rfl
  have hpool : pmmPoolStartPfn = 0x8000 := rfl
  -- what was in the heap is in other pages
  have hold : ∀ w, w = (A.cpus cpu).control.toNat ∨
    w ∈ HeapWords (A.cpus cpu).control (A.cpus cpu).pools →
      w ∉ mapped b := by
    intro w hw hin
    obtain ⟨b', hb', hw'⟩ : w ∈ A.pagesOf cpu := by
      rcases hw with rfl | hw
      · exact (hok.cpus cpu).control hne
      · exact (hok.cpus cpu).words hne hw
    have hbb : b ≠ b' := fun heq => hnew cpu (heq ▸ hb')
    exact Set.disjoint_left.mp
      (hown.ok.pages.disjoint_mapped hmem (Finset.mem_insert_of_mem hb') hbb) hin hw'
  have hlayout := layout_addPool ((hk.cpus cpu).good hne).layout (by omega) hend hold
  obtain ⟨a, ha⟩ : ∃ a, a = hhdmOffset.toNat + b.base * 4096 - 8 := ⟨_, rfl⟩
  obtain ⟨n, hn⟩ : ∃ n, n = 2 ^ b.order * 4096 - 16 := ⟨_, rfl⟩
  have haddr : Kmem.physToVirt (pfnToPhys pfn) = BitVec.ofNat 64 (a + 8) := by
    rw [physToVirt_eq pfn, hbase, ha, Nat.sub_add_cancel (by omega)]
  have htwo : 2 ^ (b.order + 12) = 2 ^ b.order * 4096 := pow_add ..
  have hsmall : 2 ^ b.order ≤ 2 ^ 10 := Nat.pow_le_pow_right (by decide) (by omega)
  have hbytes : (BitVec.twoPow 64 (order.toNat + 12) - Tlsf.poolOverhead) -
      ((BitVec.twoPow 64 (order.toNat + 12) - Tlsf.poolOverhead) &&& 7#64) = BitVec.ofNat 64 n := by
    have hover : Tlsf.poolOverhead.toNat = 16 := rfl
    have hpow : (BitVec.twoPow 64 (order.toNat + 12)).toNat = 2 ^ b.order * 4096 := by
      rw [horder', BitVec.toNat_twoPow, htwo, Nat.mod_eq_of_lt (by omega)]
    have hsub : (BitVec.twoPow 64 (order.toNat + 12) - Tlsf.poolOverhead).toNat = n := by
      rw [BitVec.toNat_sub_of_le (BitVec.le_def.mpr (by omega)), hpow, hover, hn]
    rw [sub_and_seven, hsub]
    congr 1
    omega
  rw [← ha, ← hn] at hlayout
  have hdvd : (BitVec.ofNat 64 (a + 8)).toInt % Tlsf.alignSize = 0 :=
    toInt_emod_of_dvd (by rw [BitVec.toNat_ofNat]; omega)
  have hsub : ∀ x ∈ blocksOf false (A.cpus cpu).pools,
      x ∈ blocksOf false (⟨a, [⟨n, true⟩]⟩ :: (A.cpus cpu).pools) := fun x ⟨p, hp⟩ =>
    ⟨p, mem_headers_cons.mpr (.inr (.inr hp))⟩
  have hwords : HeapWords (A.cpus cpu).control (⟨a, [⟨n, true⟩]⟩ :: (A.cpus cpu).pools) ⊆
      (A.own cpu b pmm).pagesOf cpu := by
    have hstop : (⟨a, [⟨n, true⟩]⟩ : Pool).stop 8 = a + (8 + n) := rfl
    rintro w (hw | ⟨I, hI, hw⟩)
    · exact subset_pagesOf_own A cpu cpu b pmm ((hok.cpus cpu).words hne (.inl hw))
    rcases List.mem_cons.mp hI with rfl | hI
    · simp only [hstop] at hw
      exact ⟨b, hmem, by omega, by omega⟩
    · exact subset_pagesOf_own A cpu cpu b pmm ((hok.cpus cpu).words hne (.inr ⟨I, hI, hw⟩))
  have hB : ((A.cpus cpu).retile ((A.cpus cpu).lists.blockInsert (freeBlock (a, n)))
      (⟨a, [⟨n, true⟩]⟩ :: (A.cpus cpu).pools)).Ok
      ((A.own cpu b pmm).pagesOf cpu) :=
    ⟨(hown.ok.cpus cpu).control, fun _ => hwords, fun hzero => absurd hzero hne,
      fun x hx => ⟨hsub x ((hok.cpus cpu).used x hx).1, ((hok.cpus cpu).used x hx).2⟩,
      (hok.cpus cpu).nodup⟩
  have hspare : Spare (A.cpus cpu).control (⟨a, [⟨n, true⟩]⟩ :: (A.cpus cpu).pools) ⊆
      (A.own cpu b pmm).pagesOf cpu := fun w hw => hwords hw.1
  have hadd := leads_onHeap
    (f := fun control m => m.tlsfAddPool control (Kmem.physToVirt (pfnToPhys pfn))
      (BitVec.twoPow 64 (order.toNat + 12))) hown.ok hne hB hspare subset_rfl
    (fun x hx => hsub x hx.1) fun m hm => by
      obtain ⟨m', hm', hgood', hstores⟩ := hm.addPool hlayout hdvd hbytes
      exact ⟨m', haddr ▸ hm', hgood', hstores, fun x _ hx => hgood'.sameBytes hx hstores⟩
  have hdone := hadd.bind (g := fun _ => pure true) (leads_pure hadd.ok hadd.held true) subset_rfl
  refine ⟨true, _, hown.bind (hdone.congr fun k _ => ?_) subset_rfl⟩
  rw [if_neg hphys]
  rfl

/-! ### `kmalloc`

Try, flush and try again, grow and try again. Each try leaves the heap as it was if there is no
block. -/

/-- The pointer is `NULL`, or to a block that the kernel did not have, with room for the request. -/
def Allocated (A A' : Heaps) (cpu : CpuId) (size : Size) (q : Addr) : Prop :=
  q = 0 ∨ ∃ x, q = BitVec.ofNat 64 (x.1 + 16) ∧ q ≠ 0 ∧ (cpu, x) ∉ A.held ∧ (cpu, x) ∈ A'.held ∧
    adjustRequestSize size ≠ 0 ∧ (adjustRequestSize size).toNat ≤ x.2

/-- What was allocated from a larger collection of blocks was allocated from the smaller one. -/
theorem Allocated.mono {q : Addr} (h : Allocated A' A'' cpu size q) (hsub : A.held ⊆ A'.held) :
    Allocated A A'' cpu size q :=
  h.imp_right fun ⟨x, hq, hne, hnew, hrest⟩ => ⟨x, hq, hne, fun hin => hnew (hsub hin), hrest⟩

/-- `tlsf_malloc`. If there is no block, the heap is as it was. -/
theorem leads_allocated (hok : A.Ok taken) (hk : A.Rep k) (hne : (A.cpus cpu).control ≠ 0)
    (size : Size) :
    ∃ q A', Leads taken A (Kmem.tlsfMalloc cpu size) q A' A.held ∧ (q = 0 → A' = A) ∧
      Allocated A A' cpu size q := by
  rcases leads_tlsfMalloc hok hk hne size with hnull | ⟨x, A', hx, hnew, hheld, hadjust, hle, -⟩
  · exact ⟨0, A, hnull, fun _ => rfl, .inl rfl⟩
  · obtain ⟨k', -, hk', -⟩ := hx.run k hk
    obtain ⟨-, -, hmin, -, -, hend⟩ := hk'.bounds hx.ok hheld
    have hptr : BitVec.ofNat 64 (x.1 + 16) ≠ 0 := ofNat_ne_zero (by omega) (by omega)
    exact ⟨_, A', hx, fun hzero => absurd hzero hptr,
      .inr ⟨x, rfl, hptr, hnew, hheld, hadjust, hle⟩⟩

/-- `tlsf_malloc`, and what is done if it finds no block. -/
theorem leads_orElse {f : KmemM Addr} (hok : A.Ok taken) (hk : A.Rep k)
    (hne : (A.cpus cpu).control ≠ 0)
    (hf : ∃ q A', Leads taken A f q A' A.held ∧ Allocated A A' cpu size q) :
    ∃ q A', Leads taken A
        (Kmem.tlsfMalloc cpu size >>= fun ptr => if ptr ≠ 0 then pure ptr else f) q A' A.held ∧
      Allocated A A' cpu size q := by
  obtain ⟨q, A₁, hlead, hsame, hq⟩ := leads_allocated hok hk hne size
  by_cases hzero : q = 0
  · obtain rfl := hsame hzero
    obtain ⟨r, A', hrest, hr⟩ := hf
    exact ⟨r, A', hlead.bind (hrest.congr fun k _ => by rw [if_neg (not_not.mpr hzero)]) subset_rfl,
      hr⟩
  · exact ⟨q, A₁, hlead.bind
      ((leads_pure hlead.ok hlead.held q).congr fun k _ => by rw [if_pos hzero])
      subset_rfl, hq⟩

/-- `kmalloc`, on a CPU with a heap. -/
theorem leads_kmalloc (clzZero : ℕ) (hok : A.Ok taken) (hk : A.Rep k)
    (hne : (A.cpus cpu).control ≠ 0) (size : Size) :
    ∃ q A', Leads taken A (Kmem.kmalloc clzZero cpu size) q A' A.held ∧
      Allocated A A' cpu size q := by
  by_cases hsize : size = 0
  · rw [Kmem.kmalloc, if_pos hsize]
    exact ⟨0, A, leads_pure hok subset_rfl 0, .inl rfl⟩
  rw [Kmem.kmalloc, if_neg hsize]
  apply leads_orElse hok hk hne
  -- `kmalloc` tries, flushes and tries again, grows the heap and tries a last time
  obtain ⟨A₁, hflush⟩ := leads_flush hok hk hne
  obtain ⟨k₁, -, hk₁, -⟩ := hflush.run k hk
  have hne₁ := hflush.heaps cpu hne
  have hslow : ∃ q A', Leads taken A₁ (do
      let added ← Kmem.addPages clzZero cpu size
      if added = true then Kmem.tlsfMalloc cpu size else pure 0) q A' A₁.held ∧
        Allocated A₁ A' cpu size q := by
    obtain ⟨added, A₂, hadd⟩ := leads_addPages clzZero hflush.ok hk₁ hne₁ size
    obtain ⟨k₂, -, hk₂, -⟩ := hadd.run k₁ hk₁
    cases added with
    | false => exact ⟨0, A₂, hadd.bind (leads_pure hadd.ok hadd.held 0) subset_rfl, .inl rfl⟩
    | true =>
        obtain ⟨q, A₃, hlast, -, hq⟩ := leads_allocated hadd.ok hk₂ (hadd.heaps cpu hne₁) size
        exact ⟨q, A₃, hadd.bind hlast hadd.held, hq.mono hadd.held⟩
  obtain ⟨q, A₂, hlead, hq⟩ := leads_orElse hflush.ok hk₁ hne₁ hslow
  exact ⟨q, A₂, hflush.bind hlead hflush.held, hq.mono hflush.held⟩

/-- `kmalloc`, on a CPU without a heap. It returns `NULL`, or follows `tlsf_ctrl`. -/
theorem kmalloc_of_control (clzZero : ℕ) (hok : A.Ok taken) (hzero : (A.cpus cpu).control = 0)
    (size : Size) : (∀ k, A.Rep k → Kmem.kmalloc clzZero cpu size k = none) ∨
      Leads taken A (Kmem.kmalloc clzZero cpu size) 0 A A.held := by
  by_cases hsize : size = 0
  · rw [Kmem.kmalloc, if_pos hsize]
    exact .inr (leads_pure hok subset_rfl 0)
  have hctrl : ∀ k, A.Rep k → (k.cpus cpu).tlsfCtrl = 0 :=
    fun k hk => (hk.cpus cpu).control.trans hzero
  by_cases hnot : adjustRequestSize size = 0 ∨
    flIndexCount ≤ (mappingSearch (adjustRequestSize size)).1
  · have hmalloc : ∀ k, A.Rep k → Kmem.tlsfMalloc cpu size k = some (0, k) := fun k hk => by
      rw [Kmem.tlsfMalloc, if_pos ⟨hctrl k hk, hnot⟩]
    have hflush : ∀ k, A.Rep k → Kmem.tlsfFlushPending cpu k = some ((), k) := fun k hk => by
      rw [Kmem.tlsfFlushPending, get_bind, if_pos (hctrl k hk)]
      rfl
    -- all that is left is to add pages
    have hslow : ∀ k, A.Rep k → Kmem.kmalloc clzZero cpu size k =
      (Kmem.addPages clzZero cpu size >>= fun added =>
        if added = true then Kmem.tlsfMalloc cpu size else pure 0) k := fun k hk => by
      rw [Kmem.kmalloc, if_neg hsize, bind_of_eq_some (hmalloc k hk), if_neg (not_not.mpr rfl),
        bind_of_eq_some (hflush k hk), bind_of_eq_some (hmalloc k hk), if_neg (not_not.mpr rfl)]
    rcases leads_ownPages hok cpu (kmallocOrder clzZero size) with
      hnull | ⟨pfn, pmm, hphys, -, -, -, hown⟩
    · have hadd : Leads taken A (Kmem.addPages clzZero cpu size) false A A.held :=
        hnull.bind (leads_pure hok subset_rfl false) subset_rfl
      exact .inr ((hadd.bind (leads_pure hok subset_rfl 0) subset_rfl).congr hslow)
    · refine .inl fun k hk => (hslow k hk).trans (bind_of_eq_none ?_)
      obtain ⟨k₁, hcall, hk₁, -⟩ := hown.run k hk
      rw [Kmem.addPages, bind_of_eq_some hcall, if_neg hphys]
      refine bind_of_eq_none ?_
      rw [Kmem.tlsfAddPool, Kmem.onHeap, if_pos ((hk₁.cpus cpu).control.trans hzero)]
  · refine .inl fun k hk => ?_
    rw [Kmem.kmalloc, if_neg hsize]
    refine bind_of_eq_none ?_
    rw [Kmem.tlsfMalloc, if_neg fun hand => hnot hand.2, Kmem.onHeap, if_pos (hctrl k hk)]

/-- `kmalloc` follows `NULL`, or it does the same whatever is in memory. -/
theorem kmalloc_cases (clzZero : ℕ) (hok : A.Ok taken) (hk : A.Rep k) (cpu : CpuId) (size : Size) :
    (∀ k, A.Rep k → Kmem.kmalloc clzZero cpu size k = none) ∨
      ∃ q A', Leads taken A (Kmem.kmalloc clzZero cpu size) q A' A.held ∧
      Allocated A A' cpu size q := by
  by_cases hzero : (A.cpus cpu).control = 0
  · exact (kmalloc_of_control clzZero hok hzero size).imp_right fun h => ⟨0, A, h, .inl rfl⟩
  · exact .inr (leads_kmalloc clzZero hok hk hzero size)

/-! ### `kfree`

The block goes back to its heap at once on its own processor, and on the list of pending blocks
otherwise. The page tells which. -/

/-- The page of a block names the CPU whose heap it is in. -/
theorem Ok.owner_eq (hok : A.Ok taken) (hx : (cpu, x) ∈ A.held) (hmin : 8 ≤ x.2) :
    A.owner (virtToPfn (BitVec.ofNat 64 (x.1 + 16))) = cpu := by
  obtain ⟨b, hb, hw⟩ := mem_words (hok.cpus cpu) hx.1 (w := x.1 + 16) (by simp only; omega)
  exact hok.pages.owner_of_mapped hb hw

/-- Different blocks of the kernel do not overlap, nor do their headers. -/
theorem Rep.apart (hk : A.Rep k) (hok : A.Ok taken) {d : CpuId} (hx : (cpu, x) ∈ A.held)
    (hy : (d, y) ∈ A.held) (hne : (cpu, x) ≠ (d, y)) :
    x.1 + 8 + x.2 ≤ y.1 ∨ y.1 + 8 + y.2 ≤ x.1 := by
  have hxb := hk.bounds hok hx
  have hyb := hk.bounds hok hy
  by_cases hd : cpu = d
  · subst hd
    have hgood := (hk.cpus cpu).good (control_ne_zero hok hx)
    obtain ⟨p, hp⟩ := hx.1
    obtain ⟨q, hq⟩ := hy.1
    rcases hgood.layout.eq_or_apart hp hx.2.1 hq with heq | hapart
    · rw [Header.mk.injEq] at heq
      exact absurd (congrArg (Prod.mk cpu) (Prod.ext heq.1.symm heq.2.1.symm)) hne
    · exact hapart
  · -- the words of the one are not among those of the other
    have hdisjoint := Set.disjoint_left.mp (hok.disjoint hd)
    have hxw : ∀ w, x.1 + 8 ≤ w ∧ w ≤ x.1 + 8 + x.2 → w ∈ A.pagesOf cpu := fun w hw =>
      mem_words (hok.cpus cpu) hx.1 hw
    have hyw : ∀ w, y.1 + 8 ≤ w ∧ w ≤ y.1 + 8 + y.2 → w ∈ A.pagesOf d := fun w hw =>
      mem_words (hok.cpus d) hy.1 hw
    by_contra hover
    rcases le_total x.1 y.1 with hle | hle
    · exact hdisjoint (hxw (y.1 + 8) (by omega)) (hyw (y.1 + 8) (by omega))
    · exact hdisjoint (hxw (x.1 + 8) (by omega)) (hyw (x.1 + 8) (by omega))

/-- Stores to one block do not touch the others. -/
theorem Rep.sameBytes_of_store (hk : A.Rep k) (hok : A.Ok taken) {d : CpuId}
    (hx : (cpu, x) ∈ A.held) (hy : (d, y) ∈ A.held) (hne : (cpu, x) ≠ (d, y))
    (hsame : ∀ b : Addr, b.toNat < x.1 + 16 ∨ x.1 + 16 + x.2 ≤ b.toNat → mem' b = k.mem b) :
    SameBytes k.mem mem' y := by
  intro z hz
  have hxb := hk.bounds hok hx
  have hyb := hk.bounds hok hy
  have hapart := hk.apart hok hx hy hne
  apply hsame _
  rw [BitVec.toNat_ofNat, Nat.mod_eq_of_lt (by omega)]
  omega

/-- `tlsf_push_pending`, to the CPU whose block it is. -/
theorem leads_push (hok : A.Ok taken) (hk : A.Rep k) (hx : (cpu, x) ∈ A.held) :
    Leads taken A (Kmem.tlsfPushPending cpu (BitVec.ofNat 64 (x.1 + 16))) ()
      (A.set cpu { A.cpus cpu with pending := x :: (A.cpus cpu).pending })
      (A.held \ {(cpu, x)}) := by
  have hB := hok.cpus cpu
  have hne := control_ne_zero hok hx
  obtain ⟨hd, -, hmin, -, hpos, hle⟩ := hk.bounds hok hx
  have hS : ({x.1 + 16} : Set ℕ) ⊆ A.pagesOf cpu := by
    rintro w rfl
    exact mem_words hB hx.1 ⟨by simp only; omega, by simp only; omega⟩
  have hblock : tlsfPtrToBlock (BitVec.ofNat 64 (x.1 + 16)) = BitVec.ofNat 64 x.1 := by
    rw [tlsfPtrToBlock, if_neg (ofNat_ne_zero (by omega) (by omega))]
    exact sub_ofNat (by omega) (by omega)
  have hword : BitVec.ofNat 64 x.1 + 16#64 = BitVec.ofNat 64 (x.1 + 16) :=
    (BitVec.ofNat_add ..).symm
  refine leads_set hok
    ⟨hB.control, hB.words, hB.pools, fun y hy => ?_, List.nodup_cons.mpr ⟨hx.2.2, hB.nodup⟩⟩
    (fun hd => hd) hS Set.sdiff_subset (fun y hy => ⟨hy.1.1, hy.1.2.1, fun hin => ?_⟩)
      fun k hk => ?_
  · rcases List.mem_cons.mp hy with rfl | hy
    · exact ⟨hx.1, hx.2.1⟩
    · exact hB.used y hy
  · rcases List.mem_cons.mp hin with rfl | hin
    · exact hy.2 (Set.mem_singleton _)
    · exact hy.1.2.2 hin
  · have hrep := hk.cpus cpu
    have hgood := hrep.good hne
    obtain ⟨head, hhead⟩ : ∃ head, head = (k.cpus cpu).pendingFreeList := ⟨_, rfl⟩
    have hout : ∀ b : Addr, b.toNat < x.1 + 16 ∨ x.1 + 16 + x.2 ≤ b.toNat →
        store k.mem (BitVec.ofNat 64 (x.1 + 16)) head b = k.mem b := fun b hb => by
      have hstore := store_apply (x := x.1 + 16) (z := b.toNat)
        (by omega) b.isLt (by omega) k.mem head
      rwa [BitVec.ofNat_toNat, BitVec.setWidth_eq] at hstore
    have hv : head ∈ headerWords := by
      have hlinked := hrep.linked
      rw [← hhead] at hlinked
      cases hpending : (A.cpus cpu).pending with
      | nil =>
          rw [hpending] at hlinked
          rw [show head = BitVec.ofNat 64 0 from hlinked]
          exact ofNat_mem_headerWords (dvd_zero 8)
      | cons y l =>
          rw [hpending] at hlinked
          have hy : y ∈ (A.cpus cpu).pending := hpending ▸ List.mem_cons_self
          rw [hlinked.1]
          exact ofNat_mem_headerWords (hgood.bounds (hB.used y hy).1 (hB.used y hy).2).1
    refine ⟨store k.mem (BitVec.ofNat 64 (x.1 + 16)) head,
      { k.cpus cpu with pendingFreeList := BitVec.ofNat 64 x.1 }, ?_,
      ⟨hrep.control, fun _ => ?_, rfl, ?_⟩,
      writes_store (by decide) (by omega) (by omega) hv _, fun y hy => ?_⟩
    · rw [Kmem.tlsfPushPending, hblock, hword, hhead]
      rfl
    · exact hgood.store hx.1 hout
    · -- the block points to the one that was the first
      rw [wordAt_store_self (by decide), hhead]
      refine hrep.linked.congr fun y hy => wordAt_store_of_ne ?_ ?_ ?_ ?_ ?_ _ _
      all_goals
        have hyb := hgood.bounds (hB.used y hy).1 (hB.used y hy).2
      · omega
      · omega
      · omega
      · omega
      · intro heq
        refine hx.2.2 (hgood.eq_of_ptr hx.1 hmin (hB.used y hy).1 hyb.2.2.1 ?_ ▸ hy)
        rw [heq]
    · exact hk.sameBytes_of_store hok hx hy.1 (fun heq => hy.2 heq.symm) hout

/-- `kfree`, of a block that the kernel has. -/
theorem leads_kfree (hok : A.Ok taken) (hk : A.Rep k) {d : CpuId} (hx : (d, x) ∈ A.held)
    (cpu : CpuId) :
    ∃ A', Leads taken A (Kmem.kfree cpu (BitVec.ofNat 64 (x.1 + 16)))
      () A' (A.held \ {(d, x)}) := by
  obtain ⟨-, -, hmin, -, hpos, hle⟩ := hk.bounds hok hx
  have hcall : ∀ k, A.Rep k → Kmem.kfree cpu (BitVec.ofNat 64 (x.1 + 16)) k =
      (if cpu = d then Kmem.tlsfFree cpu (BitVec.ofNat 64 (x.1 + 16))
        else Kmem.tlsfPushPending d (BitVec.ofNat 64 (x.1 + 16))) k := fun k hk => by
    rw [Kmem.kfree, if_neg (ofNat_ne_zero (by omega) (by omega)), get_bind, hk.owner,
      hok.owner_eq hx (by omega)]
  by_cases hd : cpu = d
  · subst hd
    obtain ⟨A', hfree⟩ := leads_tlsfFree hok hk (control_ne_zero hok hx) hx
    exact ⟨A', hfree.congr fun k hk => by rw [hcall k hk, if_pos rfl]⟩
  · exact ⟨_, (leads_push hok hk hx).congr fun k hk => by rw [hcall k hk, if_neg hd]⟩

/-! ### `percpu_tlsf_init`

Before this a processor has no control structure, and `kmalloc` follows a null pointer. -/

/-- A CPU without a heap gets one, with one free block, if there are pages for it. -/
theorem leads_init (hok : A.Ok taken) (hzero : (A.cpus cpu).control = 0) :
    Leads taken A (Kmem.percpuTlsfInit cpu) (-1) A A.held ∨
    ∃ A' a, Leads taken A (Kmem.percpuTlsfInit cpu) 0 A' A.held ∧ (A'.cpus cpu).control ≠ 0 ∧
      (A'.cpus cpu).pools = [⟨a, [⟨58984, true⟩]⟩] := by
  -- Sixteen pages, or none: then nothing has changed and the answer is -1.
  rcases leads_ownPages hok cpu 4 with hnull | ⟨pfn, pmm, hphys, -, -, -, hown⟩
  · exact .inl (hnull.bind (leads_pure hok subset_rfl (-1)) subset_rfl)
  right
  obtain ⟨b, hb⟩ : ∃ b : Block, b = ⟨pfn, 4⟩ := ⟨_, rfl⟩
  have hbase : b.base = pfn := by rw [hb]
  have horder : 2 ^ b.order = 16 := by
    rw [hb]
    rfl
  rw [show (⟨pfn, (4 : ℤ).toNat⟩ : Block) = b from hb.symm] at hown
  have hmem : (cpu, b) ∈ (A.own cpu b pmm).pages := Finset.mem_insert_self _ _
  have hend := hown.ok.pages.end_le hmem
  have hhhdm : hhdmOffset.toNat = 2 ^ 64 - 2 ^ 47 := rfl
  have hpool : pmmPoolStartPfn = 0x8000 := rfl
  obtain ⟨a, ha⟩ : ∃ a, a = hhdmOffset.toNat + pfn * 4096 := ⟨_, rfl⟩
  have haddr : Kmem.physToVirt (pfnToPhys pfn) = BitVec.ofNat 64 a := ha ▸ physToVirt_eq pfn
  have hctrl : (BitVec.ofNat 64 a).toNat = a := toNat_ofNat_of_lt (by omega)
  have hin : ∀ w, a ≤ w → w < a + 65536 → w ∈ (A.own cpu b pmm).pagesOf cpu := fun w hle hlt =>
    ⟨b, hmem, by omega, by omega⟩
  -- without a control structure the CPU has no pool and no pending block
  have hpools : (A.cpus cpu).pools = [] := (hok.cpus cpu).pools hzero
  have hpending : (A.cpus cpu).pending = [] := List.eq_nil_iff_forall_not_mem.mpr fun x hx => by
    obtain ⟨p, hp⟩ := ((hok.cpus cpu).used x hx).1
    rw [hpools] at hp
    cases hp
  -- the new heap: the control structure at the start of the pages, one free block behind it
  obtain ⟨B, hB⟩ : ∃ B : CpuHeap, B = ⟨BitVec.ofNat 64 a,
    Control.empty.blockInsert (freeBlock (a + 6528, 58984)), [⟨a + 6528, [⟨58984, true⟩]⟩],
    []⟩ := ⟨_, rfl⟩
  have hwords : HeapWords (BitVec.ofNat 64 a) [⟨a + 6528, [⟨58984, true⟩]⟩] ⊆
      (A.own cpu b pmm).pagesOf cpu := by
    have hstop : (⟨a + 6528, [⟨58984, true⟩]⟩ : Pool).stop 8 = a + 6528 + 58992 := rfl
    rintro w ((rfl | rfl) | ⟨I, hI, hw⟩)
    · exact hin _ (by omega) (by omega)
    · exact hin _ (by omega) (by omega)
    · obtain rfl := List.mem_singleton.mp hI
      simp only [hstop] at hw
      exact hin w (by omega) (by omega)
  have hBok : B.Ok ((A.own cpu b pmm).pagesOf cpu) := by
    rw [hB]
    refine ⟨fun _ => hin _ (by rw [hctrl]) (by rw [hctrl]; omega), fun _ => hwords, fun hnull => ?_,
      fun x hx => absurd hx List.not_mem_nil, List.nodup_nil⟩
    exact absurd hnull (ofNat_ne_zero (by omega) (by omega))
  -- no other heap can see the stores, which stay in the new pages
  have hcreate : Leads taken (A.own cpu b pmm) (if pfnToPhys pfn = 0 then pure (-1) else fun k => do
      let r ← ((k.cpus cpu).heap k.mem).tlsfCreateWithPool (Kmem.physToVirt (pfnToPhys pfn))
        (BitVec.twoPow 64 16)
      some (0, { k with
        mem := r.2.mem
        cpus := Function.update k.cpus cpu { (k.cpus cpu).setHeap r.2 with tlsfCtrl := r.1 } }))
          (0 : ℤ)
      ((A.own cpu b pmm).set cpu B) A.held := by
    refine leads_set hown.ok hBok (fun hne => absurd hzero hne) hwords subset_rfl
      (fun x hx => absurd hzero (control_ne_zero hok hx)) fun k hk => ?_
    have hbytes : (BitVec.twoPow 64 16).toNat = 65536 := rfl
    obtain ⟨m', hm', hgood, hstores⟩ := @good_create (BitVec.ofNat 64 a) ((k.cpus cpu).heap k.mem)
      (BitVec.twoPow 64 16) (by omega) (by omega) (by omega) (by omega) (by omega)
    rw [hctrl, hbytes] at hgood hstores
    refine ⟨m'.mem, { (k.cpus cpu).setHeap m' with tlsfCtrl := BitVec.ofNat 64 a }, ?_, ?_, hstores,
      fun x hx => absurd hzero (control_ne_zero hok hx)⟩
    · rw [if_neg hphys, haddr, hm']
      rfl
    · have hlinked := (hk.cpus cpu).linked
      rw [show ((A.own cpu b pmm).cpus cpu).pending = [] from hpending] at hlinked
      rw [hB]
      exact ⟨rfl, fun _ => hgood, hlinked⟩
  refine ⟨_, a + 6528, hown.bind hcreate subset_rfl, ?_, ?_⟩
  · rw [set_cpus, hB]
    exact ofNat_ne_zero (by omega) (by omega)
  · rw [set_cpus, hB]

end Heaps

end Koharu
