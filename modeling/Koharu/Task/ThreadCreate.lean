import Koharu.Arch.PmapRefinement
import Koharu.Task.Registry
import Koharu.Task.System

/-!
# Creating threads

`thread_create` in `kernel/arch/x86_64/thread.c` takes memory four times: for the `struct thread`,
for the area of its extended state, for the registry and for its stack. Then it maps the stack.

* `threadCreate`: the function, with a record of what it has taken and given back;
* `Restored`: what a thread that has not been created leaves behind, that is, nothing;
* `Served`: either an allocation before the thread is registered fails, or none of those after it;
* `threadCreate_restores_iff`: nothing is left behind in these cases, and in no others.
-/

namespace Koharu

/-- Where `thread_create` takes memory from: the kernel heap and blocks of eight pages,
`pmm_alloc_pages(3)`. An address of `0` is `NULL`. -/
class KernelMemory (σ : Type) extends PageAllocator σ where
  kmallocAligned : σ → Addr → Addr → Addr × σ
  kfreeAligned : σ → Addr → σ
  krealloc : σ → Addr → Addr → Addr × σ
  allocStack : σ → Addr × σ
  freeStack : σ → Addr → σ

/-- What `thread_create` takes for a thread. -/
inductive Resource
  /-- The result of `kmalloc_aligned`. -/
  | object (p : Addr)
  /-- The result of `pmm_alloc_pages(3)`. -/
  | stack (phys : Addr)
  deriving DecidableEq

/-- A resource was taken, or given back. -/
inductive ResourceEvent
  | obtain (r : Resource)
  | release (r : Resource)
  deriving DecidableEq

/-- `struct thread`, as far as its creation is concerned. What the scheduler uses is in
`SchedThread`. -/
structure ThreadObject where
  pmap : Addr
  tf : Trapframe
  /-- `tf->cs`. -/
  cs : BitVec 64
  /-- `tf->ss`. -/
  ss : BitVec 64
  tid : BitVec 64
  pid : BitVec 64
  cpuAffinity : BitVec 32
  pagerTid : BitVec 64
  /-- `arch.xsaves_area`. -/
  xsavesArea : Addr

/-- What `thread_create` reads and writes. -/
structure Creation (σ : Type) where
  registry : Registry
  pm : PmState σ
  sched : Sched
  /-- The thread at an address. -/
  thread : Addr → ThreadObject
  /-- `pm_root_phys` of the pmap at an address. -/
  pmRootPhys : Addr → Addr

/-- `sizeof(struct thread)`. -/
def threadSize : Addr := 16664#64

/-- `32 * 1024`. -/
def stackSize : Addr := 0x8000#64

/-- `PROT_READ | PROT_WRITE | PROT_USER`. -/
def stackProt : BitVec 32 := protRead ||| protWrite ||| protUser

namespace Creation

open Traced

variable {σ : Type} [KernelMemory σ]

/-- The allocators have changed. -/
def withPmm (s : Creation σ) (pmm : σ) : Creation σ := { s with pm := { s.pm with pmm } }

/-- `kmalloc_aligned`. -/
def kmallocAligned (s : Creation σ) (size alignment : Addr) :
    Traced ResourceEvent (Addr × Creation σ) := do
  let answer := KernelMemory.kmallocAligned s.pm.pmm size alignment
  tell (if answer.1 = 0 then [] else [.obtain (.object answer.1)])
  return (answer.1, s.withPmm answer.2)

/-- `kfree_aligned`. -/
def kfreeAligned (s : Creation σ) (p : Addr) : Traced ResourceEvent (Creation σ) := do
  tell (if p = 0 then [] else [.release (.object p)])
  return s.withPmm (KernelMemory.kfreeAligned s.pm.pmm p)

/-- `pmm_alloc_pages(3)`. -/
def allocStack (s : Creation σ) : Traced ResourceEvent (Addr × Creation σ) := do
  let answer := KernelMemory.allocStack s.pm.pmm
  tell (if answer.1 = 0 then [] else [.obtain (.stack answer.1)])
  return (answer.1, s.withPmm answer.2)

/-- `pmm_free_pages(stack, 3)`. -/
def freeStack (s : Creation σ) (phys : Addr) : Traced ResourceEvent (Creation σ) := do
  tell [.release (.stack phys)]
  return s.withPmm (KernelMemory.freeStack s.pm.pmm phys)

/-- Write to a `struct thread`. -/
def setThread (s : Creation σ) (p : Addr) (t : ThreadObject) : Creation σ :=
  { s with thread := Function.update s.thread p t }

/-- The result of `krealloc` in `thread_reg_grow`, if `thread_register` calls it for this tid. -/
def registryAnswer (r : Registry) (pmm : σ) (tid : BitVec 32) : Addr × σ :=
  if tid.toNat ≥ r.cap then
    KernelMemory.krealloc pmm r.gThreads (BitVec.ofNat 64 (8 * r.newCap tid.toNat))
  else (r.gThreads, pmm)

/-- `thread_register`, and whether it returns `0`. -/
def threadRegister (s : Creation σ) (tid : BitVec 32) (p : Addr) : Bool × Creation σ :=
  let answer := registryAnswer s.registry s.pm.pmm tid
  let s := s.withPmm answer.2
  match s.registry.threadRegister tid p answer.1 with
  | some registry => (true, { s with registry })
  | none => (false, s)

/-- The new thread at `p`, and its area for the extended state. -/
def initThread (s : Creation σ) (p xsave : Addr) (tid : BitVec 32) (pmap entry : Addr) :
    Creation σ :=
  { s.setThread p {
      pmap
      tf := { rip := entry, rsp := userStackTop, rflags := 0x202, rdi := 0, rsi := 0 }
      cs := 0x23
      ss := 0x1B
      tid := tid.setWidth 64
      pid := 0
      cpuAffinity := 0
      pagerTid := 0
      xsavesArea := xsave } with
    sched := s.sched.modify tid.toNat fun _ =>
      { state := .created, currentLevel := 0, timeQuantumLeft := 0, totalCpuTime := 0 } }

/-- The end of `thread_create_child`: register the thread at `p`, or give it back. -/
def registerChild (s : Creation σ) (p xsave : Addr) (tid : BitVec 32) :
    Traced ResourceEvent (Addr × Creation σ) :=
  if (s.threadRegister tid p).1 = true then pure (p, (s.threadRegister tid p).2)
  else do
    let s ← (s.threadRegister tid p).2.kfreeAligned xsave
    let s ← s.kfreeAligned p
    pure (0, s)

/-- `thread_create_child` from `thread_alloc_tid` on, for the thread at `p`. The `memset` of the
area for the extended state does not end if there is none. -/
def setUpChild (xsaveSize : BitVec 32) (s : Creation σ) (p pmap entry : Addr) :
    Traced ResourceEvent (Addr × Creation σ) := do
  let xsave ← { s with registry := s.registry.threadAllocTid.2 }.kmallocAligned
    (xsaveSize.setWidth 64) 64
  lift (if xsave.1 = 0 then none else some ())
  (xsave.2.initThread p xsave.1 s.registry.threadAllocTid.1 pmap entry).registerChild p xsave.1
    s.registry.threadAllocTid.1

/-- `thread_create_child`, where `xsaveSize` is that of the CPU. -/
def threadCreateChild (xsaveSize : BitVec 32) (s : Creation σ) (pmap entry : Addr) :
    Traced ResourceEvent (Addr × Creation σ) := do
  let t ← s.kmallocAligned threadSize 16
  if t.1 = 0 then pure (0, t.2) else t.2.setUpChild xsaveSize t.1 pmap entry

/-- `kfree_aligned` of the area and of the thread, without `thread_destroy`. -/
def discard (s : Creation σ) (p : Addr) : Traced ResourceEvent (Addr × Creation σ) := do
  let s ← s.kfreeAligned (s.thread p).xsavesArea
  let s ← s.kfreeAligned p
  return (0, s)

/-- The `pmap_map` of `thread_create`, which fails for `NULL`. The bound on its loop is never
reached. -/
def mapStack (s : Creation σ) (pmap phys : Addr) : Option (Bool × PmState σ) :=
  if pmap = 0 then some (false, s.pm)
  else s.pm.pmapMap (stackSize.toNat + 1) (s.pmRootPhys pmap)
    (userStackTop - stackSize) phys stackSize
    stackProt

/-- `thread_create` from `pmap_map` on, for the thread at `p` with a stack. -/
def startOnStack (s : Creation σ) (p phys arg : Addr) (affinity : BitVec 32) :
    Traced ResourceEvent (Addr × Creation σ) := do
  let status ← lift (s.mapStack (s.thread p).pmap phys)
  let s := { s with pm := status.2 }
  if status.1 = true then do
    let t := s.thread p
    let s := s.setThread p { t with tf := { t.tf with rdi := arg }, cpuAffinity := affinity }
    let sched ← lift (s.sched.schedEnqueue t.tid.toNat)
    pure (p, { s with sched })
  else do
    let s ← s.freeStack phys
    s.discard p

/-- `thread_create` after `thread_create_child`, for the thread at `p`. -/
def giveStack (s : Creation σ) (p arg : Addr) (affinity : BitVec 32) :
    Traced ResourceEvent (Addr × Creation σ) := do
  let stack ← s.allocStack
  if stack.1 = 0 then stack.2.discard p else stack.2.startOnStack p stack.1 arg affinity

/-- `thread_create`. -/
def threadCreate (xsaveSize : BitVec 32) (s : Creation σ) (pmap entry arg : Addr)
    (affinity : BitVec 32) : Traced ResourceEvent (Addr × Creation σ) := do
  let t ← s.threadCreateChild xsaveSize pmap entry
  if t.1 = 0 then pure (0, t.2) else t.2.giveStack t.1 arg affinity

/-! ### What is left behind

Each allocation and each release is logged, so that a call that fails can be compared with none at
all. -/

/-- What was taken has been given back as often. -/
def Balanced (l : List ResourceEvent) : Prop := ∀ r, l.count (.release r) = l.count (.obtain r)

/-- Between `s` and `s'` nothing has happened that can be seen from outside of the allocators. The
log tells what has been taken and given back. -/
structure Restored (s s' : Creation σ) (pmap : Addr) (log : List ResourceEvent) : Prop where
  lookup : ∀ tid, s'.registry.threadLookup tid = s.registry.threadLookup tid
  released : Balanced log
  translations : ∀ va,
    s'.pm.pmapExtract (s'.pmRootPhys pmap) va = s.pm.pmapExtract (s.pmRootPhys pmap) va

/-! ### The answers

What the allocators answer are parameters of the call, one for each allocation. -/

section Answers

variable (xsaveSize : BitVec 32) (s : Creation σ) (pmap : Addr)

/-- The first answer, for the `struct thread`. -/
def threadAnswer : Addr × σ := KernelMemory.kmallocAligned s.pm.pmm threadSize 16

/-- The second, for the extended state. -/
def xsaveAnswer : Addr × σ :=
  KernelMemory.kmallocAligned s.threadAnswer.2 (xsaveSize.setWidth 64) 64

/-- The third, for the registry, if it has to grow. -/
def growAnswer : Addr × σ :=
  registryAnswer s.registry.threadAllocTid.2 (s.xsaveAnswer xsaveSize).2 s.registry.nextTid

/-- The last, for the stack. -/
def stackAnswer : Addr × σ := KernelMemory.allocStack (s.growAnswer xsaveSize).2

/-- The `pmap_map`, of the stack that was allocated. -/
def stackStatus : Option (Bool × PmState σ) :=
  (s.withPmm (s.stackAnswer xsaveSize).2).mapStack pmap (s.stackAnswer xsaveSize).1

/-- The registry has to grow, and cannot. -/
def CannotRegister : Prop :=
  s.registry.cap ≤ s.registry.nextTid.toNat ∧ (s.growAnswer xsaveSize).1 = 0

/-- An allocation fails before the thread is registered. -/
def FailsEarly : Prop :=
  s.threadAnswer.1 = 0 ∨ (s.xsaveAnswer xsaveSize).1 = 0 ∨ s.CannotRegister xsaveSize

/-- The stack can be allocated and mapped. -/
def StackMapped : Prop := (s.stackAnswer xsaveSize).1 ≠ 0 ∧
  ∃ pm, s.stackStatus xsaveSize pmap = some (true, pm)

/-- The registry has a pointer to where the new thread is, under the tid of the thread, and the page
tables translate as before even if the stack could be allocated. -/
def AlreadyThere : Prop :=
  s.registry.threadLookup (s.registry.nextTid.setWidth 64) = s.threadAnswer.1 ∧
    ((s.stackAnswer xsaveSize).1 = 0 ∨
      ∀ pm, s.stackStatus xsaveSize pmap = some (false, pm) →
        ∀ va, pm.pmapExtract (s.pmRootPhys pmap) va = s.pm.pmapExtract (s.pmRootPhys pmap) va)

end Answers

/-! ### The parts of the call

The allocations one by one, with what each adds to the log. -/

variable {xsaveSize : BitVec 32} {s : Creation σ} {p pmap root entry arg : Addr}
  {affinity : BitVec 32}

/-- An allocation that fails obtains nothing. -/
theorem kmallocAligned_of_null {size alignment : Addr}
    (h : (KernelMemory.kmallocAligned s.pm.pmm size alignment).1 = 0) :
    s.kmallocAligned size alignment =
      ⟨[], some (0, s.withPmm (KernelMemory.kmallocAligned s.pm.pmm size alignment).2)⟩ := by
  simp only [kmallocAligned, h, if_true]
  rfl

/-- One that succeeds obtains the object. -/
theorem kmallocAligned_of_ne {size alignment : Addr}
    (h : (KernelMemory.kmallocAligned s.pm.pmm size alignment).1 ≠ 0) :
    s.kmallocAligned size alignment =
      ⟨[.obtain (.object (KernelMemory.kmallocAligned s.pm.pmm size alignment).1)],
        some ((KernelMemory.kmallocAligned s.pm.pmm size alignment).1,
          s.withPmm (KernelMemory.kmallocAligned s.pm.pmm size alignment).2)⟩ := by
  simp only [kmallocAligned, if_neg h]
  rfl

/-- Freeing an object releases it. -/
theorem kfreeAligned_of_ne (h : p ≠ 0) :
    s.kfreeAligned p =
      ⟨[.release (.object p)], some (s.withPmm (KernelMemory.kfreeAligned s.pm.pmm p))⟩ := by
  simp only [kfreeAligned, if_neg h]
  rfl

/-- `thread_register` that finds room for the thread. -/
theorem threadRegister_of_room {tid : BitVec 32}
    (h : ¬ (s.registry.cap ≤ tid.toNat ∧ (registryAnswer s.registry s.pm.pmm tid).1 = 0)) :
    ∃ r, s.threadRegister tid p =
        (true, { s.withPmm (registryAnswer s.registry s.pm.pmm tid).2 with registry := r }) ∧
      ∀ u, r.threadLookup u = if u.toNat = tid.toNat then p else s.registry.threadLookup u := by
  obtain ⟨r, hr⟩ : ∃ r, s.registry.threadRegister tid p
      (registryAnswer s.registry s.pm.pmm tid).1 = some r := by
    rw [Registry.threadRegister]
    split
    case isTrue hroom =>
      -- the array is there, so that growing succeeds
      have hne : (registryAnswer s.registry s.pm.pmm tid).1 ≠ 0 := fun hzero => h ⟨hroom, hzero⟩
      exact ⟨_, by rw [Registry.threadRegGrow, dif_neg hne]; rfl⟩
    case isFalse => exact ⟨_, rfl⟩
  refine ⟨r, ?_, Registry.threadLookup_threadRegister hr⟩
  have hr' : (s.withPmm (registryAnswer s.registry s.pm.pmm tid).2).registry.threadRegister tid p
      (registryAnswer s.registry s.pm.pmm tid).1 = some r := hr
  simp only [threadRegister, hr']

/-- `thread_register` that does not. -/
theorem threadRegister_of_no_room {tid : BitVec 32} (hcap : s.registry.cap ≤ tid.toNat)
    (hgrow : (registryAnswer s.registry s.pm.pmm tid).1 = 0) :
    s.threadRegister tid p = (false, s.withPmm (registryAnswer s.registry s.pm.pmm tid).2) := by
  have hnone : s.registry.threadRegister tid p (registryAnswer s.registry s.pm.pmm tid).1 =
    none := by
    rw [Registry.threadRegister, if_pos hcap, Registry.threadRegGrow, dif_pos hgrow]
    rfl
  have hnone' : (s.withPmm (registryAnswer s.registry s.pm.pmm tid).2).registry.threadRegister tid p
      (registryAnswer s.registry s.pm.pmm tid).1 = none := hnone
  simp only [threadRegister, hnone']

/-- `thread_create_child` without memory for the thread. -/
theorem threadCreateChild_of_no_thread (h : s.threadAnswer.1 = 0) :
    s.threadCreateChild xsaveSize pmap entry = ⟨[], some (0, s.withPmm s.threadAnswer.2)⟩ := by
  rw [threadCreateChild, kmallocAligned_of_null h, some_bind, if_pos rfl]
  rfl

/-- The call when there is memory for the thread. -/
theorem threadCreateChild_of_thread (h : s.threadAnswer.1 ≠ 0) :
    s.threadCreateChild xsaveSize pmap entry =
      ⟨.obtain (.object s.threadAnswer.1) ::
        ((s.withPmm s.threadAnswer.2).setUpChild xsaveSize s.threadAnswer.1 pmap entry).log,
        ((s.withPmm s.threadAnswer.2).setUpChild xsaveSize s.threadAnswer.1 pmap entry).val⟩ := by
  rw [threadCreateChild, kmallocAligned_of_ne h, some_bind]
  exact if_neg h ▸ rfl

/-- Without memory for the extended state, the call does not return. -/
theorem setUpChild_of_no_xsave (hx : (s.xsaveAnswer xsaveSize).1 = 0) :
    ((s.withPmm s.threadAnswer.2).setUpChild xsaveSize p pmap entry).val = none := by
  rw [setUpChild, kmallocAligned_of_null hx, some_bind]
  rfl

/-- The state in which the thread at `p` is registered. -/
def prepared (xsaveSize : BitVec 32) (s : Creation σ) (p pmap entry : Addr) : Creation σ :=
  ({ s with registry := s.registry.threadAllocTid.2 }.withPmm
    (s.xsaveAnswer xsaveSize).2).initThread
    p (s.xsaveAnswer xsaveSize).1 s.registry.nextTid pmap entry

/-- With memory for the extended state, it comes to registering the thread. -/
theorem setUpChild_of_xsave (hx : (s.xsaveAnswer xsaveSize).1 ≠ 0) :
    (s.withPmm s.threadAnswer.2).setUpChild xsaveSize p pmap entry = (do
      tell [.obtain (.object (s.xsaveAnswer xsaveSize).1)]
      (s.prepared xsaveSize p pmap entry).registerChild p (s.xsaveAnswer xsaveSize).1
        s.registry.nextTid) := by
  have hx' : (lift (if (s.xsaveAnswer xsaveSize).1 = 0 then none else some ()) :
      Traced ResourceEvent Unit) = ⟨[], some ()⟩ := by
    rw [if_neg hx]
    rfl
  rw [setUpChild, kmallocAligned_of_ne hx, some_bind]
  exact hx' ▸ rfl

/-- A thread that cannot be registered is given back, with its area. -/
theorem setUpChild_of_cannotRegister (hp : p ≠ 0) (hx : (s.xsaveAnswer xsaveSize).1 ≠ 0)
    (hr : s.CannotRegister xsaveSize) :
    ∃ s', (s.withPmm s.threadAnswer.2).setUpChild xsaveSize p pmap entry =
        ⟨[.obtain (.object (s.xsaveAnswer xsaveSize).1),
          .release (.object (s.xsaveAnswer xsaveSize).1), .release (.object p)], some (0, s')⟩ ∧
      s'.registry = s.registry.threadAllocTid.2 ∧ s'.pm.mem = s.pm.mem ∧
      s'.pmRootPhys = s.pmRootPhys := by
  have hregister : (s.prepared xsaveSize p pmap entry).threadRegister s.registry.nextTid p = _ :=
    threadRegister_of_no_room hr.1 hr.2
  rw [setUpChild_of_xsave hx, registerChild, hregister, if_neg Bool.false_ne_true,
    kfreeAligned_of_ne hx, some_bind, kfreeAligned_of_ne hp, some_bind]
  exact ⟨_, rfl, rfl, rfl, rfl⟩

/-- A thread that is registered is found. -/
theorem setUpChild_of_registered (hx : (s.xsaveAnswer xsaveSize).1 ≠ 0)
    (hr : ¬ s.CannotRegister xsaveSize) :
    ∃ s', (s.withPmm s.threadAnswer.2).setUpChild xsaveSize p pmap entry =
        ⟨[.obtain (.object (s.xsaveAnswer xsaveSize).1)], some (p, s')⟩ ∧
      (s'.pm = { s.pm with pmm := (s.growAnswer xsaveSize).2 } ∧ s'.pmRootPhys = s.pmRootPhys) ∧
      ((s'.thread p).xsavesArea = (s.xsaveAnswer xsaveSize).1 ∧ (s'.thread p).pmap = pmap) ∧
      ∀ u, s'.registry.threadLookup u =
        if u.toNat = s.registry.nextTid.toNat then p else s.registry.threadLookup u := by
  obtain ⟨r, hregister, hlookup⟩ :
      ∃ r, (s.prepared xsaveSize p pmap entry).threadRegister s.registry.nextTid p =
      (true, _) ∧ _ :=
    threadRegister_of_room hr
  rw [setUpChild_of_xsave hx, registerChild, hregister, if_pos rfl]
  -- the state that `register` leaves is the one prepared, with the new registry
  refine ⟨_, rfl, ⟨rfl, rfl⟩, ⟨?_, ?_⟩, hlookup⟩
  · exact congrArg ThreadObject.xsavesArea (Function.update_self p _ s.thread)
  · exact congrArg ThreadObject.pmap (Function.update_self p _ s.thread)

/-! ### The stack

The last allocation, and the cleanup behind it. -/

/-- Both objects are given back. -/
theorem discard_eq (hp : p ≠ 0) (hx : (s.thread p).xsavesArea ≠ 0) :
    ∃ s', s.discard p =
        ⟨[.release (.object (s.thread p).xsavesArea), .release (.object p)], some (0, s')⟩ ∧
      s'.registry = s.registry ∧ s'.pm.mem = s.pm.mem ∧ s'.pmRootPhys = s.pmRootPhys := by
  rw [discard, kfreeAligned_of_ne hx, some_bind, kfreeAligned_of_ne hp, some_bind]
  exact ⟨_, rfl, rfl, rfl, rfl⟩

/-- A stack that cannot be allocated is not obtained. -/
theorem allocStack_of_null (h : (KernelMemory.allocStack s.pm.pmm).1 = 0) :
    s.allocStack = ⟨[], some (0, s.withPmm (KernelMemory.allocStack s.pm.pmm).2)⟩ := by
  simp only [allocStack, h, if_true]
  rfl

/-- One that can is. -/
theorem allocStack_of_ne (h : (KernelMemory.allocStack s.pm.pmm).1 ≠ 0) :
    s.allocStack = ⟨[.obtain (.stack (KernelMemory.allocStack s.pm.pmm).1)],
      some ((KernelMemory.allocStack s.pm.pmm).1,
        s.withPmm (KernelMemory.allocStack s.pm.pmm).2)⟩ := by
  simp only [allocStack, if_neg h]
  rfl

/-- Without a stack, both objects are given back, and the registry is left alone. -/
theorem giveStack_of_no_stack (hp : p ≠ 0) (hx : (s.thread p).xsavesArea ≠ 0)
    (hstack : (KernelMemory.allocStack s.pm.pmm).1 = 0) :
    ∃ s', s.giveStack p arg affinity =
        ⟨[.release (.object (s.thread p).xsavesArea), .release (.object p)], some (0, s')⟩ ∧
      s'.registry = s.registry ∧ s'.pm.mem = s.pm.mem ∧ s'.pmRootPhys = s.pmRootPhys := by
  rw [giveStack, allocStack_of_null hstack, some_bind, if_pos rfl]
  exact @discard_eq _ _ (s.withPmm (KernelMemory.allocStack s.pm.pmm).2) p hp hx

/-- The stack is mapped, or it is not. -/
theorem mapStack_returns (s : Creation σ) (pmap phys : Addr) :
    ∃ ok pm', s.mapStack pmap phys = some (ok, pm') := by
  rw [mapStack]
  split
  case isTrue => exact ⟨false, s.pm, rfl⟩
  case isFalse =>
    rw [PmState.pmapMap, if_neg (by decide)]
    exact PmState.mapLoop_returns (s.pmRootPhys pmap) stackProt (by decide) (by decide)
      (by decide) _
      (by decide) _ s.pm

/-- What is mapped depends on the page tables only. -/
theorem mapStack_congr {s' : Creation σ} (hpm : s'.pm = s.pm)
    (hroots : s'.pmRootPhys = s.pmRootPhys) (pmap phys : Addr) :
    s'.mapStack pmap phys = s.mapStack pmap phys := by
  rw [mapStack, mapStack, hpm, hroots]

/-- With a stack, the rest is that of `startOnStack`. -/
theorem giveStack_of_stack (h : (KernelMemory.allocStack s.pm.pmm).1 ≠ 0) :
    s.giveStack p arg affinity = (do
      tell [.obtain (.stack (KernelMemory.allocStack s.pm.pmm).1)]
      (s.withPmm (KernelMemory.allocStack s.pm.pmm).2).startOnStack p
        (KernelMemory.allocStack s.pm.pmm).1 arg affinity) := by
  rw [giveStack, allocStack_of_ne h, some_bind]
  exact if_neg h ▸ rfl

/-- If the stack cannot be mapped, all three are given back. -/
theorem startOnStack_of_not_mapped {phys : Addr} {pm : PmState σ} (hp : p ≠ 0)
    (hx : (s.thread p).xsavesArea ≠ 0)
    (hmap : s.mapStack (s.thread p).pmap phys = some (false, pm)) :
    ∃ s', s.startOnStack p phys arg affinity =
        ⟨[.release (.stack phys), .release (.object (s.thread p).xsavesArea),
          .release (.object p)], some (0, s')⟩ ∧
      s'.registry = s.registry ∧ s'.pm.mem = pm.mem ∧ s'.pmRootPhys = s.pmRootPhys := by
  obtain ⟨s', hdiscard, hrest⟩ := @discard_eq _ _
    ({ s with pm }.withPmm (KernelMemory.freeStack pm.pmm phys)) p hp hx
  refine ⟨s', ?_, hrest⟩
  have hfree : { s with pm }.freeStack phys =
      ⟨[.release (.stack phys)],
      some ({ s with pm }.withPmm (KernelMemory.freeStack pm.pmm phys))⟩ :=
    rfl
  -- the stack is given back first, then the thread's own two objects
  have hstatus : (lift (s.mapStack (s.thread p).pmap phys) :
      Traced ResourceEvent (Bool × PmState σ)) = ⟨[], some (false, pm)⟩ := by
    rw [hmap]
    rfl
  rw [startOnStack, hstatus, some_bind]
  simp only [Bool.false_eq_true, if_false, hfree, some_bind, hdiscard]
  rfl

/-- If it can be mapped, what is returned is the thread. -/
theorem startOnStack_of_mapped {phys : Addr} {pm : PmState σ}
    (hmap : s.mapStack (s.thread p).pmap phys = some (true, pm)) {r : Addr × Creation σ}
    (hr : (s.startOnStack p phys arg affinity).val = some r) : r.1 = p := by
  rw [startOnStack, val_bind, lift_val, hmap, Option.bind_some, if_pos rfl, val_bind] at hr
  obtain ⟨sched, -, hr⟩ := Option.bind_eq_some_iff.mp hr
  exact (congrArg Prod.fst (Option.some.inj hr)).symm

/-! ### The whole call

By cases on which allocation fails first. -/

/-- What was taken is given back, in any order. -/
theorem balanced_of_perm (taken given : List Resource) (h : given.Perm taken) :
    Balanced (taken.map .obtain ++ given.map .release) := by
  intro r
  -- what is obtained is counted by the first half alone, what is released by the second
  have hobtain : (taken.map ResourceEvent.obtain).count (.release r) = 0 := by
    apply List.count_eq_zero.mpr
    intro hr
    obtain ⟨_, -, hr⟩ := List.mem_map.mp hr
    cases hr
  have hrelease : (given.map ResourceEvent.release).count (.obtain r) = 0 := by
    apply List.count_eq_zero.mpr
    intro hr
    obtain ⟨_, -, hr⟩ := List.mem_map.mp hr
    cases hr
  rw [List.count_append, List.count_append, hobtain, hrelease, Nat.zero_add, Nat.add_zero,
    List.count_map_of_injective _ _ (fun _ _ => ResourceEvent.release.inj),
    List.count_map_of_injective _ _ (fun _ _ => ResourceEvent.obtain.inj)]
  exact h.count_eq r

omit [KernelMemory σ] in
/-- Translation depends on the tables only. -/
theorem pmapExtract_congr {pm pm' : PmState σ} (h : pm'.mem = pm.mem) (va : Addr) :
    pm'.pmapExtract root va = pm.pmapExtract root va := by
  rw [PmState.pmapExtract, PmState.pmapExtract, h]

/-- Taking a number changes no entry of the registry. -/
theorem threadLookup_threadAllocTid (r : Registry) (tid : BitVec 64) :
    r.threadAllocTid.2.threadLookup tid = r.threadLookup tid := rfl

/-- Nothing is left behind by a call that fails before the thread is registered. -/
theorem restored_of_failsEarly (h : s.FailsEarly xsaveSize) {s' : Creation σ}
    (hs' : (s.threadCreate xsaveSize pmap entry arg affinity).val = some (0, s')) :
    Restored s s' pmap (s.threadCreate xsaveSize pmap entry arg affinity).log := by
  -- no thread object, no save area, or no place in the registry
  by_cases ht : s.threadAnswer.1 = 0
  · rw [threadCreate, threadCreateChild_of_no_thread ht, some_bind, if_pos rfl] at hs' ⊢
    obtain rfl := (Prod.ext_iff.mp (Option.some.inj hs')).2
    exact ⟨fun _ => rfl, fun _ => rfl, fun _ => rfl⟩
  · by_cases hx : (s.xsaveAnswer xsaveSize).1 = 0
    · rw [threadCreate, val_bind, threadCreateChild_of_thread ht, setUpChild_of_no_xsave hx] at hs'
      cases hs'
    · have hr : s.CannotRegister xsaveSize := (h.resolve_left ht).resolve_left hx
      obtain ⟨s₁, hcall, hregistry, hmem, hroots⟩ :=
        @setUpChild_of_cannotRegister σ _ xsaveSize s s.threadAnswer.1 pmap entry ht hx hr
      rw [threadCreate, threadCreateChild_of_thread ht, hcall, some_bind, if_pos rfl] at hs' ⊢
      obtain rfl := (Prod.ext_iff.mp (Option.some.inj hs')).2
      refine ⟨fun tid => ?_, ?_, hroots ▸ pmapExtract_congr hmem⟩
      · rw [hregistry, threadLookup_threadAllocTid]
      · exact balanced_of_perm [.object s.threadAnswer.1, .object (s.xsaveAnswer xsaveSize).1]
          [.object (s.xsaveAnswer xsaveSize).1, .object s.threadAnswer.1] (.swap ..)

/-- Otherwise the thread is registered when its stack is allocated. -/
theorem threadCreate_of_not_failsEarly (h : ¬ s.FailsEarly xsaveSize) :
    ∃ s₁ : Creation σ, s.threadCreate xsaveSize pmap entry arg affinity =
        ⟨[.obtain (.object s.threadAnswer.1), .obtain (.object (s.xsaveAnswer xsaveSize).1)] ++
          (s₁.giveStack s.threadAnswer.1 arg affinity).log,
          (s₁.giveStack s.threadAnswer.1 arg affinity).val⟩ ∧
      (s₁.pm = { s.pm with pmm := (s.growAnswer xsaveSize).2 } ∧ s₁.pmRootPhys = s.pmRootPhys) ∧
      ((s₁.thread s.threadAnswer.1).xsavesArea = (s.xsaveAnswer xsaveSize).1 ∧
        (s₁.thread s.threadAnswer.1).pmap = pmap) ∧
      ∀ u, s₁.registry.threadLookup u = if u.toNat = s.registry.nextTid.toNat then s.threadAnswer.1
        else s.registry.threadLookup u := by
  -- everything up to the stack has succeeded
  obtain ⟨ht, hrest⟩ := not_or.mp h
  obtain ⟨hx, hr⟩ := not_or.mp hrest
  obtain ⟨s₁, hcall, hpm, harea, hlookup⟩ :=
    @setUpChild_of_registered σ _ xsaveSize s s.threadAnswer.1 pmap entry hx hr
  refine ⟨s₁, ?_, hpm, harea, hlookup⟩
  rw [threadCreate, threadCreateChild_of_thread ht, hcall, some_bind]
  exact if_neg ht ▸ rfl

/-- The thread has been registered, all that was taken has been given back, and `mem` are the page
tables. -/
structure LeavesPointer (s s' : Creation σ) (mem : Addr → BitVec 9 → Entry)
    (log : List ResourceEvent) : Prop where
  balanced : Balanced log
  roots : s'.pmRootPhys = s.pmRootPhys
  lookup : ∀ u, s'.registry.threadLookup u = if u.toNat = s.registry.nextTid.toNat
    then s.threadAnswer.1 else s.registry.threadLookup u
  mem_eq : s'.pm.mem = mem

/-- Without a stack, the registry still has a pointer to the thread. -/
theorem threadCreate_of_no_stack (h : ¬ s.FailsEarly xsaveSize)
    (hstack : (s.stackAnswer xsaveSize).1 = 0) :
    ∃ log s', s.threadCreate xsaveSize pmap entry arg affinity = ⟨log, some (0, s')⟩ ∧
      LeavesPointer s s' s.pm.mem log := by
  obtain ⟨s₁, hcall, ⟨hpm, hroots⟩, ⟨harea, -⟩, hlookup⟩ :=
    @threadCreate_of_not_failsEarly σ _ xsaveSize s pmap entry arg affinity h
  obtain ⟨ht, hrest⟩ := not_or.mp h
  have hx : (s₁.thread s.threadAnswer.1).xsavesArea ≠ 0 := harea ▸ (not_or.mp hrest).1
  have hstack' : (KernelMemory.allocStack s₁.pm.pmm).1 = 0 := by rw [hpm]; exact hstack
  obtain ⟨s', heq, hregistry, hmem, hroots'⟩ :=
    @giveStack_of_no_stack σ _ s₁ s.threadAnswer.1 arg affinity ht hx hstack'
  -- both objects are given back; the registry keeps the pointer
  have hlog := balanced_of_perm [.object s.threadAnswer.1, .object (s.xsaveAnswer xsaveSize).1]
    [.object (s.xsaveAnswer xsaveSize).1, .object s.threadAnswer.1] (.swap ..)
  have hmem' : s₁.pm.mem = s.pm.mem := by rw [hpm]
  rw [hcall, heq, harea]
  exact ⟨_, s', rfl, hlog, hroots'.trans hroots, hregistry ▸ hlookup, hmem.trans hmem'⟩

/-- The state in which the stack is mapped. -/
theorem threadCreate_of_stack (h : ¬ s.FailsEarly xsaveSize)
    (hstack : (s.stackAnswer xsaveSize).1 ≠ 0) :
    ∃ s₂ : Creation σ, s.threadCreate xsaveSize pmap entry arg affinity =
        ⟨[.obtain (.object s.threadAnswer.1), .obtain (.object (s.xsaveAnswer xsaveSize).1),
            .obtain (.stack (s.stackAnswer xsaveSize).1)] ++
          (s₂.startOnStack s.threadAnswer.1 (s.stackAnswer xsaveSize).1 arg affinity).log,
          (s₂.startOnStack s.threadAnswer.1 (s.stackAnswer xsaveSize).1 arg affinity).val⟩ ∧
      (s₂.mapStack (s₂.thread s.threadAnswer.1).pmap (s.stackAnswer xsaveSize).1 =
        s.stackStatus xsaveSize pmap ∧ s₂.pmRootPhys = s.pmRootPhys) ∧
      (s₂.thread s.threadAnswer.1).xsavesArea = (s.xsaveAnswer xsaveSize).1 ∧
      ∀ u, s₂.registry.threadLookup u = if u.toNat = s.registry.nextTid.toNat then s.threadAnswer.1
        else s.registry.threadLookup u := by
  -- up to here the object, its save area and its id are there
  obtain ⟨s₁, hcall, ⟨hpm, hroots⟩, ⟨harea, hpmap⟩, hlookup⟩ :=
    @threadCreate_of_not_failsEarly σ _ xsaveSize s pmap entry arg affinity h
  have hanswer : KernelMemory.allocStack s₁.pm.pmm = s.stackAnswer xsaveSize :=
    congrArg (fun pm : PmState σ => KernelMemory.allocStack pm.pmm) hpm
  have hstack' : (KernelMemory.allocStack s₁.pm.pmm).1 ≠ 0 := hanswer ▸ hstack
  refine ⟨s₁.withPmm (s.stackAnswer xsaveSize).2, ?_, ⟨?_, hroots⟩, harea, hlookup⟩
  · rw [hcall, giveStack_of_stack hstack', hanswer]
    rfl
  · have hpmap' : ((s₁.withPmm (s.stackAnswer xsaveSize).2).thread s.threadAnswer.1).pmap = pmap :=
      hpmap
    have hpm' : (s₁.withPmm (s.stackAnswer xsaveSize).2).pm =
        (s.withPmm (s.stackAnswer xsaveSize).2).pm := by
      rw [withPmm, withPmm, hpm]
    rw [hpmap', stackStatus]
    exact mapStack_congr hpm' hroots _ _

/-- Nor does it help to give the stack back. -/
theorem threadCreate_of_not_mapped {pm : PmState σ} (h : ¬ s.FailsEarly xsaveSize)
    (hstack : (s.stackAnswer xsaveSize).1 ≠ 0)
    (hmap : s.stackStatus xsaveSize pmap = some (false, pm)) :
    ∃ log s', s.threadCreate xsaveSize pmap entry arg affinity = ⟨log, some (0, s')⟩ ∧
      LeavesPointer s s' pm.mem log := by
  obtain ⟨s₂, hcall, ⟨hstatus, hroots⟩, harea, hlookup⟩ :=
    @threadCreate_of_stack σ _ xsaveSize s pmap entry arg affinity h hstack
  obtain ⟨ht, hrest⟩ := not_or.mp h
  have hx : (s₂.thread s.threadAnswer.1).xsavesArea ≠ 0 := harea ▸ (not_or.mp hrest).1
  obtain ⟨s', heq, hregistry, hmem, hroots'⟩ :=
    @startOnStack_of_not_mapped σ _ s₂ s.threadAnswer.1 arg affinity _ pm ht hx (hstatus.trans hmap)
  -- the stack and both objects are given back; the registry keeps the pointer
  have hlog := balanced_of_perm [.object s.threadAnswer.1, .object (s.xsaveAnswer xsaveSize).1,
      .stack (s.stackAnswer xsaveSize).1]
    [.stack (s.stackAnswer xsaveSize).1, .object (s.xsaveAnswer xsaveSize).1,
      .object s.threadAnswer.1] (List.reverse_perm [_, _, _])
  rw [hcall, heq, harea]
  exact ⟨_, s', rfl, hlog, hroots'.trans hroots, hregistry ▸ hlookup, hmem⟩

/-- What a call that leaves a pointer has restored. -/
theorem LeavesPointer.restored_iff {s' : Creation σ} {mem : Addr → BitVec 9 → Entry}
    {log : List ResourceEvent} (h : LeavesPointer s s' mem log) : Restored s s' pmap log ↔
      s.registry.threadLookup (s.registry.nextTid.setWidth 64) = s.threadAnswer.1 ∧
        ∀ va, s'.pm.pmapExtract (s.pmRootPhys pmap) va =
        s.pm.pmapExtract (s.pmRootPhys pmap) va := by
  have htid : (s.registry.nextTid.setWidth 64).toNat = s.registry.nextTid.toNat := by
    rw [BitVec.toNat_setWidth, Nat.mod_eq_of_lt (s.registry.nextTid.isLt.trans (by decide))]
  constructor
  · intro hrestored
    refine ⟨?_, h.roots ▸ hrestored.translations⟩
    rw [← hrestored.lookup, h.lookup, if_pos htid]
  · rintro ⟨hthere, htranslations⟩
    refine ⟨fun u => ?_, h.balanced, h.roots ▸ htranslations⟩
    rw [h.lookup]
    split
    -- the one identifier whose lookup may have changed is the new thread's
    case isTrue hu =>
      have hu' : u = s.registry.nextTid.setWidth 64 := BitVec.eq_of_toNat_eq (hu.trans htid.symm)
      rw [hu', hthere]
    case isFalse => rfl

/-- If `thread_create` returns `NULL`, nothing is left behind, if and only if an allocation fails
before the thread is registered, or the stack can be allocated and mapped (and the call does not
return `NULL`), or the pointer that is left in the registry was there before. -/
theorem threadCreate_restores_iff (xsaveSize : BitVec 32) (s : Creation σ)
    (pmap entry arg : Addr) (affinity : BitVec 32) :
    (∀ s', (s.threadCreate xsaveSize pmap entry arg affinity).val = some (0, s') →
      Restored s s' pmap (s.threadCreate xsaveSize pmap entry arg affinity).log) ↔
    s.FailsEarly xsaveSize ∨ s.StackMapped xsaveSize pmap ∨ s.AlreadyThere xsaveSize pmap := by
  have hnull : ∀ s' : Creation σ, ∀ P : Creation σ → Prop,
      (∀ s'', some ((0 : Addr), s') = some (0, s'') → P s'') ↔ P s' := by
    intro s' P
    simp
  by_cases hearly : s.FailsEarly xsaveSize
  · exact iff_of_true (fun s' hs' => restored_of_failsEarly hearly hs') (Or.inl hearly)
  rw [or_iff_right hearly]
  by_cases hstack : (s.stackAnswer xsaveSize).1 = 0
  · -- The page tables have not been touched.
    obtain ⟨log, s', hcall, hleaves⟩ :=
      @threadCreate_of_no_stack σ _ xsaveSize s pmap entry arg affinity hearly hstack
    have hnot : ¬ s.StackMapped xsaveSize pmap := fun h => h.1 hstack
    rw [hcall, hnull, or_iff_right hnot]
    refine hleaves.restored_iff.trans (and_congr_right fun _ => ?_)
    exact iff_of_true (pmapExtract_congr hleaves.mem_eq) (Or.inl hstack)
  obtain ⟨ok, pm, hmap⟩ : ∃ ok pm, s.stackStatus xsaveSize pmap = some (ok, pm) :=
    mapStack_returns ..
  cases ok with
  | true =>
      refine iff_of_true (fun s' hs' => ?_) (Or.inl ⟨hstack, pm, hmap⟩)
      obtain ⟨s₂, hcall, ⟨hstatus, -⟩, -, -⟩ :=
        @threadCreate_of_stack σ _ xsaveSize s pmap entry arg affinity hearly hstack
      rw [hcall] at hs'
      exact absurd (startOnStack_of_mapped (hstatus.trans hmap) hs').symm (not_or.mp hearly).1
  | false =>
      -- They are those that `pmap_map` leaves.
      obtain ⟨log, s', hcall, hleaves⟩ :=
        @threadCreate_of_not_mapped σ _ xsaveSize s pmap entry arg affinity pm hearly hstack hmap
      have hnot : ¬ s.StackMapped xsaveSize pmap := by
        rintro ⟨-, pm', hpm'⟩
        rw [hmap] at hpm'
        cases hpm'
      rw [hcall, hnull, or_iff_right hnot]
      refine hleaves.restored_iff.trans (and_congr_right fun _ => ?_)
      rw [or_iff_right hstack, hmap]
      constructor
      · intro h pm' hpm' va
        obtain rfl := (Prod.ext_iff.mp (Option.some.inj hpm')).2
        exact (pmapExtract_congr hleaves.mem_eq va).symm.trans (h va)
      · intro h va
        exact (pmapExtract_congr hleaves.mem_eq va).trans (h pm rfl va)

/-- A kernel heap with room in it, on a machine without free pages. -/
structure HeapOnly where
  /-- How many objects have been allocated. -/
  count : ℕ

instance : KernelMemory HeapOnly where
  allocPages m := (0, m)
  freePages m _ := m
  kmallocAligned m _ _ :=
    (0xFFFF800000000000#64 + BitVec.ofNat 64 (m.count * 0x8000), ⟨m.count + 1⟩)
  kfreeAligned m _ := m
  krealloc m _ _ := (0xFFFF800000000000#64 + BitVec.ofNat 64 (m.count * 0x8000), ⟨m.count + 1⟩)
  allocStack m := (0, m)
  freeStack m _ := m

/-- Before any thread has been created. -/
def noThreads : Creation HeapOnly where
  registry :=
    { gThreads := 0
      slots := fun _ => 0
      cap := 0
      nextTid := 0
      allocated := fun h => absurd h (Nat.lt_irrefl 0) }
  pm := { mem := fun _ _ => 0#64, pmm := ⟨0⟩, trace := [] }
  sched :=
    { thread := fun _ =>
        { state := .created, currentLevel := 0, timeQuantumLeft := 0, totalCpuTime := 0 }
      runq := ListStore.empty
      current := none
      ticks := 0 }
  thread _ :=
    { pmap := 0
      tf := { rip := 0, rsp := 0, rflags := 0, rdi := 0, rsi := 0 }
      cs := 0
      ss := 0
      tid := 0
      pid := 0
      cpuAffinity := 0
      pagerTid := 0
      xsavesArea := 0 }
  -- one pmap for all threads, whose root is the first page
  pmRootPhys _ := 0x1000

/-- Without eight free pages for the stack, `thread_create` returns `NULL`, and `thread_lookup`
finds the thread that has been freed. -/
theorem threadCreate_leaves_pointer : ∃ s' log p,
    noThreads.threadCreate 2696 0xFFFFFFFF80100000 0x400000 0 0 = ⟨log, some (0, s')⟩ ∧
      noThreads.registry.threadLookup 0 = 0 ∧ s'.registry.threadLookup 0 = p ∧ p ≠ 0 ∧
      .release (.object p) ∈ log := by
  have hcheck : ((noThreads.threadCreate 2696 0xFFFFFFFF80100000 0x400000 0 0).val.any fun r =>
      r.1 = 0 ∧ noThreads.registry.threadLookup 0 = 0 ∧ r.2.registry.threadLookup 0 ≠ 0 ∧
        .release (.object (r.2.registry.threadLookup 0)) ∈
          (noThreads.threadCreate 2696 0xFFFFFFFF80100000 0x400000 0 0).log) = true := by
    decide +kernel
  obtain ⟨⟨t, s'⟩, hcall, hcheck⟩ := (Option.any_eq_true _ _).mp hcheck
  obtain ⟨rfl, hbefore, hafter, hmem⟩ := of_decide_eq_true hcheck
  refine ⟨s', _, _, ?_, hbefore, rfl, hafter, hmem⟩
  rw [← hcall]

end Creation

end Koharu
