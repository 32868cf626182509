import Koharu.Lib.Attempt
import Koharu.Task.Ipc
import Koharu.User.LoadersExact
import Koharu.User.VmaSets

/-!
# The root server

The functions of `user/pager.c`, with all that they leave behind: the cursor of the pool, the
records of `child_vmas`, memory, and the variable `heap` of `serve`. A request to the kernel that is
refused ends the function it is made in, and what has been mapped before stays mapped.

* `RootServer.loadSegment`, `mapStack`, `mapShared`, `mapUtcb`: what `root_main` does for the child;
* `RootServer.serve`: one message, up to the reply to it;
* `NewPages`: the pages that `map_stack` and `serve` give to the child.
-/

namespace Koharu

/-! ### `root.h` and `vma.h`

The constants. -/

/-- `SHARED_VA`. -/
def sharedVa : Addr := 0x700040000000#64

/-- `UTBC_VA`. -/
def utbcVa : Addr := 0x7ffffffde000#64

/-- `KOHARU_REQ_ALLOC`. -/
def reqAlloc : BitVec 64 := 1

/-- `KOHARU_REQ_READY`. -/
def reqReady : BitVec 64 := 2

/-- `KOHARU_REQ_MAP`. -/
def reqMap : BitVec 64 := 3

/-- `KOHARU_REQ_EXIT`. -/
def reqExit : BitVec 64 := 4

/-- `CHILD_STACK_SIZE`. -/
def childStackSize : Addr := 128 * 1024

/-- `CHILD_STACK_TOP`. -/
def childStackTop : Addr := 0x7ffffffff000#64

/-- `CHILD_HEAP_VA`. -/
def childHeapVa : Addr := 0x700000000000#64

/-- `VMA_STACK`. -/
def vmaStack : BitVec 64 := 3

/-- `VMA_HEAP`. -/
def vmaHeap : BitVec 64 := 4

/-! ### The functions

The root server's functions on its static variables, with `vma_insert` as `vma.c` has it. -/

/-- The static variables of the root server, and memory. -/
structure RootServer where
  pager : Pager
  /-- How many requests to the kernel there have been. -/
  asked : ℕ
  /-- `child_vmas`, and the records. -/
  vmas : VmaState Unit
  memory : RootMemory
  /-- `heap` in `serve`. -/
  heap : Addr

namespace RootServer

/-- After `pager_init`. -/
def start (pool : ℕ → UInt8) (frameCount : ℕ) (memory : RootMemory) : RootServer where
  pager := pagerInit pool frameCount
  asked := 0
  vmas := VmaState.zero.vmaSetInit ()
  memory
  heap := childHeapVa

/-- `pool_alloc`. -/
def poolAlloc : Attempt RootServer ℕ := fun s =>
  (s.pager.poolAlloc.1, { s with pager := s.pager.poolAlloc.2 })

/-- `vma_insert(&child_vmas, ...)`. -/
def vmaInsert (start endAddr prot kind : Addr) : Attempt RootServer Unit := fun s =>
  let inserted := s.vmas.vmaInsert () start endAddr prot kind
  (if inserted.1 = true then some () else none, { s with vmas := inserted.2 })

section Functions

variable (img : Image) (env : RootEnv)

/-- What is done to memory and is not refused. -/
def touch (a : Access) : Attempt RootServer Unit :=
  Attempt.modify fun s => { s with memory := s.memory.access img env.self a }

/-- `map_page`, where `SYS_MAP` refuses a page that is to be neither read nor written. -/
def mapPage (target va phys prot : Addr) : Attempt RootServer Unit := fun s =>
  if prot &&& protReadWrite ≠ 0 ∧ env.granted s.asked = true then
    (some (), { s with
      asked := s.asked + 1
      memory := s.memory.access img env.self (.map target va phys prot) })
  else (none, { s with asked := s.asked + 1 })

/-- `frame_zero`. -/
def frameZero (phys : Addr) : Attempt RootServer Unit := do
  mapPage img env env.self scratchVa phys protReadWrite
  touch img env (.clear scratchVa pageSize.toNat)
  touch img env (.unmap env.self scratchVa)

/-- `pool_alloc` and `frame_zero`, with the frame as a physical address. -/
def newFrame : Attempt RootServer Addr := do
  let pfn ← poolAlloc
  frameZero img env (BitVec.ofNat 64 pfn <<< 12)
  pure (BitVec.ofNat 64 pfn <<< 12)

/-- One page in `load_segment`. -/
def loadPage (ph : Segment) (va : Addr) : Attempt RootServer Unit := do
  let phys ← newFrame img env
  mapPage img env env.self scratchVa phys protReadWrite
  forM (ph.copyTo scratchVa va) (touch img env)
  touch img env (.unmap env.self scratchVa)
  mapPage img env env.child va phys (RootState.segmentProt ph)

/-- `load_segment`. -/
def loadSegment (ph : Segment) : Attempt RootServer Unit := do
  forM ph.pages (loadPage img env ph)
  vmaInsert ph.vaStart ph.vaEnd (RootState.segmentProt ph)
    (if ph.flags &&& 1 ≠ 0 then vmaCode else vmaData)

/-- `map_shared`. -/
def mapShared : Attempt RootServer Unit := do
  let phys ← newFrame img env
  mapPage img env env.self sharedVa phys protReadWrite
  mapPage img env env.child sharedVa phys protReadWrite

/-- `utcb[i] = w`, where the frame is found at `SCRATCH_VA`. -/
def storeUtcb (i : ℕ) (w : BitVec 64) : Attempt RootServer Unit :=
  Attempt.modify fun s => { s with
    memory.bytes := Bytes.storeAt (s.memory.translate env.self)
      (scratchVa + BitVec.ofNat 64 (8 * i))
      (fun k => (w >>> (8 * k)).setWidth 8) 8 s.memory.bytes }

/-- `map_utcb`. -/
def mapUtcb (childTid pagerTid : BitVec 64) : Attempt RootServer Unit := do
  let phys ← newFrame img env
  mapPage img env env.child utbcVa phys protReadWrite
  mapPage img env env.self scratchVa phys protReadWrite
  storeUtcb env 0 childTid
  storeUtcb env 1 pagerTid
  touch img env (.unmap env.self scratchVa)

/-- One page in `map_stack` and in `serve`. -/
def newPage (va : Addr) : Attempt RootServer Unit := do
  let phys ← newFrame img env
  mapPage img env env.child va phys protReadWrite

/-- The loops of `map_stack` and `serve`, with the number of pages that are left. -/
def newPages (base : Addr) : ℕ → ℕ → Attempt RootServer Unit
  | 0, _ => pure ()
  | left + 1, i => do
      newPage img env (base + BitVec.ofNat 64 i * pageSize)
      newPages base left (i + 1)

/-- `map_stack`. -/
def mapStack : Attempt RootServer Unit := do
  newPages img env (childStackTop - childStackSize) (childStackSize.toNat / pageSize.toNat) 0
  vmaInsert (childStackTop - childStackSize) childStackTop protReadWrite vmaStack

/-- `msg[0]` and `reply[0]`. -/
def firstWord (words : Words) : BitVec 64 := words[0]

/-- `msg[1]`. -/
def secondWord (words : Words) : BitVec 64 := words[1]

/-- `reply` at the start of each iteration in `serve`. -/
def noReply : Words := Vector.replicate ipcMsgWords 0

/-- `reply` with an address. -/
def addressReply (va : Addr) : Words := noReply.set 0 va

/-- A reply without words has no address in it. -/
@[simp]
theorem firstWord_noReply : firstWord noReply = 0 := rfl

/-- The address is the first word of its reply. -/
@[simp]
theorem firstWord_addressReply (va : Addr) : firstWord (addressReply va) = va := rfl

/-- The number of pages of a request. The sum is one of words. -/
def heapPages (size : BitVec 64) : BitVec 64 := (size + pageSize - 1) >>> 12

/-- `serve` after a message that asks for memory. The first word of the reply is set before
`vma_insert` is asked. -/
def serveHeap (size : BitVec 64) (s : RootServer) : Words × RootServer :=
  match (newPages img env s.heap (heapPages size).toNat 0).run s with
  | (none, s) => (noReply, s)
  | (some _, s) =>
      match (vmaInsert s.heap (s.heap + heapPages size * pageSize) protReadWrite vmaHeap).run s with
      | (none, s') => (addressReply s.heap, s')
      | (some _, s') =>
          (addressReply s.heap, { s' with heap := s.heap + heapPages size * pageSize })

/-- One iteration of the loop in `serve`: the reply to a message. There is none where `serve` comes
to its end. -/
def serve (sender : ℤ) (msg : Words) (s : RootServer) : Option (Words × RootServer) :=
  if sender ≤ 0 ∨ env.child = 0 then some (noReply, s)
  else if firstWord msg = reqReady then some (noReply, s)
  else if firstWord msg = reqExit then none
  else if firstWord msg = reqAlloc ∨
    firstWord msg = reqMap then some (s.serveHeap img env (secondWord msg))
  else some (noReply, s)

end Functions

/-! ### New pages

What `map_page` and `pool_alloc` have done when they succeed: the page is a frame of the pool, and
`SYS_MAP` was asked for it. -/

section NewPages

variable {img : Image} {env : RootEnv} {s s' : RootServer} {target va phys prot : Addr} {u : Unit}

/-- A frame that is allocated leaves the pool with one bit less. -/
theorem poolAlloc_eq_some {pfn : ℕ} (h : poolAlloc.run s = (some pfn, s')) :
    s.pager.setBits ≠ [] ∧ s' = { s with pager := s.pager.poolAlloc.2 } := by
  obtain ⟨hpfn, hs'⟩ := Prod.mk.inj h
  exact ⟨List.ne_nil_of_mem (Pager.mem_setBits_of_poolAlloc hpfn), hs'.symm⟩

/-- A page is mapped if it may be read or written and the request is granted. -/
theorem mapPage_eq_some (h : (mapPage img env target va phys prot).run s = (some u, s')) :
    (prot &&& protReadWrite ≠ 0 ∧ env.granted s.asked = true) ∧ s' = { s with
      asked := s.asked + 1
      memory := s.memory.access img env.self (.map target va phys prot) } := by
  rw [Attempt.run, mapPage] at h
  split at h
  next hgranted => exact ⟨hgranted, (Prod.mk.inj h).2.symm⟩
  next => cases h

/-- A frame of the pool, which is clear. The scratch address, where it was cleared, is not mapped
any more. -/
structure NewFrame (env : RootEnv) (frame : Addr) (s s' : RootServer) : Prop where
  pool : s.pager.setBits ≠ []
  granted : env.granted s.asked = true
  asked : s'.asked = s.asked + 1
  isPage : IsPage frame
  bytes : ∀ a, s'.memory.bytes a = if Kernel.pageOf a = frame then 0 else s.memory.bytes a
  spaces : ∀ tid page, s'.memory.spaces tid page =
    if tid = env.self ∧ page = scratchVa then none else s.memory.spaces tid page

/-- What a call of `new_frame` that returns has done. -/
theorem newFrame_of_run (h : (newFrame img env).run s = (some phys, s')) :
    NewFrame env phys s s' := by
  obtain ⟨pfn, s₁, hpool, hframe⟩ := Attempt.exists_of_bind h
  obtain ⟨u, s₂, hzero, hresult⟩ := Attempt.exists_of_bind hframe
  obtain ⟨u', s₃, hmap, hclear⟩ := Attempt.exists_of_bind hzero
  obtain ⟨hphys, rfl⟩ := Prod.mk.inj hresult
  obtain rfl := Option.some.inj hphys
  obtain ⟨-, rfl⟩ := Prod.mk.inj hclear
  obtain ⟨hsome, rfl⟩ := poolAlloc_eq_some hpool
  obtain ⟨hgranted, rfl⟩ := mapPage_eq_some hmap
  -- the new frame is seen at the scratch address while it is cleared
  have hscratch : (s.memory.access img env.self (.map env.self scratchVa
      (BitVec.ofNat 64 pfn <<< 12) protReadWrite)).spaces env.self scratchVa =
        some (BitVec.ofNat 64 pfn <<< 12) := if_pos ⟨rfl, rfl⟩
  refine ⟨hsome, hgranted.2, rfl, isPage_shift pfn, fun a => ?_, fun tid page => ?_⟩
  · exact RootMemory.store_clear_scratch img (isPage_shift pfn) hscratch _ a
  · show (if tid = env.self ∧ page = scratchVa then none else
      if tid = env.self ∧ page = scratchVa then _ else s.memory.spaces tid page) = _
    split
    case isTrue => rfl
    case isFalse => rfl

/-- The child has a page more, which is clear. -/
structure NewPage (env : RootEnv) (va : Addr) (s s' : RootServer) : Prop where
  pool : s.pager.setBits ≠ []
  granted : ∀ k < 2, env.granted (s.asked + k) = true
  asked : s'.asked = s.asked + 2
  frame : ∃ frame, s'.memory.spaces env.child va = some frame ∧
    ∀ a, Kernel.pageOf a = frame → s'.memory.bytes a = 0
  /-- What was clear is so still. -/
  clear : ∀ a, s.memory.bytes a = 0 → s'.memory.bytes a = 0
  rest : ∀ page, page ≠ va → s'.memory.spaces env.child page = s.memory.spaces env.child page

/-- What a call of `new_page` that returns has done. -/
theorem newPage_of_run (hself : env.child ≠ env.self)
    (h : (newPage img env va).run s = (some u, s')) : NewPage env va s s' := by
  obtain ⟨phys, s₁, hframe, hmap⟩ := Attempt.exists_of_bind h
  have hframe := newFrame_of_run hframe
  obtain ⟨hgranted, rfl⟩ := mapPage_eq_some hmap
  have hasked := hframe.asked
  refine ⟨hframe.pool, fun k hk => ?_, by rw [hasked], ⟨phys, if_pos ⟨rfl, rfl⟩, fun a ha => ?_⟩,
    fun a ha => ?_, fun page hpage => ?_⟩
  -- two grants are asked for: at the scratch address, and in the child
  · obtain rfl | rfl : k = 0 ∨ k = 1 := by omega
    · exact hframe.granted
    · rw [hasked] at hgranted
      exact hgranted.2
  · exact (hframe.bytes a).trans (if_pos ha)
  · show s₁.memory.bytes a = 0
    rw [hframe.bytes, ha, ite_self]
  · show (if env.child = env.child ∧ page = va then _ else s₁.memory.spaces env.child page) = _
    rw [if_neg fun heq => hpage heq.2, hframe.spaces, if_neg fun heq => hself heq.1]

/-- The child has these pages more, and they are clear. -/
structure NewPages (env : RootEnv) (base : Addr) (i n : ℕ) (s s' : RootServer) : Prop where
  pool : 0 < n → s.pager.setBits ≠ []
  granted : ∀ k < 2 * n, env.granted (s.asked + k) = true
  frame : ∀ j < n, ∃ frame,
    s'.memory.spaces env.child (base + BitVec.ofNat 64 (i + j) * pageSize) = some frame ∧
      ∀ a, Kernel.pageOf a = frame → s'.memory.bytes a = 0
  clear : ∀ a, s.memory.bytes a = 0 → s'.memory.bytes a = 0
  rest : ∀ page, (∀ j < n, page ≠ base + BitVec.ofNat 64 (i + j) * pageSize) →
    s'.memory.spaces env.child page = s.memory.spaces env.child page

/-- The pages of a range are different ones. -/
theorem page_ne {base : Addr} {i j : ℕ} (hij : i < j) (hj : j < 2 ^ 52) :
    base + BitVec.ofNat 64 i * pageSize ≠ base + BitVec.ofNat 64 j * pageSize := by
  intro heq
  have hmul := congrArg BitVec.toNat ((BitVec.add_right_inj _).mp heq)
  rw [BitVec.toNat_mul, BitVec.toNat_mul, BitVec.toNat_ofNat, BitVec.toNat_ofNat,
    show pageSize.toNat = 4096 from rfl] at hmul
  omega

/-- What taking a range of new pages has done when it returns, by induction on their number. -/
theorem newPages_of_run (hself : env.child ≠ env.self) {base : Addr} (n i : ℕ)
    (hn : i + n ≤ 2 ^ 52) (h : (newPages img env base n i).run s = (some u, s')) :
    NewPages env base i n s s' := by
  induction n generalizing s i with
  | zero =>
      obtain ⟨-, rfl⟩ := Prod.mk.inj h
      exact ⟨fun hpos => absurd hpos (lt_irrefl 0), fun k hk => absurd hk (Nat.not_lt_zero k),
        fun j hj => absurd hj (Nat.not_lt_zero j), fun a ha => ha, fun page _ => rfl⟩
  | succ n ih =>
      obtain ⟨u', s₁, hpage, hrest⟩ := Attempt.exists_of_bind h
      have hpage := newPage_of_run hself hpage
      have hrest := ih (i + 1) (by omega) hrest
      have hshift : ∀ j, i + 1 + j = i + (j + 1) := fun j => by omega
      refine ⟨fun _ => hpage.pool, fun k hk => ?_, fun j hj => ?_,
        fun a ha => hrest.clear a (hpage.clear a ha), fun page hne => ?_⟩
      · by_cases hk2 : k < 2
        · exact hpage.granted k hk2
        · have hgranted := hrest.granted (k - 2) (by omega)
          rwa [hpage.asked, show s.asked + 2 + (k - 2) = s.asked + k by omega] at hgranted
      · cases j with
        | zero =>
            -- the pages that follow are other ones
            obtain ⟨frame, hmapped, hclear⟩ := hpage.frame
            refine ⟨frame, ?_, fun a ha => hrest.clear a (hclear a ha)⟩
            rw [Nat.add_zero, hrest.rest, hmapped]
            exact fun j hj => page_ne (by omega) (by omega)
        | succ j =>
            obtain ⟨frame, hmapped, hclear⟩ := hrest.frame j (by omega)
            rw [hshift] at hmapped
            exact ⟨frame, hmapped, hclear⟩
      · rw [hrest.rest, hpage.rest]
        · exact hne 0 (Nat.succ_pos n)
        · intro j hj
          rw [hshift]
          exact hne (j + 1) (by omega)

end NewPages

/-! ### What is left alone

The loader touches the books of the heap service only through `vma_insert`. -/

section Leaves

variable {img : Image} {env : RootEnv}

/-- The records and `heap`. -/
def book (s : RootServer) : VmaState Unit × Addr := (s.vmas, s.heap)

/-- An access leaves the books of the pager. -/
theorem leaves_touch (a : Access) : Attempt.Leaves book (touch img env a) :=
  Attempt.leaves_modify fun _ => rfl

/-- So does mapping a page. -/
theorem leaves_mapPage (target va phys prot : Addr) :
    Attempt.Leaves book (mapPage img env target va phys prot) := by
  intro s
  rw [Attempt.run, mapPage]
  split <;> rfl

/-- So does taking a frame from the pool. -/
theorem leaves_newFrame : Attempt.Leaves book (newFrame img env) := by
  have hpool : Attempt.Leaves book poolAlloc := fun _ => rfl
  refine hpool.bind fun pfn => ((leaves_mapPage _ _ _ _).bind fun _ => ?_).bind fun _ =>
    Attempt.leaves_pure _
  exact (leaves_touch _).bind fun _ => leaves_touch _

/-- So does taking a range of new pages. -/
theorem leaves_newPages (base : Addr) (n i : ℕ) :
    Attempt.Leaves book (newPages img env base n i) := by
  induction n generalizing i with
  | zero => exact Attempt.leaves_pure _
  | succ n ih =>
      apply (leaves_newFrame.bind fun phys => leaves_mapPage _ _ _ _).bind
      intro _
      exact ih (i + 1)

/-- So does filling the pages of a segment. -/
theorem leaves_loadPages (ph : Segment) (l : List Addr) :
    Attempt.Leaves book (forM l (loadPage img env ph)) := by
  refine Attempt.leaves_forM (fun va => ?_) l
  refine leaves_newFrame.bind fun phys => (leaves_mapPage _ _ _ _).bind fun _ => ?_
  refine (Attempt.leaves_forM leaves_touch _).bind fun _ => (leaves_touch _).bind fun _ => ?_
  exact leaves_mapPage _ _ _ _

/-- So does mapping what is shared with the child. -/
theorem leaves_mapShared : Attempt.Leaves book (mapShared img env) :=
  leaves_newFrame.bind fun _ => (leaves_mapPage _ _ _ _).bind fun _ => leaves_mapPage _ _ _ _

/-- So does mapping the UTCB. -/
theorem leaves_mapUtcb (childTid pagerTid : BitVec 64) :
    Attempt.Leaves book (mapUtcb img env childTid pagerTid) := by
  have hstore : ∀ i w, Attempt.Leaves book (storeUtcb env i w) :=
    fun _ _ => Attempt.leaves_modify fun _ => rfl
  refine leaves_newFrame.bind fun _ => (leaves_mapPage _ _ _ _).bind fun _ => ?_
  refine (leaves_mapPage _ _ _ _).bind fun _ => (hstore _ _).bind fun _ => ?_
  exact (hstore _ _).bind fun _ => leaves_touch _

end Leaves

/-! ### The trace of `load_segment`

The same function in terms of its requests and stores, from which memory afterwards is computed. -/

section Traces

variable {img : Image} {env : RootEnv}

/-- The loader's part of the variables. -/
def loader (s : RootServer) : RootState := ⟨s.pager, s.asked, s.vmas⟩

/-- With a result, the computation makes the requests of the trace, and memory is as after it. -/
def Traces (img : Image) (env : RootEnv) (x : Attempt RootServer Unit)
    (t : RootState → Traced Access RootState) : Prop :=
  ∀ s s', x.run s = (some (), s') → (t s.loader).val = some s'.loader ∧
    s'.memory = s.memory.after img env.self (t s.loader).log

variable {x y : Attempt RootServer Unit} {t t' : RootState → Traced Access RootState}

/-- Traces of two parts are joined. -/
theorem Traces.bind (hx : Traces img env x t) (hy : Traces img env y t') :
    Traces img env (x >>= fun _ => y) fun r => t r >>= t' := by
  intro s s' hrun
  obtain ⟨u, s₁, hfirst, hrest⟩ := Attempt.exists_of_bind hrun
  obtain ⟨hval, hmemory⟩ := hx s s₁ hfirst
  obtain ⟨hval', hmemory'⟩ := hy s₁ s' hrest
  refine ⟨by rw [Traced.val_bind, hval, Option.bind_some, hval'], ?_⟩
  rw [hmemory', hmemory, Traced.log_bind hval, RootMemory.after_append]

/-- The request for a page is traced by its model without memory. -/
theorem traces_mapPage (target va phys prot : Addr) :
    Traces img env (mapPage img env target va phys prot)
      (RootState.mapPage env target va phys prot) := by
  intro s s' hrun
  obtain ⟨hgranted, rfl⟩ := mapPage_eq_some hrun
  refine ⟨?_, ?_⟩
  · rw [RootState.mapPage, Traced.val_bind, Traced.tell_val, Option.bind_some, Traced.val_bind,
      Traced.lift_val, guard, if_pos hgranted.1]
    simp [RootState.ask, hgranted.2, loader]
  · rw [RootState.mapPage_log]
    rfl

/-- What is not refused. -/
theorem Traces.touch (hy : Traces img env y t) (l : List Access) :
    Traces img env (forM l (touch img env) >>= fun _ => y) fun r => Traced.tell l >>= fun _ =>
      t r := by
  intro s s' hrun
  rw [Traced.val_bind, Traced.log_bind (Traced.tell_val l), RootMemory.after_append]
  induction l generalizing s with
  | nil => exact hy s s' hrun
  | cons a l ih =>
      obtain ⟨u, s₁, hl, hy⟩ := Attempt.exists_of_bind hrun
      rw [List.forM_cons] at hl
      have hrest : Attempt.run (forM l (RootServer.touch img env))
          { s with memory := s.memory.access img env.self a } = (some u, s₁) := hl
      exact ih _ ((Attempt.run_bind hrest _).trans hy)

/-- The zeroing of a frame is traced by its model without memory. -/
theorem traces_frameZero (phys : Addr) :
    Traces img env (frameZero img env phys) (RootState.frameZero env phys) := by
  apply (traces_mapPage _ _ _ _).bind
  intro s s' hrun
  obtain ⟨-, rfl⟩ := Prod.mk.inj hrun
  exact ⟨rfl, rfl⟩

/-- One page. -/
theorem traces_loadPage (ph : Segment) (va : Addr) :
    Traces img env (loadPage img env ph va) fun r => RootState.loadPage env ph r va := by
  intro s s' hrun
  obtain ⟨phys, s₁, hframe, hrest⟩ := Attempt.exists_of_bind hrun
  obtain ⟨pfn, s₂, hpool, hzero⟩ := Attempt.exists_of_bind hframe
  obtain ⟨u, s₃, hclear, hresult⟩ := Attempt.exists_of_bind hzero
  obtain ⟨hphys, rfl⟩ := Prod.mk.inj hresult
  obtain rfl := Option.some.inj hphys
  obtain ⟨hpfn, rfl⟩ := Prod.mk.inj hpool
  -- after `frame_zero` it is the same requests one after another
  have hsteps : Traces img env
      (frameZero img env (BitVec.ofNat 64 pfn <<< 12) >>= fun _ => do
        mapPage img env env.self scratchVa (BitVec.ofNat 64 pfn <<< 12) protReadWrite
        forM (ph.copyTo scratchVa va) (RootServer.touch img env)
        forM [Access.unmap env.self scratchVa] (RootServer.touch img env)
        mapPage img env env.child va (BitVec.ofNat 64 pfn <<< 12) (RootState.segmentProt ph)) _ :=
    (traces_frameZero _).bind ((traces_mapPage _ _ _ _).bind
      (((traces_mapPage _ _ _ _).touch _).touch _))
  obtain ⟨hval, hmemory⟩ := hsteps _ s' ((Attempt.run_bind hclear _).trans hrest)
  show (RootState.loadPage env ph s.loader va).val = _ ∧
    _ = s.memory.after img env.self (RootState.loadPage env ph s.loader va).log
  unfold RootState.loadPage
  dsimp only
  rw [show s.loader.pager.poolAlloc.1 = some pfn from hpfn]
  exact ⟨hval, hmemory⟩

/-- All pages. -/
theorem traces_loadPages (ph : Segment) (l : List Addr) :
    Traces img env (forM l (loadPage img env ph)) fun r =>
      l.foldlM (RootState.loadPage env ph) r := by
  induction l with
  | nil =>
      intro s s' hrun
      obtain ⟨-, rfl⟩ := Prod.mk.inj hrun
      exact ⟨rfl, rfl⟩
  | cons va l ih =>
      intro s s' hrun
      rw [List.forM_cons] at hrun
      simp only [List.foldlM_cons]
      exact (traces_loadPage ph va).bind ih s s' hrun

/-- `load_segment` of the root server is that of the loader. -/
theorem traces_loadSegment (ph : Segment) :
    Traces img env (loadSegment img env ph) (RootState.loadSegment env ph) := by
  apply (traces_loadPages ph ph.pages).bind
  intro s s' hrun
  obtain ⟨hval, rfl⟩ := Prod.mk.inj hrun
  -- the load has gone on, so that `vma_insert` has taken the range
  have hinsert : (RootState.insertSegment s.loader.vmas ph).1 = true := by
    by_contra hnot
    have hnone := (if_neg hnot).symm.trans hval
    cases hnone
  have hguard : (Traced.lift (guard ((RootState.insertSegment s.loader.vmas ph).1 = true)) :
      Traced Access Unit).val = some () := by
    rw [hinsert]
    rfl
  constructor
  · exact (Traced.val_bind _ _).trans (by rw [hguard]; rfl)
  · rw [Traced.log_bind hguard]
    rfl

/-- What the child reads after `load_segment`, as long as no frame is taken twice. -/
theorem read_loadSegment {s s' : RootServer} {ph : Segment} (hends : ph.Ends)
    (hfile : ph.filesz.toNat ≤ ph.memsz.toNat) (hself : env.child ≠ env.self)
    (hload : (loadSegment img env ph).run s = (some (), s'))
    (hframes : (framesFor env.child (s.loader.loadSegment env ph).log).Nodup) {k : ℕ}
    (hk : k < ph.memsz.toNat) :
    s'.memory.read env.child (ph.vaddr + BitVec.ofNat 64 k) = some (ph.content img k) := by
  obtain ⟨hval, hmemory⟩ := traces_loadSegment ph s s' hload
  rw [hmemory]
  exact RootState.read_loadSegment hends hfile hself hval hframes s.memory hk

end Traces

end RootServer

end Koharu
