import Koharu.Lib.Traced
import Koharu.Task.Futex
import Koharu.Task.Sched
import Koharu.Task.Syscall

/-!
# All system calls

`do_syscall` of `kernel/task/syscall.c` on the whole kernel: page tables and grants, the scheduler,
message passing and futexes. A system call runs with interrupts masked, up to the end or up to where
it gives up the CPU; what it does when its thread runs again is the thread's `Kont`, or its `Frame`
inside an IPC operation.

The state of a thread and which one is current are those of the scheduler. `kernelView` and
`ipcView` hand them to the models of the other parts.

The functions are partial, as those of the parts are: `none` stands for a corrupted list, a pointer
to something that is not there, or a store into the kernel's own code and data. What the runs of the
system make of that is in `Steps`. They record what they rely on, see `Note`.
-/

namespace Koharu

/-- `USER_STACK_TOP`. -/
def userStackTop : Addr := 0x7ffffffff000#64

/-- `struct trapframe`, as far as the system calls use it. -/
structure Trapframe where
  rip : BitVec 64
  rsp : BitVec 64
  rflags : BitVec 64
  rdi : BitVec 64
  rsi : BitVec 64
  deriving DecidableEq

/-- The rest of a system call outside of IPC that has given up the CPU. -/
inductive Kont
  /-- It returns. -/
  | returns (value : BitVec 64)
  /-- `TC_DESTROY` after `sched_exit`: it destroys the thread, and returns. -/
  | destroys (target : BitVec 64)
  deriving DecidableEq

/-- The kernel. -/
structure System (σ : Type) where
  /-- The states of threads and the current one are not looked at here. -/
  kernel : Kernel σ
  sched : Sched
  /-- Nor are they here. -/
  ipc : IpcState
  futex : Futex
  /-- `tf` of every thread. -/
  tf : Tid → Trapframe
  /-- What is on the kernel stack of a thread that is not back in user mode. -/
  kont : Tid → Option Kont
  /-- What `kputc` has printed. -/
  output : List (BitVec 8)

/-- What a system call gets from the kernel heap, and how many iterations its loops may take. -/
structure Env where
  fuel : ℕ
  alloc : Kernel.Alloc
  /-- Whether there is memory for a `struct grant_entry`. -/
  kmalloc : Bool
  /-- The address of the new `struct futex_waitq`, or `0`. -/
  waitq : Addr

/-- What a system call relies on. The addresses are those its arguments name. -/
inductive Note
  /-- From here on, `n` bytes at `va` are loaded without another check. -/
  | load (va : Addr) (n : ℕ)
  /-- From here on, `n` bytes at `va` are stored to without another check. -/
  | store (va : Addr) (n : ℕ)
  /-- The address is used as that of a pmap. -/
  | space (pmap : Addr)
  /-- The address is found not to be mapped. -/
  | refused (va : Addr)
  /-- `sched_enqueue` is called for a thread, which is in a run queue or not. -/
  | enqueue (t : Tid) (queued : Bool)
  deriving DecidableEq

/-- How a stretch of a system call ends. -/
inductive Ending (σ : Type)
  /-- It returns to its caller, with the words `ret->extra` if it has set them. -/
  | returned (value : BitVec 64) (extra : Option Words) (s : System σ)
  /-- Another thread runs. -/
  | switched (s : System σ)
  /-- There is none, and the CPU halts. -/
  | halted

/-- The state in which the system goes on. -/
def Ending.next {σ : Type} : Ending σ → Option (System σ)
  | .returned _ _ s | .switched s => some s
  | .halted => none

namespace Kernel

variable {σ : Type}

/-- A byte of memory. The pages of the kernel's own data are there as well, but what the kernel
keeps in them is not. -/
def loadByte (s : Kernel σ) (phys : Addr) : BitVec 8 :=
  (s.pm.mem (pageOf phys) ((phys >>> 3).setWidth 9) >>> (8 * (phys.toNat % 8))).setWidth 8

/-- `get_user_u64`, which does not look at the address either. -/
def getUserU64 (s : Kernel σ) (src : Addr) : Option (BitVec 64) := do
  let bytes ← (List.range 8).mapM fun k =>
    mmuTranslate s.pm.mem s.cr3 (src + BitVec.ofNat 64 k)
  return bytes.foldr (fun phys val => val <<< 8 ||| (s.loadByte phys).setWidth 64) 0

/-- Bytes of one page, by way of the direct map. -/
def loadBytes (s : Kernel σ) (phys : Addr) (n : ℕ) : List (BitVec 8) :=
  (List.range n).map fun i => s.loadByte (phys + BitVec.ofNat 64 i)

/-- An aligned word of 32 bits, by way of the direct map. -/
def loadWord (s : Kernel σ) (phys : Addr) : BitVec 32 :=
  (s.pm.mem (pageOf phys) ((phys >>> 3).setWidth 9) >>> (8 * (phys.toNat % 8))).setWidth 32

/-- `thread_destroy`. -/
def threadDestroy (s : Kernel σ) (tid : BitVec 64) : Kernel σ :=
  { s with registered := Function.update s.registered tid false }

end Kernel

namespace System

open Traced

variable {σ : Type}

/-! ### Views of the parts

Each part of the kernel has its own model of a thread. The system keeps one scheduler state and
fills it in where a part is used. -/

/-- The kernel with the states of threads filled in. -/
def kernelView (s : System σ) (cur : Tid) : Kernel σ :=
  { s.kernel with
    current := BitVec.ofNat 64 cur
    thread := fun t => { s.kernel.thread t with state := (s.sched.thread t.toNat).state } }

/-- The endpoints with the states of threads filled in. -/
def ipcView (s : System σ) (cur : Tid) : IpcState :=
  { s.ipc with
    current := cur
    registered := fun t => t < 2 ^ 64 && s.kernel.registered (BitVec.ofNat 64 t)
    thread := fun t => { s.ipc.thread t with state := (s.sched.thread t).state } }

/-- The address of the pmap of a thread. -/
def pmapOf (s : System σ) (t : Tid) : Addr := (s.kernel.thread (BitVec.ofNat 64 t)).pmap

/-- A call that fails. -/
def fails (s : System σ) : Ending σ := .returned (-1) none s

/-- A call that returns a value and has changed the kernel. -/
def done (s : System σ) (value : BitVec 64) (kernel : Kernel σ) : Ending σ :=
  .returned value none { s with kernel }

/-! ### Scheduling

The functions of `sched.c` on the whole system. A switch also loads the address space of the next
thread. -/

/-- `sched_enqueue`. -/
def schedEnqueue (s : System σ) (t : Tid) : Traced Note (System σ) := do
  tell [.enqueue t (s.sched.runq.home t).isSome]
  let sched ← lift (s.sched.schedEnqueue t)
  return { s with sched }

/-- `sched_wakeup`. -/
def schedWakeup (s : System σ) (t : Tid) : Traced Note (System σ) := s.schedEnqueue t

/-- `switch_to` the thread that the scheduler has made the current one: its address space becomes
active. -/
def switchTo (s : System σ) (sched : Sched) : Option (System σ) := do
  let next ← sched.current
  let p ← s.kernel.pmaps (s.pmapOf next)
  return { s with sched, kernel := { s.kernel with cr3 := p.rootPhys } }

/-- `sched_block` and `sched_exit`, where `out` is what becomes of the scheduler. -/
def leave (s : System σ) (out : Option Sched.Outcome) : Traced Note (Ending σ) := do
  match ← lift out with
  | .halts => return .halted
  | .runs sched =>
      let s ← lift (s.switchTo sched)
      return .switched s

/-- Leave something to do on the kernel stack. -/
def setKont (s : System σ) (t : Tid) (kont : Kont) : System σ :=
  { s with kont := Function.update s.kont t (some kont) }

/-- `SYS_THREAD_SWITCH`, that is, `sched_yield`. -/
def sysThreadSwitch (s : System σ) (cur : Tid) : Traced Note (Ending σ) := do
  let sched ← lift s.sched.schedYield
  if sched.current = some cur then return .returned 0 none { s with sched }
  else
    let s ← lift ((s.setKont cur (.returns 0)).switchTo sched)
    return .switched s

/-- `sched_tick`. -/
def schedTick (s : System σ) : Option (System σ) := do
  let sched ← s.sched.schedTick
  if sched.current = s.sched.current then return { s with sched } else s.switchTo sched

/-! ### `SYS_IPC`

The model of `ipc.c` says what happens to the endpoints. Who is woken goes to the scheduler. -/

/-- The sender that `ipc_accept` takes off the current thread's queue, if it is called. -/
def sender (view : IpcState) : List Tid :=
  match view.queues.queue view.current with
  | .ipcList snd :: _ => [snd]
  | _ => []

/-- The threads that an operation may wake, in the order in which it does. -/
def candidates (view : IpcState) : IpcState.Op → List Tid
  | .send target _ | .call target _ => [target]
  | .recv => sender view
  | .replyRecv _ => view.replyDest.toList ++ sender view
  | .resume => []

/-- The threads that an operation has woken. -/
def woken (view : IpcState) (op : IpcState.Op) (ipc : IpcState) : List Tid :=
  (candidates view op).dedup.filter fun t =>
    (view.thread t).state = .blocked ∧ (ipc.thread t).state = .ready

/-- What an operation returns, and the words of `ret->extra`. -/
def answer : List Event → BitVec 64 × Option Words
  | [] => (0, none)
  | .received _ sender _ words :: _ | .returned _ _ sender words :: _ =>
      (BitVec.ofNat 64 sender, some words)
  | _ :: events => answer events

/-- An operation of `kernel/task/ipc.c`, with the calls of the scheduler in it. -/
def ipcExec (s : System σ) (cur : Tid) (op : IpcState.Op) : Traced Note (Ending σ) := do
  let (ipc, events) ← lift ((s.ipcView cur).exec op)
  let s ← (woken (s.ipcView cur) op ipc).foldlM schedWakeup { s with ipc }
  if (ipc.thread cur).state = .blocked then s.leave s.sched.schedBlock
  else return .returned (answer events).1 (answer events).2 s

/-- `sys_ipc`. -/
def sysIpc (s : System σ) (cur : Tid) (packed a2 a3 a4 a5 a6 : BitVec 64) :
    Traced Note (Ending σ) :=
  let op := packed >>> 32
  let tid := packed &&& 0xFFFFFFFF#64
  let words : Words := #v[a2, a3, a4, a5, a6]
  if op = 0 then
    if !s.kernel.registered tid then return s.fails
    else s.ipcExec cur (.send tid.toNat words)
  else if op = 1 then s.ipcExec cur .recv
  else if op = 2 then
    if !s.kernel.registered tid then return s.fails
    else s.ipcExec cur (.call tid.toNat words)
  else if op = 3 then s.ipcExec cur (.replyRecv words)
  else return s.fails

/-! ### `SYS_EXCHANGE_REGISTERS`

The registers are passed through pointers to the memory of the caller. -/

/-- The pointers that are not `NULL`. -/
def pointers (l : List Addr) : List Addr := l.filter (· ≠ 0)

/-- Store a register, unless the pointer is `NULL`. -/
def putReg (k : Kernel σ) (ptr : Addr) (val : BitVec 64) : Option (Kernel σ) :=
  if ptr = 0 then some k else k.putUserU64 ptr val

/-- Load a register, unless the pointer is `NULL`. -/
def getReg (k : Kernel σ) (ptr : Addr) (old : BitVec 64) : Option (BitVec 64) :=
  if ptr = 0 then some old else k.getUserU64 ptr

/-- `EXR_READ`. -/
def exrRead (s : System σ) (target : Tid) (ip sp flags : Addr) : Traced Note (Ending σ) := do
  tell ((pointers [ip, sp, flags]).map (.store · 8))
  let k ← lift (putReg s.kernel ip (s.tf target).rip)
  let k ← lift (putReg k sp (s.tf target).rsp)
  let k ← lift (putReg k flags (s.tf target).rflags)
  return s.done 0 k

/-- Replace the registers of a thread. -/
def setTf (s : System σ) (t : Tid) (tf : Trapframe) : System σ :=
  { s with tf := Function.update s.tf t tf }

/-- `EXR_WRITE`. -/
def exrWrite (s : System σ) (target : Tid) (ip sp flags : Addr) : Traced Note (Ending σ) := do
  tell ((pointers [ip, sp, flags]).map (.load · 8))
  let rip ← lift (getReg s.kernel ip (s.tf target).rip)
  let rsp ← lift (getReg s.kernel sp (s.tf target).rsp)
  let rflags ← lift (getReg s.kernel flags (s.tf target).rflags)
  return .returned 0 none (s.setTf target { s.tf target with rip, rsp, rflags })

/-- `EXR_ACTIVATE`. -/
def exrActivate (s : System σ) (target : Tid) : Traced Note (Ending σ) :=
  if (s.sched.thread target).state ≠ .created then return s.fails
  else do
    let s ← s.schedEnqueue target
    return .returned 0 none s

/-- `EXR_DEACTIVATE`. -/
def exrDeactivate (s : System σ) (target : Tid) : Traced Note (Ending σ) :=
  if (s.sched.thread target).state = .running then return s.fails
  else do
    let sched ← lift (if (s.sched.thread target).state = .ready then s.sched.schedDequeue target
      else some s.sched)
    return .returned 0 none
      { s with sched := sched.modify target fun th => { th with state := .created } }

/-- `sys_exchange_registers`. -/
def sysExchangeRegisters (s : System σ) (targetTid ip sp flags op : BitVec 64) :
    Traced Note (Ending σ) :=
  let target := targetTid.toNat
  if !s.kernel.registered targetTid then return s.fails
  else if op = 0 then s.exrRead target ip sp flags
  else if op = 1 then s.exrWrite target ip sp flags
  else if op = 2 then s.exrActivate target
  else if op = 3 then s.exrDeactivate target
  else if op = 4 then
    return .returned 0 none (s.setTf target { s.tf target with rip := ip, rdi := sp, rsi := flags })
  else return s.fails

/-! ### `SYS_SCHEDULE`, `SYS_WRITE` and `SYS_FUTEX`

The smaller calls, in the order of `syscall.c`. -/

/-- `SYS_SCHEDULE`. -/
def sysSchedule (s : System σ) (a1 a2 a3 : BitVec 64) : Ending σ :=
  if !s.kernel.registered a1 then s.fails
  else .returned 0 none
    { s with
      sched := s.sched.modify a1.toNat fun th =>
        { th with
          currentLevel := if a2 ≠ -1 then a2.setWidth 32 else th.currentLevel
          timeQuantumLeft := if a3 ≠ -1 then a3.setWidth 32 else th.timeQuantumLeft } }

/-- The bytes from an address to the end of its page, but at most `left`. -/
def chunk (va : Addr) (left : BitVec 64) : BitVec 64 :=
  let room := pageSize - (va &&& 0xFFF#64)
  if left < room then left else room

/-- The loop of `SYS_WRITE`, which prints at least one byte in each iteration. -/
def writeLoop (cur : Tid) (a2 a3 : BitVec 64) :
    ℕ → BitVec 64 → System σ → Traced Note (Ending σ)
  | 0, _, _ => lift none
  | fuel + 1, off, s =>
      if off < a3 then do
        let va := a2 + off
        let phys ← lift (s.kernel.pmapExtract (s.pmapOf cur) va)
        if phys = 0 then do
          tell [.refused va]
          return s.fails
        else do
          let n := chunk va (a3 - off)
          tell [.load va n.toNat]
          -- the bytes go from the direct map of the frame to the console
          let bytes := s.kernel.loadBytes (Kernel.pageOf phys + (va &&& 0xFFF#64)) n.toNat
          writeLoop cur a2 a3 fuel (off + n) { s with output := s.output ++ bytes }
      else return .returned a3 none s

/-- `SYS_WRITE`. -/
def sysWrite (s : System σ) (cur : Tid) (a1 a2 a3 : BitVec 64) : Traced Note (Ending σ) :=
  if a1 ≠ 1 ∧ a1 ≠ 2 then return s.fails
  else if a3 = 0 then return .returned 0 none s
  else writeLoop cur a2 a3 (a3.toNat + 1) 0 s

/-- `futex_wait`. -/
def futexWait (env : Env) (s : System σ) (cur : Tid) (uaddr : Addr) (expected : BitVec 32) :
    Traced Note (Ending σ) :=
  if uaddr &&& 0x3#64 ≠ 0 then return .returned (-22) none s
  else do
    let phys ← lift (s.kernel.pmapExtract (s.pmapOf cur) uaddr)
    if phys = 0 then do
      tell [.refused uaddr]
      return .returned (-14) none s
    else do
      tell [.load uaddr 4]
      -- a value that has changed already is not waited for
      if s.kernel.loadWord phys ≠ expected then return .returned (-11) none s
      else
        match ← lift (s.futex.join env.waitq phys cur) with
        | none => return .returned (-11) none s
        | some futex =>
            let s := { s with futex }.setKont cur (.returns 0)
            s.leave s.sched.schedBlock

/-- The loop of `futex_wake`, which is done after as many iterations as there are waiters. -/
def wakeLoop (wq : Addr) (all : Bool) :
    ℕ → BitVec 32 → System σ → Traced Note (BitVec 32 × System σ)
  | 0, woken, s => return (woken, s)
  | fuel + 1, woken, s =>
      match s.futex.waiters.queue wq with
      | [] => return (woken, s)
      | t :: _ => do
          let waiters ← lift (s.futex.waiters.unlink t)
          let s ← schedWakeup { s with futex := { s.futex with waiters } } t
          if all then wakeLoop wq all fuel (woken + 1) s else return (woken + 1, s)

/-- `futex_wake`. -/
def futexWake (s : System σ) (cur : Tid) (uaddr : Addr) (all : BitVec 32) :
    Traced Note (Ending σ) :=
  if uaddr &&& 0x3#64 ≠ 0 then return .returned (-22) none s
  else do
    let phys ← lift (s.kernel.pmapExtract (s.pmapOf cur) uaddr)
    if phys = 0 then do
      tell [.refused uaddr]
      return .returned (-14) none s
    else
      match s.futex.futexFind phys with
      | none => return .returned 0 none s
      | some wq => do
          let (woken, s) ← wakeLoop wq (all ≠ 0) (s.futex.waiters.queue wq).length 0 s
          let futex ← lift (s.futex.release wq)
          return .returned (woken.signExtend 64) none { s with futex }

/-- `SYS_FUTEX`. -/
def sysFutex (env : Env) (s : System σ) (cur : Tid) (a1 a2 a3 : BitVec 64) :
    Traced Note (Ending σ) :=
  if a2 = 0 then s.futexWait env cur a1 (a3.setWidth 32)
  else if a2 = 1 then s.futexWake cur a1 (a3.setWidth 32)
  else return s.fails

/-! ### `SYS_THREAD_CONTROL`

Creating and destroying threads, and binding them to an address space. -/

/-- `g_next_tid` has come to its last value. Threads are not freed, so that there is no memory for
as many of them, and what happens then is beyond this model. -/
def lastTid (s : System σ) : Bool := s.kernel.nextTid = -1

/-- The parts of a new `struct thread` outside of the model of address spaces. -/
def initThread (s : System σ) (tid : BitVec 64) (utcb : Addr) : System σ :=
  { s with
    tf := Function.update s.tf tid.toNat
      { rip := 0, rsp := userStackTop, rflags := 0x202, rdi := 0, rsi := utcb }
    kont := Function.update s.kont tid.toNat none
    sched := s.sched.modify tid.toNat fun _ =>
      { state := .created, currentLevel := 0, timeQuantumLeft := 0, totalCpuTime := 0 }
    ipc := s.ipc.modify tid.toNat fun _ =>
      { state := .created, epState := .inactive, ipcMsg := Vector.replicate _ 0, ipcSender := 0,
        ipcPrevSeq := 0, ipcCallSeq := 0, frame := none } }

/-- `TC_DESTROY`. -/
def tcDestroy (s : System σ) (cur : Tid) (a2 : BitVec 64) : Traced Note (Ending σ) :=
  match (s.kernelView cur).tcDestroy a2 with
  | .returned value kernel => return s.done value kernel
  | .exited _ => (s.setKont cur (.destroys a2)).leave s.sched.schedExit

/-- `TC_BIND_SPACE`. -/
def tcBindSpace (s : System σ) (cur : Tid) (a2 a3 : BitVec 64) : Traced Note (Ending σ) :=
  if !s.kernel.registered a2 then return s.fails
  else if (s.kernel.thread a2).pagerTid ≠ BitVec.ofNat 64 cur then return s.fails
  else if a3 = 0 then return s.fails
  else do
    tell [.space a3]
    return s.done 0 { s.kernel with
      thread := Function.update s.kernel.thread a2 { s.kernel.thread a2 with pmap := a3 } }

variable [PageAllocator σ]

/-- `TC_CREATE`. -/
def tcCreate (env : Env) (s : System σ) (a3 a4 a5 : BitVec 64) : Traced Note (Ending σ) := do
  let (pmap, k) ← lift (if a3 ≠ 0 then some (a3, s.kernel)
    else s.kernel.pmapCreate env.alloc.pmapPtr)
  if pmap = 0 then return s.done (-1) k
  else
    match k.threadCreateChild env.alloc pmap with
    | (none, k) => do
        let k ← lift (if a3 = 0 then k.pmapDestroy pmap else some k)
        if s.lastTid then lift none else return s.done (-1) k
    | (some tid, k) => do
        tell ((pointers [a3]).map .space ++ (pointers [a5]).map (.store · 16))
        let k ← lift (k.setUtcb tid a4 a5)
        if s.lastTid then lift none
        else return .returned tid none ({ s with kernel := k }.initThread tid a5)

/-- `sys_thread_control`. -/
def sysThreadControl (env : Env) (s : System σ) (cur : Tid) (op a2 a3 a4 a5 : BitVec 64) :
    Traced Note (Ending σ) :=
  if op = 0 then s.tcCreate env a3 a4 a5
  else if op = 1 then s.tcDestroy cur a2
  else if op = 2 then s.tcBindSpace cur a2 a3
  else return s.fails

/-! ### `do_syscall`

The switch over the number of the call. -/

/-- The number and the arguments of a system call. -/
structure Call where
  num : BitVec 64
  a1 : BitVec 64
  a2 : BitVec 64
  a3 : BitVec 64
  a4 : BitVec 64
  a5 : BitVec 64
  a6 : BitVec 64

/-- A call of the model of address spaces. -/
def ofKernel (s : System σ) (out : Option (BitVec 64 × Kernel σ)) : Traced Note (Ending σ) := do
  let (value, kernel) ← lift out
  return s.done value kernel

/-- `do_syscall`. -/
def doSyscall (env : Env) (s : System σ) (cur : Tid) (c : Call) : Traced Note (Ending σ) :=
  match c.num.toNat with
  | 0 => s.sysThreadControl env cur c.a1 c.a2 c.a3 c.a4 c.a5
  | 1 => s.sysExchangeRegisters c.a1 c.a2 c.a3 c.a4 c.a5
  | 2 => s.sysIpc cur c.a1 c.a2 c.a3 c.a4 c.a5 c.a6
  | 3 => s.ofKernel ((s.kernelView cur).sysMap env.fuel c.a1 c.a2 c.a3 c.a4 c.a5)
  | 4 => s.ofKernel ((s.kernelView cur).sysGrant env.kmalloc c.a1 c.a2 c.a3)
  | 5 => s.ofKernel ((s.kernelView cur).sysUnmap env.fuel c.a1 c.a2 c.a3)
  | 6 => return s.sysSchedule c.a1 c.a2 c.a3
  | 7 => s.sysThreadSwitch cur
  | 8 => s.sysWrite cur c.a1 c.a2 c.a3
  | 9 => s.sysFutex env cur c.a1 c.a2 c.a3
  | 10 | 11 | 12 | 13 => return s.fails
  | _ => return .returned 0 none s

/-- What a thread does that runs again after it has given up the CPU in a system call. -/
def resume (s : System σ) (cur : Tid) : Traced Note (Ending σ) :=
  match s.kont cur with
  | some (.returns value) =>
      return .returned value none { s with kont := Function.update s.kont cur none }
  | some (.destroys target) =>
      return .returned 0 none
        { s with kont := Function.update s.kont cur none, kernel := s.kernel.threadDestroy target }
  | none => s.ipcExec cur .resume

end System

end Koharu
