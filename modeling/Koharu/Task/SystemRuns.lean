import Koharu.Task.IpcAttached
import Koharu.Task.RunQueues
import Koharu.Task.System

/-!
# Runs of the system

A step of the system is a system call, the rest of one, or a tick of the timer. A run is any number
of steps, with programs in user mode in between.

The functions of `System` have no result where the kernel halts, and also in two cases in which it
goes on. `put_user_u64` does not look at its address, and may store into the kernel's own code or
data (`overwrites`). And what earlier calls have left may be such that the kernel follows a pointer
to something that is not there, or breaks a list: this cannot happen while the state is `Intact`.
The model does not say what becomes of the kernel then. `Steps` lets anything come of it.
-/

namespace Koharu

namespace Sched

/-- What the contract says of a thread that takes part in the scheduling. -/
def Bounded : Rule := fun th _ =>
  th.state = .ready ∨ th.state = .running →
    th.currentLevel.toNat < mlfqLevels ∧ th.timeQuantumLeft ≠ 0

end Sched

namespace Kernel

variable {σ : Type}

/-- The pmap pointers of threads are `NULL` or point to pmaps. -/
def Linked (s : Kernel σ) : Prop :=
  ∀ tid, (s.thread tid).pmap ≠ 0 → (s.pmaps (s.thread tid).pmap).isSome

end Kernel

namespace System

open Traced

variable {σ : Type}

/-! ### The data of the kernel

What the system calls keep, and the part of it that a store through a user pointer could overwrite.
-/

/-- Wait queues hold threads that are blocked, and there is nothing at the tids to come. -/
structure Tied (s : System σ) : Prop where
  attached : ∀ c, (s.ipcView c).Attached
  waiting : ∀ t, s.futex.waiters.home t ≠ none →
    (s.sched.thread t).state = .blocked ∧ s.ipc.Detached t
  unborn : ∀ t : Tid, s.kernel.nextTid.toNat ≤ t → (s.sched.thread t).state = .created ∧
    (s.ipc.thread t).epState = .inactive ∧
    (t < 2 ^ 64 → s.kernel.registered (BitVec.ofNat 64 t) = false)

/-- What all system calls keep. -/
structure Inv (s : System σ) : Prop where
  sched : s.sched.GoodFor Sched.Bounded
  tied : s.Tied

/-- The data of the kernel that the scheduler, message passing, futexes and address spaces rely
on. -/
structure Intact (s : System σ) : Prop where
  inv : s.Inv
  linked : s.kernel.Linked

/-! ### Steps

What can happen next, and where the current thread has to be for it. -/

/-- The current thread is in user mode. -/
def UserMode (s : System σ) (cur : Tid) : Prop :=
  (s.ipc.thread cur).frame = none ∧ s.kont cur = none

/-- What happens next. -/
inductive Act
  /-- The current thread makes a system call. -/
  | syscall (env : Env) (c : Call)
  /-- It goes on with the one it is in. -/
  | resume
  /-- The timer interrupts it. -/
  | tick

/-- Where the current thread has to be for that. A tick may come at any point between. -/
def Enabled (s : System σ) (cur : Tid) : Act → Prop
  | .syscall _ _ => s.UserMode cur
  | .resume => ¬ s.UserMode cur
  | .tick => True

/-- Whether storing a register overwrites the kernel's own code or data. -/
def putRegOverwrites (k : Kernel σ) (ptr : Addr) : Bool := ptr ≠ 0 && k.putUserOverwrites ptr

/-- Whether one of the stores of `EXR_READ` does, each in the state that the ones before it
leave. -/
def exrReadOverwrites (s : System σ) (target : Tid) (ip sp flags : Addr) : Bool :=
  putRegOverwrites s.kernel ip ||
    (putReg s.kernel ip (s.tf target).rip).any fun k => putRegOverwrites k sp ||
      (putReg k sp (s.tf target).rsp).any fun k => putRegOverwrites k flags

variable [PageAllocator σ]

/-- Whether one of the stores of `TC_CREATE` does. -/
def tcCreateOverwrites (env : Env) (s : System σ) (a3 a4 a5 : BitVec 64) : Bool :=
  (if a3 ≠ 0 then some (a3, s.kernel) else s.kernel.pmapCreate env.alloc.pmapPtr).any
    fun (pmap, k) =>
      pmap ≠ 0 &&
        match k.threadCreateChild env.alloc pmap with
        | (none, _) => false
        | (some tid, k) => k.setUtcbOverwrites tid a4 a5

/-- Whether a step overwrites the kernel's own code or data. `EXR_READ` and `TC_CREATE` are the
system calls that store through pointers they are given. -/
def overwrites (s : System σ) : Act → Bool
  | .syscall env c =>
      c.num = 0 && c.a1 = 0 && s.tcCreateOverwrites env c.a3 c.a4 c.a5 ||
        c.num = 1 && s.kernel.registered c.a1 && c.a5 = 0 &&
          s.exrReadOverwrites c.a1.toNat c.a2 c.a3 c.a4
  | .resume | .tick => false

/-- One step of the current thread, in the kernel. -/
def step (s : System σ) (cur : Tid) : Act → Traced Note (Ending σ)
  | .syscall env c => s.doSyscall env cur c
  | .resume => s.resume cur
  | .tick => do
      let s ← lift s.schedTick
      return .switched s

/-- What may come of a step. -/
inductive Steps (s : System σ) (cur : Tid) (act : Act) : System σ → Prop
  /-- The step has a result. -/
  | done {s' : System σ} {ending : Ending σ} (hstep : (s.step cur act).val = some ending)
      (hnext : ending.next = some s') : Steps s cur act s'
  /-- It overwrites the kernel's own code or data, and anything may come of it. -/
  | overwritten (s' : System σ) (hoverwrites : s.overwrites act = true) : Steps s cur act s'
  /-- It runs into data that is not intact, and anything may come of that, too. -/
  | strayed (s' : System σ) (hstep : (s.step cur act).val = none) (hintact : ¬ s.Intact) :
      Steps s cur act s'

/-- A step that spares the kernel's code and data, and has a result unless the state is intact, can
only do what its result says. -/
theorem Steps.result {s s' : System σ} {cur : Tid} {act : Act} (h : s.Steps cur act s')
    (hspares : s.overwrites act = false) (hintact : (s.step cur act).val = none → s.Intact) :
    ∃ ending, (s.step cur act).val = some ending ∧ ending.next = some s' := by
  cases h with
  | done hstep hnext => exact ⟨_, hstep, hnext⟩
  | overwritten hoverwrites =>
      rw [hspares] at hoverwrites
      cases hoverwrites
  | strayed hstep hnot => exact absurd (hintact hstep) hnot

/-! ### Runs

Runs go from the state that `sched_boot` leaves, with ticks at any point. -/

/-- The states reached from `s₀` by steps that satisfy `cond`. In between, the program in user mode
changes memory and the registers of its thread in any way. -/
inductive Run (cond : System σ → Tid → Act → Prop) (s₀ : System σ) : System σ → Prop
  | init : Run cond s₀ s₀
  | step {s s' : System σ} {cur : Tid} {act : Act} (hrun : Run cond s₀ s)
      (hcur : s.sched.current = some cur) (henabled : s.Enabled cur act) (hcond : cond s cur act)
      (hstep : s.Steps cur act s') : Run cond s₀ s'
  | user {s : System σ} {cur : Tid} (hrun : Run cond s₀ s) (hcur : s.sched.current = some cur)
      (mem : Addr → BitVec 9 → Entry) (tf : Trapframe) :
      Run cond s₀ { s.setTf cur tf with
        kernel := { s.kernel with pm := { s.kernel.pm with mem } } }

/-- The state that `sched_boot` leaves: threads have been created, and some of them enqueued, but
none has made a system call. -/
structure Booted (s : System σ) : Prop where
  sched : ∃ s₀, Sched.BeforeBoot s₀ ∧ s₀.nextThread ≠ none ∧ s₀.schedBoot = some s.sched
  ipc : s.ipc.queues = ListStore.empty ∧ ∀ t, (s.ipc.thread t).epState = .inactive ∧
    (s.ipc.thread t).frame = none
  futex : s.futex.waiters = ListStore.empty ∧ s.futex.buckets = ListStore.empty
  kont : ∀ t, s.kont t = none
  /-- There is nothing yet at the tids to come. -/
  unborn : ∀ t : Tid, s.kernel.nextTid.toNat ≤ t → (s.sched.thread t).state = .created ∧
    (t < 2 ^ 64 → s.kernel.registered (BitVec.ofNat 64 t) = false)

end System

end Koharu
