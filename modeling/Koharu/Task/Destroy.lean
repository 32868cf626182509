import Koharu.Task.SyscallReturn
import Koharu.Task.SystemInvariant

/-!
# Destroying a thread

`TC_DESTROY` takes the target out of the registry, and does nothing else to it. For a target that
may run it calls `sched_exit`, which ends the caller.

* `Removed`: what destroying a thread is for. The thread is gone from the registry and from all
  queues, and the other threads are as before;
* `Idle`: the thread is not one that may run, and is in no queue;
* `tcDestroy_removes_iff`: the call returns and does what it is for if and only if the target is
  idle;
* `idle_of_inv`: as long as the contract of the scheduler is kept, these are the threads that are
  neither ready nor blocked.
-/

namespace Koharu

/-- The thread that a node of an endpoint's queue is in. -/
def Node.thread : Node → Tid
  | .ipcList t => t
  | .ipcWaitList t => t

namespace System

variable {σ : Type}

/-- `s'` is `s` without the thread `tid`. -/
structure Removed (s s' : System σ) (tid : BitVec 64) : Prop where
  /-- `thread_lookup` does not find it. -/
  gone : s'.kernel.registered tid = false
  registry : ∀ u, u ≠ tid → s'.kernel.registered u = s.kernel.registered u
  runq : s.sched.runq.Without (· = tid.toNat) s'.sched.runq
  ipcQueues : s.ipc.queues.Without (·.thread = tid.toNat) s'.ipc.queues
  waiters : s.futex.waiters.Without (· = tid.toNat) s'.futex.waiters
  sched : ∀ u, u ≠ tid.toNat → s'.sched.thread u = s.sched.thread u
  ipc : ∀ u, u ≠ tid.toNat → s'.ipc.thread u = s.ipc.thread u
  current : s'.sched.current = s.sched.current

/-- The thread may not run, and is in no queue. -/
structure Idle (s : System σ) (t : Tid) : Prop where
  state : (s.sched.thread t).state ≠ .ready ∧ (s.sched.thread t).state ≠ .running
  runq : s.sched.runq.home t = none
  ipcQueues : ∀ n : Node, n.thread = t → s.ipc.queues.home n = none
  waiters : s.futex.waiters.home t = none

variable {s : System σ} {cur t : Tid} {tid : BitVec 64}

/-- Nothing but the registry has to change for an idle thread. -/
theorem removed_update_iff (hstate : (s.sched.thread tid.toNat).state ≠ .ready ∧
    (s.sched.thread tid.toNat).state ≠ .running) {s' : System σ}
    (hregistered : s'.kernel.registered = Function.update s.kernel.registered tid false)
    (hsched : s'.sched = s.sched) (hipc : s'.ipc = s.ipc) (hfutex : s'.futex = s.futex) :
    Removed s s' tid ↔ s.Idle tid.toNat := by
  -- the queues are left as they are, so the thread is gone if and only if it was in none of them
  constructor
  · intro h
    have hrunq := h.runq
    have hqueues := h.ipcQueues
    have hwaiters := h.waiters
    rw [hsched] at hrunq
    rw [hipc] at hqueues
    rw [hfutex] at hwaiters
    exact ⟨hstate, ListStore.without_self_iff.mp hrunq _ rfl,
      fun n hn => ListStore.without_self_iff.mp hqueues n hn,
      ListStore.without_self_iff.mp hwaiters _ rfl⟩
  · intro h
    refine ⟨?_, fun u hu => ?_, ?_, ?_, ?_, fun u _ => by rw [hsched], fun u _ => by rw [hipc],
      by rw [hsched]⟩
    · rw [hregistered, Function.update_self]
    · rw [hregistered, Function.update_of_ne hu]
    · rw [hsched]
      exact ListStore.without_self_iff.mpr fun n hn => hn ▸ h.runq
    · rw [hipc]
      exact ListStore.without_self_iff.mpr h.ipcQueues
    · rw [hfutex]
      exact ListStore.without_self_iff.mpr fun n hn => hn ▸ h.waiters

/-- The queues of endpoints that a thread can be in. -/
theorem ipcQueues_of_detached (h : s.ipc.Detached t) (n : Node) (hn : n.thread = t) :
    s.ipc.queues.home n = none := by
  cases n with
  | ipcList u =>
      obtain rfl : u = t := hn
      exact h.list
  | ipcWaitList u =>
      obtain rfl : u = t := hn
      exact h.wait

/-- As long as the contract of the scheduler is kept, a thread other than the current one is idle
unless it is ready or waits for something. -/
theorem idle_of_inv (h : s.Inv) (hcur : s.sched.current = some cur) (hne : t ≠ cur)
    (hready : (s.sched.thread t).state ≠ .ready) (hblocked : (s.sched.thread t).state ≠ .blocked) :
    s.Idle t := by
  have hrunning : (s.sched.thread t).state ≠ .running := by
    intro hstate
    have hcurrent := (h.sched.runs t).mp hstate
    rw [hcur] at hcurrent
    exact hne (Option.some.inj hcurrent).symm
  obtain ⟨hdetached, hwaiters⟩ := not_or.mp (h.tied.not_waits hblocked)
  rw [not_not] at hdetached hwaiters
  exact ⟨⟨hready, hrunning⟩, h.sched.queued.home hready, ipcQueues_of_detached hdetached, hwaiters⟩

variable [PageAllocator σ]

/-- `TC_DESTROY` by the pager of a thread returns, with exactly this thread removed, if and only if
the thread is idle. -/
theorem tcDestroy_removes_iff (env : Env) (a3 a4 a5 : BitVec 64)
    (hregistered : s.kernel.registered tid = true)
    (hpager : (s.kernel.thread tid).pagerTid = BitVec.ofNat 64 cur) :
    (∃ s', (s.sysThreadControl env cur 1 tid a3 a4 a5).val = some (.returned 0 none s') ∧
      Removed s s' tid) ↔ s.Idle tid.toNat := by
  have hcall : s.sysThreadControl env cur 1 tid a3 a4 a5 = s.tcDestroy cur tid := rfl
  have hregistered' : (!(s.kernelView cur).registered tid) = false := by
    show (!s.kernel.registered tid) = false
    rw [hregistered]
    rfl
  have hpager' : ¬ ((s.kernelView cur).thread tid).pagerTid ≠ (s.kernelView cur).current :=
    not_not.mpr hpager
  rw [hcall, tcDestroy, Kernel.tcDestroy, hregistered', if_neg Bool.false_ne_true, if_neg hpager']
  by_cases hruns : (s.sched.thread tid.toNat).state = .ready ∨
      (s.sched.thread tid.toNat).state = .running
  · -- The caller goes to `sched_exit`.
    have hruns' : ((s.kernelView cur).thread tid).state = .ready ∨
        ((s.kernelView cur).thread tid).state = .running := hruns
    rw [if_pos hruns']
    refine iff_of_false ?_ fun hidle => ?_
    · rintro ⟨s', hs', -⟩
      exact leave_not_returned hs'
    · rcases hruns with hready | hrunning
      · exact hidle.state.1 hready
      · exact hidle.state.2 hrunning
  · have hruns' : ¬ (((s.kernelView cur).thread tid).state = .ready ∨
        ((s.kernelView cur).thread tid).state = .running) := hruns
    rw [if_neg hruns']
    have hiff : Removed s { s with kernel := { s.kernelView cur with
        registered := Function.update s.kernel.registered tid false } } tid ↔ s.Idle tid.toNat :=
      removed_update_iff (not_or.mp hruns) rfl rfl rfl rfl
    constructor
    · rintro ⟨s', hs', hremoved⟩
      cases hs'
      exact hiff.mp hremoved
    · intro hidle
      exact ⟨_, rfl, hiff.mpr hidle⟩

/-- Thread 1 runs, and no other thread has been activated. -/
def onlyFirst : System BumpAllocator :=
  { twoThreads with
    sched :=
      { thread := fun t =>
          { state := if t = 1 then .running else .created
            currentLevel := 0
            timeQuantumLeft := 1
            totalCpuTime := 0 }
        runq := ListStore.empty
        current := some 1
        ticks := 0 } }

/-- Thread 1 destroys thread 2 before it has been activated. -/
theorem tcDestroy_removes_iff_created : ∃ s',
    (onlyFirst.sysThreadControl noMemory 1 1 2 0 0 0).val = some (.returned 0 none s') ∧
      Removed onlyFirst s' 2 :=
  (tcDestroy_removes_iff noMemory 0 0 0 rfl rfl).mpr
    ⟨⟨by decide, by decide⟩, rfl, fun _ _ => rfl, rfl⟩

/-- Thread 1 is the pager of thread 2, which is ready. Destroying it ends thread 1. -/
theorem tcDestroy_ends_caller : ∃ s₁ s₂, Run (fun _ _ _ => True) twoThreads s₁ ∧
    s₁.sched.current = some 1 ∧ s₁.kernel.registered 2 = true ∧
    (s₁.kernel.thread 2).pagerTid = 1 ∧
    (s₁.sysThreadControl noMemory 1 1 2 0 0 0).val = some (.switched s₂) ∧
    (s₂.sched.thread 1).state = .terminated ∧ s₂.kernel.registered 2 = true := by
  have hcheck : ((twoThreads.step 2 (.syscall noMemory switchCall)).val.any fun e =>
      e.next.any fun s₁ => s₁.sched.current = some 1 ∧ s₁.kernel.registered 2 = true ∧
        (s₁.kernel.thread 2).pagerTid = 1 ∧
        ((s₁.sysThreadControl noMemory 1 1 2 0 0 0).val.any fun e' => e'.switched?.any fun s₂ =>
          (s₂.sched.thread 1).state = .terminated ∧ s₂.kernel.registered 2 = true) = true) =
      true := by
    decide +kernel
  obtain ⟨e, he, hcheck⟩ := (Option.any_eq_true _ _).mp hcheck
  obtain ⟨s₁, hs₁, hcheck⟩ := (Option.any_eq_true _ _).mp hcheck
  obtain ⟨hcurrent, hregistered, hpager, hcheck⟩ := of_decide_eq_true hcheck
  obtain ⟨e', he', hcheck⟩ := (Option.any_eq_true _ _).mp hcheck
  obtain ⟨s₂, hs₂, hcheck⟩ := (Option.any_eq_true _ _).mp hcheck
  obtain ⟨hstate, hkept⟩ := of_decide_eq_true hcheck
  -- thread 1 is waiting in its run queue when thread 2 gives up the CPU
  have henabled : twoThreads.Enabled 2 (.syscall noMemory switchCall) := ⟨rfl, rfl⟩
  refine ⟨s₁, s₂, .step .init rfl henabled trivial (.done he hs₁), hcurrent, hregistered,
    hpager, ?_, hstate, hkept⟩
  cases e' with
  | switched s => rw [he', Option.some.inj hs₂]
  | returned _ _ _ | halted => cases hs₂

end System

end Koharu
