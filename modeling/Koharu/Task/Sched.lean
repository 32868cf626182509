import Koharu.Task.Ipc
import Mathlib.Data.Fin.VecNotation

/-!
# The scheduler

`kernel/task/sched.c`, a multi-level feedback queue on one CPU: four run queues, of which the first
that is not empty is served. A thread that uses up its quantum goes down one level, and every
`BOOST_PERIOD` ticks all threads go back to the first.

The functions are partial. `none` stands for an index beyond the run queues, for linking a linked
node or unlinking an unlinked one, and for using `curcpu->current` when it is `NULL`.
-/

namespace Koharu

/-- `MLFQ_LEVELS`. -/
abbrev mlfqLevels : ℕ := 4

/-- `BOOST_PERIOD`. -/
def boostPeriod : BitVec 64 := 50

/-- A run queue. -/
abbrev Sched.Level := Fin mlfqLevels

/-- The first of them. -/
def Sched.top : Sched.Level := 0

/-- `QUANTUM_TICKS`. -/
def quantumTicks : Sched.Level → BitVec 32 := ![1, 2, 4, 8]

/-- `struct thread`, as far as the scheduler uses it. -/
structure SchedThread where
  state : ThreadState
  currentLevel : BitVec 32
  timeQuantumLeft : BitVec 32
  totalCpuTime : BitVec 64
  deriving DecidableEq

/-- The threads and the run queues of the CPU. -/
structure Sched where
  thread : Tid → SchedThread
  /-- `curcpu->runq`. -/
  runq : ListStore Sched.Level Tid
  /-- `curcpu->current`. -/
  current : Option Tid
  /-- `sched_ticks`. -/
  ticks : BitVec 64

namespace Sched

/-- Update one thread. -/
def modify (s : Sched) (t : Tid) (f : SchedThread → SchedThread) : Sched :=
  { s with thread := Function.update s.thread t (f (s.thread t)) }

/-- `current_level` as an index. -/
def levelOf (s : Sched) (t : Tid) : Option Level :=
  if h : (s.thread t).currentLevel.toNat < mlfqLevels then some ⟨_, h⟩ else none

/-- `list_add_tail(&t->sched_list, &curcpu->runq[level])`. -/
def pushBack (s : Sched) (t : Tid) (level : Level) : Option Sched := do
  let runq ← s.runq.pushBack t level
  return { s with runq }

/-- `list_del(&t->sched_list)`. -/
def unlink (s : Sched) (t : Tid) : Option Sched := do
  let runq ← s.runq.unlink t
  return { s with runq }

/-- What a boost does to a thread. -/
def toTop (th : SchedThread) : SchedThread :=
  { th with currentLevel := 0, timeQuantumLeft := quantumTicks 0 }

/-- The loop of `sched_boost` over one queue, which is empty after as many iterations as it has
threads. -/
def boostQueue (level : Level) : ℕ → Sched → Option Sched
  | 0, s => some s
  | fuel + 1, s =>
      match s.runq.queue level with
      | [] => some s
      | t :: _ => do
          let s ← s.unlink t
          let s ← (s.modify t toTop).pushBack t 0
          boostQueue level fuel s

/-- `sched_boost`. -/
def schedBoost (s : Sched) : Option Sched :=
  let s := match s.current with
    | some cur => s.modify cur toTop
    | none => s
  [1, 2, 3].foldlM (fun (s : Sched) level => boostQueue level (s.runq.queue level).length s) s

/-- The thread that `sched_pick` finds. -/
def nextThread (s : Sched) : Option Tid :=
  (List.finRange mlfqLevels).findSome? fun level => (s.runq.queue level).head?

/-- `sched_pick`. -/
def schedPick (s : Sched) : Option (Option Tid × Sched) :=
  match s.nextThread with
  | none => some (none, s)
  | some t => do
      let s ← s.unlink t
      return (some t, s)

/-- Run a thread: it is `curcpu->current`, and `THREAD_RUNNING`. -/
def run (s : Sched) (t : Tid) : Sched :=
  { s.modify t fun th => { th with state := .running } with current := some t }

/-- The first part of `sched_tick`, and `cur_exhausted`: account for the tick. -/
def chargeTick (s : Sched) : Option (Bool × Sched) :=
  match s.current with
  | none => some (false, s)
  | some cur =>
      if (s.thread cur).state = .running then
        let s := s.modify cur fun th =>
          { th with
            totalCpuTime := th.totalCpuTime + 1
            timeQuantumLeft := th.timeQuantumLeft - 1 }
        if (s.thread cur).timeQuantumLeft = 0 then do
          -- `MLFQ_LEVELS - 1`: the last level is not left
          let s := if (s.thread cur).currentLevel < 3 then
            s.modify cur fun th => { th with currentLevel := th.currentLevel + 1 } else s
          let level ← s.levelOf cur
          let s := s.modify cur fun th =>
            { th with timeQuantumLeft := quantumTicks level, state := .ready }
          let s ← s.pushBack cur level
          return (true, s)
        else return (false, s)
      else some (false, s)

/-- The second part of `sched_tick`: count it, and boost from time to time. -/
def countTick (s : Sched) : Option Sched :=
  let ticks := s.ticks
  let s := { s with ticks := ticks + 1 }
  if ticks % boostPeriod = boostPeriod - 1 then s.schedBoost else some s

/-- `sched_tick`. -/
def schedTick (s : Sched) : Option Sched := do
  let (curExhausted, s) ← s.chargeTick
  let s ← s.countTick
  if !curExhausted then return s
  match ← s.schedPick with
  | (none, s) => return s
  | (some next, s) => return s.run next

/-- `sched_yield`. -/
def schedYield (s : Sched) : Option Sched := do
  let cur ← s.current
  let level ← s.levelOf cur
  let s := s.modify cur fun th => { th with timeQuantumLeft := quantumTicks level, state := .ready }
  let s ← s.pushBack cur level
  match ← s.schedPick with
  | (none, s) => return s.run cur
  | (some next, s) => return s.run next

/-- How a function that gives up the CPU ends. -/
inductive Outcome
  /-- Another thread runs. -/
  | runs (s : Sched)
  /-- There is none. -/
  | halts

/-- The common body of `sched_block` and `sched_exit`. -/
def leave (s : Sched) (state : ThreadState) : Option Outcome := do
  let cur ← s.current
  let s := s.modify cur fun th => { th with state }
  match ← s.schedPick with
  | (none, _) => return .halts
  | (some next, s) => return .runs (s.run next)

/-- `sched_block`. -/
def schedBlock (s : Sched) : Option Outcome := s.leave .blocked

/-- `sched_exit`. -/
def schedExit (s : Sched) : Option Outcome := s.leave .terminated

/-- `sched_enqueue`. -/
def schedEnqueue (s : Sched) (t : Tid) : Option Sched :=
  (s.modify t fun th =>
    { th with currentLevel := 0, state := .ready, timeQuantumLeft := quantumTicks 0 }).pushBack t 0

/-- `sched_dequeue`. -/
def schedDequeue (s : Sched) (t : Tid) : Option Sched := s.unlink t

/-- `sched_wakeup`. -/
def schedWakeup (s : Sched) (t : Tid) : Option Sched := s.schedEnqueue t

/-- `sched_boot`. -/
def schedBoot (s : Sched) : Option Sched := do
  match ← s.schedPick with
  | (none, s) => return s
  | (some first, s) => return s.run first

/-! ### Runs

The states that calls reach, when each thread is in a state in which it may be handed to the
scheduler. -/

/-- A call of the scheduler. -/
inductive Op
  | tick
  | yield
  | block
  | exit
  | enqueue (t : Tid)
  | wakeup (t : Tid)
  | dequeue (t : Tid)

/-- Perform a call. A caller of `sched_dequeue` goes on to set the state of the thread. -/
def exec (s : Sched) : Op → Option Outcome
  | .tick => s.schedTick.map .runs
  | .yield => s.schedYield.map .runs
  | .block => s.schedBlock
  | .exit => s.schedExit
  | .enqueue t => (s.schedEnqueue t).map .runs
  | .wakeup t => (s.schedWakeup t).map .runs
  | .dequeue t => (s.schedDequeue t).map fun s =>
      .runs (s.modify t fun th => { th with state := .created })

/-- The states in which a thread may be handed to the scheduler. -/
def Allowed (s : Sched) : Op → Prop
  | .tick | .yield | .block | .exit => True
  | .enqueue t => (s.thread t).state = .created
  | .wakeup t => (s.thread t).state = .blocked
  | .dequeue t => (s.thread t).state = .ready

/-- The scheduler before `sched_boot`, after `sched_init`: threads have been created, and some of
them enqueued. -/
inductive BeforeBoot : Sched → Prop
  | init {s : Sched} (hthread : ∀ t, (s.thread t).state = .created ∧ (s.thread t).currentLevel = 0)
      (hrunq : s.runq = ListStore.empty) (hcurrent : s.current = none) : BeforeBoot s
  | enqueue {s s' : Sched} {t : Tid} (h : BeforeBoot s) (ht : (s.thread t).state = .created)
      (henqueue : s.schedEnqueue t = some s') : BeforeBoot s'

/-- The states reached from the one `sched_boot` leaves when it finds a thread. -/
inductive Run : Sched → Prop
  | boot {s s' : Sched} (h : BeforeBoot s) (hnext : s.nextThread ≠ none)
      (hboot : s.schedBoot = some s') : Run s'
  | exec {s s' : Sched} {op : Op} (h : Run s) (hop : s.Allowed op)
      (hexec : s.exec op = some (.runs s')) : Run s'

end Sched

end Koharu
