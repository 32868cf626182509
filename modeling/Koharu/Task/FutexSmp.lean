import Koharu.Lib.Machine
import Koharu.Task.FutexQueues

/-!
# Futexes on several CPUs

`futex_wait` compares the word before it takes the lock of the bucket, and blocks after it has given
the lock back. The machine of this file has these as steps of their own, so that the threads of
other CPUs can store to the word and wake its threads in between. Everything under a lock is one
step. What is compared or stored to is named by its physical address.

A wake that comes while a thread is in one of the two windows is lost on it:

* before the thread is on the queue, the wake does not find it;
* after that, it makes the thread ready, and `sched_block` makes it blocked again.

`futex_no_lost_wakeup` says that these are the only ways, and that each of them can lose a wakeup.
-/

namespace Koharu

/-- How far a thread has come in `futex_wait`. -/
inductive WaitPc
  | idle
  /-- The word had the value that it should have. -/
  | compared (phys : Addr)
  /-- The thread is on the queue of the word, and has given the lock back. -/
  | queued (phys : Addr)
  /-- It is in `sched_block`, and its CPU has gone on to another thread. -/
  | asleep (phys : Addr)
  deriving DecidableEq

/-- The word that the call is about. -/
def WaitPc.word : WaitPc → Option Addr
  | .idle => none
  | .compared phys | .queued phys | .asleep phys => some phys

/-- Threads on any number of CPUs. -/
structure FutexSmp where
  word : Addr → BitVec 32
  futex : Futex
  /-- `runq[0]` of each CPU. -/
  runq : ListStore ℕ Tid
  state : Tid → ThreadState
  pc : Tid → WaitPc
  /-- Whether the word has been changed since the call of the thread compared it. -/
  changed : Tid → Bool
  /-- Whether all threads have been woken after such a change. -/
  woken : Tid → Bool

/-- The steps. -/
inductive FutexStep
  /-- The thread compares the word. -/
  | compare (t : Tid) (phys : Addr) (expected : BitVec 32)
  /-- The part under the lock; `ptr` is what `kmalloc` returns for a new `struct futex_waitq`. -/
  | enqueue (t : Tid) (ptr : Addr)
  /-- `sched_block`. -/
  | block (t : Tid)
  /-- The CPU takes the next thread from its run queue, and its `futex_wait` returns. -/
  | pick (cpu : ℕ)
  | store (phys : Addr) (value : BitVec 32)
  /-- `futex_wake` of all threads. -/
  | wake (cpu : ℕ) (phys : Addr)

namespace FutexSmp

/-- Before any call. -/
def boot (word : Addr → BitVec 32) : FutexSmp where
  word := word
  futex := .init
  runq := ListStore.empty
  state _ := .running
  pc _ := .idle
  changed _ := false
  woken _ := false

/-- The loop of `futex_wake`. `sched_wakeup` uses the run queue of the CPU it runs on. -/
def wakeLoop (cpu : ℕ) (wq : Addr) : ℕ → FutexSmp → Option FutexSmp
  | 0, s => some s
  | left + 1, s =>
      match s.futex.waiters.queue wq with
      | [] => some s
      | t :: _ => do
          let waiters ← s.futex.waiters.unlink t
          let runq ← s.runq.pushBack t cpu
          wakeLoop cpu wq left { s with
            futex := { s.futex with waiters }
            runq
            state := Function.update s.state t .ready }

/-- `futex_wake` of all threads. -/
def futexWake (s : FutexSmp) (cpu : ℕ) (phys : Addr) : Option FutexSmp :=
  match s.futex.futexFind phys with
  | none => some s
  | some wq => do
      let s ← wakeLoop cpu wq (s.futex.waiters.queue wq).length s
      let futex ← s.futex.release wq
      return { s with futex }

/-- One step. -/
def step (s : FutexSmp) : FutexStep → Option FutexSmp
  | .compare t phys expected =>
      if s.pc t = .idle ∧ s.state t = .running then
        -- `-EAGAIN` when the value has changed already
        if s.word phys ≠ expected then some s
        else some { s with
          pc := Function.update s.pc t (.compared phys)
          changed := Function.update s.changed t false
          woken := Function.update s.woken t false }
      else none
  | .enqueue t ptr =>
      match s.pc t with
      | .compared phys => do
          match ← s.futex.join ptr phys t with
          | none => return { s with pc := Function.update s.pc t .idle }
          | some futex => return { s with futex, pc := Function.update s.pc t (.queued phys) }
      | _ => none
  | .block t =>
      match s.pc t with
      | .queued phys =>
          some { s with
            state := Function.update s.state t .blocked
            pc := Function.update s.pc t (.asleep phys) }
      | _ => none
  | .pick cpu =>
      match s.runq.queue cpu with
      | [] => some s
      | t :: _ =>
          match s.pc t with
          | .asleep _ => do
              let runq ← s.runq.unlink t
              return { s with
                runq
                state := Function.update s.state t .running
                pc := Function.update s.pc t .idle }
          | _ => none
  | .store phys value =>
      some { s with
        word := Function.update s.word phys value
        changed := fun t => s.changed t || (s.pc t).word = some phys && s.word phys ≠ value }
  | .wake cpu phys => do
      let s' ← s.futexWake cpu phys
      return { s' with woken := fun t => s.woken t || (s.pc t).word = some phys && s.changed t }

/-- `kmalloc` returns no `struct futex_waitq` that is in use. -/
def Fresh (s : FutexSmp) : FutexStep → Prop
  | .enqueue _ ptr => ptr ≠ 0 → s.futex.buckets.home ptr = none
  | _ => True

/-- A wake comes when all threads that should notice it are asleep, and no thread that is still
blocked has lost its place on the queue. -/
def Timely (s : FutexSmp) : FutexStep → Prop
  | .wake _ phys => ∀ t, (s.pc t).word = some phys → s.changed t = true →
      s.pc t = .asleep phys ∧ (s.state t = .blocked → t ∈ s.futex.queue phys)
  | _ => True

/-- The thread sleeps on, although the word was changed and all threads were woken. -/
def Lost (s : FutexSmp) (t : Tid) : Prop :=
  s.state t = .blocked ∧ s.woken t = true ∧ ∃ phys, s.pc t = .asleep phys

/-- The invariant. -/
structure Rep (s : FutexSmp) : Prop where
  futex : s.futex.Rep
  /-- A thread on a queue waits for its word, and is not in a run queue. -/
  waits : ∀ t phys, t ∈ s.futex.queue phys →
    (s.pc t = .queued phys ∨ s.pc t = .asleep phys) ∧ s.runq.home t = none
  /-- A thread in a run queue was on a queue before. -/
  ready : ∀ t, s.runq.home t ≠ none → ∃ phys, s.pc t = .queued phys ∨ s.pc t = .asleep phys

variable {s s' : FutexSmp} {t : Tid} {phys : Addr} {cpu : ℕ}

/-- At boot no thread waits. -/
theorem rep_boot (word : Addr → BitVec 32) : (boot word).Rep := by
  refine ⟨⟨?_, ?_, ?_⟩, fun t phys h => ?_, fun t h => absurd rfl h⟩
  · simp [boot, Futex.init, ListStore.empty]
  · simp [boot, Futex.init, ListStore.empty]
  · simp [boot, Futex.init, ListStore.empty]
  · simp [boot, Futex.init, Futex.queue, Futex.futexFind, ListStore.empty] at h

/-- Without a waitq there is no place on a queue. -/
theorem Rep.home_eq_none (h : s.Rep) (hpc : ∀ phys, s.pc t ≠ .queued phys ∧ s.pc t ≠ .asleep phys) :
    s.futex.waiters.home t = none ∧ s.runq.home t = none := by
  constructor
  · by_contra hhome
    obtain ⟨wq, hwq⟩ := Option.ne_none_iff_exists'.mp hhome
    obtain ⟨hqueued, -⟩ := h.waits t (s.futex.phys wq) (h.futex.mem_queue.mpr ⟨wq, hwq, rfl⟩)
    exact hqueued.elim (hpc _).1 (hpc _).2
  · by_contra hhome
    obtain ⟨phys, hphys⟩ := h.ready t hhome
    exact hphys.elim (hpc phys).1 (hpc phys).2

/-! ### Waking

The loop of `futex_wake` takes all waiters from the queue in one go, under the lock of the table. -/

/-- The threads of a list have been made ready, on one CPU. -/
structure Readied (s s' : FutexSmp) (cpu : ℕ) (l : List Tid) : Prop where
  state : ∀ t, s'.state t = if t ∈ l then .ready else s.state t
  home : ∀ t, s'.runq.home t = if t ∈ l then some cpu else s.runq.home t
  pc : s'.pc = s.pc
  changed : s'.changed = s.changed
  woken : s'.woken = s.woken

/-- Nobody was woken yet. -/
theorem Readied.nil (s : FutexSmp) (cpu : ℕ) : Readied s s cpu [] :=
  ⟨fun t => by simp, fun t => by simp, rfl, rfl, rfl⟩

/-- The loop takes all threads off the queue. -/
theorem wakeLoop_eq {wq : Addr} (left : ℕ) (hleft : (s.futex.waiters.queue wq).length = left)
    (hnone : ∀ t ∈ s.futex.waiters.queue wq, s.runq.home t = none) :
    ∃ s', wakeLoop cpu wq left s = some s' ∧ Readied s s' cpu (s.futex.waiters.queue wq) ∧
      s'.futex = { s.futex with waiters := s'.futex.waiters } ∧ s'.futex.waiters.queue wq = [] ∧
      ∀ wq', wq' ≠ wq → s'.futex.waiters.queue wq' = s.futex.waiters.queue wq' := by
  induction left generalizing s with
  | zero =>
      have hnil := List.eq_nil_of_length_eq_zero hleft
      exact ⟨s, rfl, hnil ▸ .nil s cpu, rfl, hnil, fun _ _ => rfl⟩
  | succ left ih =>
      obtain ⟨t, rest, hqueue⟩ := List.exists_cons_of_length_eq_add_one hleft
      have ht : s.futex.waiters.home t = some wq :=
        ListStore.home_of_mem (hqueue ▸ List.mem_cons_self)
      have hrunq := hnone t (hqueue ▸ List.mem_cons_self)
      have hnodup := List.nodup_cons.mp (hqueue ▸ s.futex.waiters.nodup wq)
      -- the state after one iteration
      obtain ⟨s₁, hs₁⟩ : ∃ s₁ : FutexSmp, s₁ = { s with
        futex := { s.futex with waiters := s.futex.waiters.eraseAt t wq ht }
        runq := s.runq.snocAt t cpu hrunq
        state := Function.update s.state t .ready } := ⟨_, rfl⟩
      have hrest : s₁.futex.waiters.queue wq = rest := by
        rw [hs₁]
        show (s.futex.waiters.eraseAt t wq ht).queue wq = rest
        rw [ListStore.eraseAt_queue_apply, if_pos rfl, hqueue, List.erase_cons_head]
      have hlength : (s₁.futex.waiters.queue wq).length = left := by
        rw [hrest]
        rw [hqueue, List.length_cons] at hleft
        exact Nat.succ.inj hleft
      have hnone₁ : ∀ u ∈ s₁.futex.waiters.queue wq, s₁.runq.home u = none := by
        intro u hu
        rw [hrest] at hu
        have hne : u ≠ t := fun heq => hnodup.1 (heq ▸ hu)
        rw [hs₁]
        show (s.runq.snocAt t cpu hrunq).home u = none
        rw [ListStore.snocAt_home_apply, if_neg hne]
        exact hnone u (hqueue ▸ List.mem_cons_of_mem t hu)
      obtain ⟨s', hloop, hready, hfutex, hempty, hother⟩ := ih hlength hnone₁
      rw [hrest] at hready
      refine ⟨s', ?_, ?_, ?_, hempty, fun wq' hwq => ?_⟩
      · rw [wakeLoop, hqueue]
        dsimp only
        rw [ListStore.unlink_eq_some ht, ListStore.pushBack_eq_some cpu hrunq, ← hloop, hs₁]
        rfl
      · rw [hqueue]
        constructor
        · intro u
          rw [hready.state, hs₁]
          by_cases hu : u = t
          · simp [hu]
          · simp [hu]
        · intro u
          rw [hready.home, hs₁]
          by_cases hu : u = t
          · simp [hu]
          · simp [hu]
        · rw [hready.pc, hs₁]
        · rw [hready.changed, hs₁]
        · rw [hready.woken, hs₁]
      · rw [hfutex, hs₁]
      · rw [hother wq' hwq, hs₁]
        show (s.futex.waiters.eraseAt t wq ht).queue wq' = _
        rw [ListStore.eraseAt_queue_apply, if_neg hwq]

/-- All threads on the queue of the word are made ready. -/
theorem Rep.futexWake (h : s.Rep) (cpu : ℕ) (phys : Addr) :
    ∃ s', s.futexWake cpu phys = some s' ∧ Readied s s' cpu (s.futex.queue phys) ∧
      s'.futex.Rep ∧ s'.futex.queue = Function.update s.futex.queue phys [] := by
  cases hfind : s.futex.futexFind phys with
  | none =>
      have hnil := Futex.queue_of_none hfind
      refine ⟨s, by rw [FutexSmp.futexWake, hfind], hnil ▸ .nil s cpu, h.futex, ?_⟩
      rw [← hnil, Function.update_eq_self]
  | some wq =>
      obtain ⟨hlinked, rfl⟩ := h.futex.futexFind.mp hfind
      have hqueue := h.futex.queue_phys hlinked
      -- waiters are asleep, so none of them is in a run queue
      have hnone : ∀ t ∈ s.futex.waiters.queue wq, s.runq.home t = none := by
        intro t ht
        rw [← hqueue] at ht
        exact (h.waits t _ ht).2
      obtain ⟨s₁, hloop, hready, hfutex, hempty, hother⟩ := @wakeLoop_eq s cpu wq _ rfl hnone
      -- the loop takes all of them, which is what `release` is to be told
      have hdrop : s₁.futex.waiters.queue wq =
          (s.futex.waiters.queue wq).drop (s.futex.waiters.queue wq).length := by
        rw [hempty, List.drop_length]
      obtain ⟨futex, hrelease, hrep, -, hqueues⟩ := h.futex.release hlinked _ hdrop hother
      rw [← hfutex] at hrelease
      refine ⟨{ s₁ with futex }, ?_, ?_, hrep, ?_⟩
      · rw [FutexSmp.futexWake, hfind]
        dsimp only
        rw [hloop]
        show (s₁.futex.release wq).bind _ = _
        rw [hrelease]
        rfl
      · rw [hqueue]
        exact ⟨hready.state, hready.home, hready.pc, hready.changed, hready.woken⟩
      · rw [hqueues, hqueue, List.drop_length]

/-! ### Steps

A wait is made of several steps, between which other threads run. Each step keeps what the queues
stand for. -/

/-- What a step of `futex_wake` does. -/
structure Woke (s s' : FutexSmp) (cpu : ℕ) (phys : Addr) : Prop where
  readied : ∀ t, s'.state t = if t ∈ s.futex.queue phys then .ready else s.state t
  pc : s'.pc = s.pc
  woken : ∀ t, s'.woken t = (s.woken t || (s.pc t).word = some phys && s.changed t)
  rep : s'.Rep

/-- A wake returns and makes the waiters of its address ready. -/
theorem Rep.wake (h : s.Rep) (cpu : ℕ) (phys : Addr) :
    ∃ s', s.step (.wake cpu phys) = some s' ∧ Woke s s' cpu phys := by
  obtain ⟨s₁, hwake, hready, hfutex, hqueue⟩ := h.futexWake cpu phys
  refine ⟨{ s₁ with
    woken := fun t => s.woken t || (s.pc t).word = some phys && s.changed t },
    ?_, hready.state, hready.pc, fun _ => rfl, ?_⟩
  · rw [step, hwake]
    rfl
  refine ⟨hfutex, fun t p ht => ?_, fun t ht => ?_⟩
  · show (s₁.pc t = _ ∨ s₁.pc t = _) ∧ s₁.runq.home t = none
    replace ht : t ∈ s₁.futex.queue p := ht
    rw [hqueue] at ht
    by_cases hp : p = phys
    · rw [hp, Function.update_self] at ht
      cases ht
    · rw [Function.update_of_ne hp] at ht
      obtain ⟨hpc, hhome⟩ := h.waits t p ht
      -- a thread is on the queue of one word only, so those on other queues were not woken
      have hnot : t ∉ s.futex.queue phys := by
        intro hmem
        obtain ⟨wq, hwq, hphys⟩ := h.futex.mem_queue.mp ht
        obtain ⟨wq', hwq', hphys'⟩ := h.futex.mem_queue.mp hmem
        obtain rfl := Option.some.inj (hwq.symm.trans hwq')
        exact hp (hphys.symm.trans hphys')
      rw [hready.pc, hready.home, if_neg hnot]
      exact ⟨hpc, hhome⟩
  · show ∃ phys, s₁.pc t = _ ∨ s₁.pc t = _
    replace ht : s₁.runq.home t ≠ none := ht
    rw [hready.pc]
    rw [hready.home] at ht
    split at ht
    case isTrue hmem => exact ⟨phys, (h.waits t phys hmem).1⟩
    case isFalse => exact h.ready t ht

/-- The thread is not in a call, or has just compared the word. -/
theorem Rep.of_pc (h : s.Rep) (hold : ∀ phys, s.pc t ≠ .queued phys ∧ s.pc t ≠ .asleep phys)
    {s' : FutexSmp} (hfutex : s'.futex = s.futex) (hrunq : s'.runq = s.runq)
    (hpc : ∀ u ≠ t, s'.pc u = s.pc u) : s'.Rep := by
  obtain ⟨hwaiters, hhome⟩ := h.home_eq_none hold
  refine ⟨hfutex ▸ h.futex, fun u phys hu => ?_, fun u hu => ?_⟩
  · rw [hfutex] at hu
    -- a thread that was on no queue before is on none now, since neither queue changes
    have hne : u ≠ t := by
      rintro rfl
      obtain ⟨wq, hwq, -⟩ := h.futex.mem_queue.mp hu
      rw [hwaiters] at hwq
      cases hwq
    rw [hpc u hne, hrunq]
    exact h.waits u phys hu
  · rw [hrunq] at hu
    have hne : u ≠ t := by
      rintro rfl
      exact hu hhome
    rw [hpc u hne]
    exact h.ready u hu

/-- A thread that has compared the word gets on its queue, if there is memory. -/
theorem Rep.enqueue (h : s.Rep) (hpc : s.pc t = .compared phys) {ptr : Addr}
    (hfresh : ptr ≠ 0 → s.futex.buckets.home ptr = none) :
    s.step (.enqueue t ptr) = some { s with pc := Function.update s.pc t .idle } ∧ ptr = 0 ∨
      ∃ futex, s.step (.enqueue t ptr) =
          some { s with futex, pc := Function.update s.pc t (.queued phys) } ∧
        Rep { s with futex, pc := Function.update s.pc t (.queued phys) } := by
  -- a thread that has only compared is in no queue
  have hold : ∀ p, s.pc t ≠ .queued p ∧ s.pc t ≠ .asleep p := fun p => by simp [hpc]
  obtain ⟨hwaiters, hhome⟩ := h.home_eq_none hold
  rcases h.futex.join hwaiters hfresh phys with ⟨-, hptr, hjoin⟩ | ⟨futex, hjoin, hrep, hqueue, -⟩
  · left
    refine ⟨?_, hptr⟩
    rw [step, hpc]
    dsimp only
    rw [hjoin]
    rfl
  · right
    refine ⟨futex, ?_, hrep, fun u p hu => ?_, fun u hu => ?_⟩
    · rw [step, hpc]
      dsimp only
      rw [hjoin]
      rfl
    · show (Function.update s.pc t _ u = _ ∨ Function.update s.pc t _ u = _) ∧ s.runq.home u = none
      replace hu : u ∈ futex.queue p := hu
      rw [hqueue] at hu
      by_cases hp : p = phys
      · subst hp
        rw [Function.update_self, List.mem_append, List.mem_singleton] at hu
        rcases hu with hu | rfl
        -- the others on this queue were there before
        · have hne : u ≠ t := by
            rintro rfl
            exact (h.waits u p hu).1.elim (hold p).1 (hold p).2
          rw [Function.update_of_ne hne]
          exact h.waits u p hu
        · rw [Function.update_self]
          exact ⟨Or.inl rfl, hhome⟩
      · rw [Function.update_of_ne hp] at hu
        have hne : u ≠ t := by
          rintro rfl
          exact (h.waits u p hu).1.elim (hold p).1 (hold p).2
        rw [Function.update_of_ne hne]
        exact h.waits u p hu
    · show ∃ p, Function.update s.pc t _ u = _ ∨ Function.update s.pc t _ u = _
      have hne : u ≠ t := by
        rintro rfl
        exact hu hhome
      rw [Function.update_of_ne hne]
      exact h.ready u hu

/-- The thread blocks. -/
theorem Rep.block (h : s.Rep) (hpc : s.pc t = .queued phys) :
    Rep { s with
      state := Function.update s.state t .blocked
      pc := Function.update s.pc t (.asleep phys) } := by
  refine ⟨h.futex, fun u p hu => ?_, fun u hu => ?_⟩
  · obtain ⟨hwaits, hhome⟩ := h.waits u p hu
    refine ⟨?_, hhome⟩
    show Function.update s.pc t _ u = _ ∨ Function.update s.pc t _ u = _
    -- the thread itself is asleep where it was queued
    by_cases hne : u = t
    · subst hne
      rw [hpc] at hwaits
      rw [Function.update_self]
      obtain rfl : phys = p := by simpa using hwaits
      exact Or.inr rfl
    · rw [Function.update_of_ne hne]
      exact hwaits
  · show ∃ p, Function.update s.pc t _ u = _ ∨ Function.update s.pc t _ u = _
    by_cases hne : u = t
    · subst hne
      rw [Function.update_self]
      exact ⟨phys, Or.inr rfl⟩
    · rw [Function.update_of_ne hne]
      exact h.ready u hu

/-- A thread that was ready goes on. -/
theorem Rep.pick (h : s.Rep) (hhome : s.runq.home t = some cpu) :
    Rep { s with
      runq := s.runq.eraseAt t cpu hhome
      state := Function.update s.state t .running
      pc := Function.update s.pc t .idle } := by
  -- a thread that is ready waits on no word
  have hnot : ∀ p, t ∉ s.futex.queue p := by
    intro p hmem
    rw [(h.waits t p hmem).2] at hhome
    cases hhome
  refine ⟨h.futex, fun u p hu => ?_, fun u hu => ?_⟩
  · have hne : u ≠ t := by
      rintro rfl
      exact hnot p hu
    show (Function.update s.pc t _ u = _ ∨ Function.update s.pc t _ u = _) ∧
      (s.runq.eraseAt t cpu hhome).home u = none
    rw [Function.update_of_ne hne, ListStore.eraseAt_home_apply, if_neg hne]
    exact h.waits u p hu
  · replace hu : (s.runq.eraseAt t cpu hhome).home u ≠ none := hu
    rw [ListStore.eraseAt_home_apply] at hu
    have hne : u ≠ t := fun heq => hu (if_pos heq)
    rw [if_neg hne] at hu
    show ∃ p, Function.update s.pc t _ u = _ ∨ Function.update s.pc t _ u = _
    rw [Function.update_of_ne hne]
    exact h.ready u hu

/-- One step of any CPU keeps the queues in order. -/
theorem Rep.step (h : s.Rep) {a : FutexStep} (hfresh : s.Fresh a) (hstep : s.step a = some s') :
    s'.Rep := by
  cases a with
  -- One case for each action. Those that fail leave the state, the others have a lemma of their
  -- own.
  | compare t phys expected =>
      rw [FutexSmp.step] at hstep
      split at hstep
      case isTrue hidle =>
        split at hstep
        case isTrue =>
          obtain rfl := Option.some.inj hstep
          exact h
        case isFalse =>
          obtain rfl := Option.some.inj hstep
          exact h.of_pc (t := t) (fun p => by simp [hidle.1]) rfl rfl
            fun u hne => Function.update_of_ne hne _ _
      case isFalse => cases hstep
  | enqueue t ptr =>
      cases hpc : s.pc t with
      | compared phys =>
          rcases h.enqueue hpc hfresh with ⟨heq, -⟩ | ⟨futex, heq, hrep⟩
          · obtain rfl := Option.some.inj (heq.symm.trans hstep)
            exact h.of_pc (t := t) (fun p => by simp [hpc]) rfl rfl
              fun u hne => Function.update_of_ne hne _ _
          · obtain rfl := Option.some.inj (heq.symm.trans hstep)
            exact hrep
      | idle | queued | asleep =>
          rw [FutexSmp.step, hpc] at hstep
          cases hstep
  | block t =>
      cases hpc : s.pc t with
      | queued phys =>
          rw [FutexSmp.step, hpc] at hstep
          obtain rfl := Option.some.inj hstep
          exact h.block hpc
      | idle | compared | asleep =>
          rw [FutexSmp.step, hpc] at hstep
          cases hstep
  | pick cpu =>
      rw [FutexSmp.step] at hstep
      split at hstep
      case h_1 =>
        obtain rfl := Option.some.inj hstep
        exact h
      case h_2 t rest hqueue =>
        have hhome : s.runq.home t = some cpu :=
          ListStore.home_of_mem (hqueue ▸ List.mem_cons_self)
        rw [ListStore.unlink_eq_some hhome] at hstep
        split at hstep
        case h_1 =>
          obtain rfl := Option.some.inj hstep
          exact h.pick hhome
        case h_2 => cases hstep
  | store phys value =>
      obtain rfl := Option.some.inj hstep
      exact ⟨h.futex, h.waits, h.ready⟩
  | wake cpu phys =>
      obtain ⟨s₁, hs₁, hwoke⟩ := h.wake cpu phys
      obtain rfl := Option.some.inj (hs₁.symm.trans hstep)
      exact hwoke.rep

/-- So does every interleaving of steps, by induction on it. -/
theorem rep_of_steps {word : Addr → BitVec 32} (hrun : Machine.Run step Fresh (boot word) s) :
    s.Rep :=
  Machine.Run.invariant (I := Rep) (rep_boot word) (fun _ _ _ h hok hstep => h.step hok hstep) hrun

/-! ### Wakeups

A wake that comes between the comparison and the queueing is the one that is lost. Timely runs
exclude it, and no others have to be excluded. -/

/-- A thread that should have noticed a wake is asleep, and has been made ready. -/
def Noticed (s : FutexSmp) : Prop :=
  ∀ t phys, (s.pc t).word = some phys → s.woken t = true →
    s.pc t = .asleep phys ∧ s.state t ≠ .blocked

/-- What the call of one thread does to its place does not matter, unless it was woken. -/
theorem Noticed.of_pc (h : s.Noticed) (hpc : ∀ u ≠ t, s'.pc u = s.pc u)
    (hstate : ∀ u ≠ t, s'.state u = s.state u) (hwoken : ∀ u ≠ t, s'.woken u = s.woken u)
    (ht : (s'.pc t).word = none ∨ s'.woken t = false) : s'.Noticed := by
  intro u p hword hu
  by_cases hne : u = t
  · subst hne
    rcases ht with hidle | hfalse
    · rw [hidle] at hword
      cases hword
    · rw [hfalse] at hu
      cases hu
  · rw [hpc u hne] at hword ⊢
    rw [hwoken u hne] at hu
    rw [hstate u hne]
    exact h u p hword hu

/-- A thread that is not asleep yet was not woken. -/
theorem Noticed.woken_eq_false (h : s.Noticed) (hword : (s.pc t).word = some phys)
    (hpc : s.pc t ≠ .asleep phys) : s.woken t = false := by
  cases hwoken : s.woken t with
  | false => rfl
  | true => exact absurd (h t phys hword hwoken).1 hpc

/-- A timely step overlooks no thread. -/
theorem Noticed.step (h : s.Noticed) (hrep : s.Rep) {a : FutexStep} (hfresh : s.Fresh a)
    (htimely : s.Timely a) (hstep : s.step a = some s') : s'.Noticed := by
  cases a with
  | compare t phys expected =>
      rw [FutexSmp.step] at hstep
      split at hstep
      case isTrue hidle =>
        split at hstep
        case isTrue =>
          obtain rfl := Option.some.inj hstep
          exact h
        case isFalse =>
          obtain rfl := Option.some.inj hstep
          exact h.of_pc (t := t) (fun u hne => Function.update_of_ne hne _ _) (fun _ _ => rfl)
            (fun u hne => Function.update_of_ne hne _ _) (Or.inr (Function.update_self ..))
      case isFalse => cases hstep
  | enqueue t ptr =>
      cases hpc : s.pc t with
      | compared phys =>
          have hword : (s.pc t).word = some phys := by rw [hpc, WaitPc.word]
          -- a thread that was woken in time is past this point
          have hfalse : s.woken t = false := h.woken_eq_false hword (by simp [hpc])
          rcases hrep.enqueue hpc hfresh with ⟨heq, -⟩ | ⟨futex, heq, -⟩
          · obtain rfl := Option.some.inj (heq.symm.trans hstep)
            exact h.of_pc (t := t) (fun u hne => Function.update_of_ne hne _ _) (fun _ _ => rfl)
              (fun _ _ => rfl) (Or.inr hfalse)
          · obtain rfl := Option.some.inj (heq.symm.trans hstep)
            exact h.of_pc (t := t) (fun u hne => Function.update_of_ne hne _ _) (fun _ _ => rfl)
              (fun _ _ => rfl) (Or.inr hfalse)
      | idle | queued | asleep =>
          rw [FutexSmp.step, hpc] at hstep
          cases hstep
  | block t =>
      cases hpc : s.pc t with
      | queued phys =>
          have hword : (s.pc t).word = some phys := by rw [hpc, WaitPc.word]
          have hfalse : s.woken t = false := h.woken_eq_false hword (by simp [hpc])
          rw [FutexSmp.step, hpc] at hstep
          obtain rfl := Option.some.inj hstep
          exact h.of_pc (t := t) (fun u hne => Function.update_of_ne hne _ _)
            (fun u hne => Function.update_of_ne hne _ _) (fun _ _ => rfl) (Or.inr hfalse)
      | idle | compared | asleep =>
          rw [FutexSmp.step, hpc] at hstep
          cases hstep
  | pick cpu =>
      rw [FutexSmp.step] at hstep
      split at hstep
      case h_1 =>
        obtain rfl := Option.some.inj hstep
        exact h
      -- the thread that is taken leaves its call, so nothing is asked of it any more
      case h_2 t rest hqueue =>
        have hhome : s.runq.home t = some cpu :=
          ListStore.home_of_mem (hqueue ▸ List.mem_cons_self)
        rw [ListStore.unlink_eq_some hhome] at hstep
        split at hstep
        case h_1 =>
          obtain rfl := Option.some.inj hstep
          refine h.of_pc (t := t) (fun u hne => Function.update_of_ne hne _ _)
            (fun u hne => Function.update_of_ne hne _ _) (fun _ _ => rfl) (Or.inl ?_)
          show (Function.update s.pc t _ t).word = none
          rw [Function.update_self]
          rfl
        case h_2 => cases hstep
  | store phys value =>
      obtain rfl := Option.some.inj hstep
      exact h
  -- Only a wake can set `woken`. The condition puts each such thread on the queue of the word.
  | wake cpu phys =>
      obtain ⟨s₁, hs₁, hwoke⟩ := hrep.wake cpu phys
      obtain rfl := Option.some.inj (hs₁.symm.trans hstep)
      intro t p hword hwoken
      rw [hwoke.pc] at hword ⊢
      rw [hwoke.woken] at hwoken
      rw [hwoke.readied]
      cases hold : s.woken t with
      | true =>
          -- it had been noticed before, and another wake only makes threads ready
          obtain ⟨hpc, hstate⟩ := h t p hword hold
          refine ⟨hpc, ?_⟩
          split
          case isTrue => simp
          case isFalse => exact hstate
      | false =>
          rw [hold, Bool.false_or, Bool.and_eq_true, decide_eq_true_eq] at hwoken
          -- this is the wake that was to notice it
          obtain ⟨hphys, hchanged⟩ := hwoken
          obtain rfl : p = phys := Option.some.inj (hword.symm.trans hphys)
          obtain ⟨hpc, hqueued⟩ := htimely t hword hchanged
          refine ⟨hpc, ?_⟩
          split
          case isTrue => simp
          case isFalse hnot => exact fun hblocked => hnot (hqueued hblocked)

/-- A wake that is not timely leaves a thread that will sleep on. -/
theorem Rep.exists_lost (h : s.Rep) {a : FutexStep} (htimely : ¬ s.Timely a)
    (hstep : s.step a = some s') {ptr : Addr} (hptr : ptr ≠ 0)
    (hfresh : s'.futex.buckets.home ptr = none) :
    ∃ s'' t, Machine.Run FutexSmp.step Fresh s' s'' ∧ s''.Lost t := by
  cases a with
  | wake cpu phys =>
      obtain ⟨s₁, hs₁, hwoke⟩ := h.wake cpu phys
      obtain rfl := Option.some.inj (hs₁.symm.trans hstep)
      rw [Timely] at htimely
      push Not at htimely
      obtain ⟨t, hword, hchanged, hlate⟩ := htimely
      have hwoken : s₁.woken t = true := by
        rw [hwoke.woken, hword, hchanged]
        simp
      -- from the queue, the thread goes to sleep
      have hsleeps : ∀ {s₂ : FutexSmp}, Machine.Run FutexSmp.step Fresh s₁ s₂ → s₂.woken t = true →
          s₂.pc t = .queued phys → ∃ s'' t, Machine.Run FutexSmp.step Fresh s₁ s'' ∧
          s''.Lost t := by
        intro s₂ hrun hwoken hpc
        have hblock : s₂.step (.block t) = some { s₂ with
            state := Function.update s₂.state t .blocked
            pc := Function.update s₂.pc t (.asleep phys) } := by
          rw [FutexSmp.step, hpc]
        exact ⟨_, t, hrun.step (.block t) trivial hblock, Function.update_self .., hwoken, phys,
          Function.update_self ..⟩
      cases hpc : s.pc t with
      | idle =>
          rw [hpc] at hword
          cases hword
      | compared p =>
          rw [hpc] at hword
          obtain rfl := Option.some.inj hword
          have hpc₁ : s₁.pc t = .compared p := by rw [hwoke.pc, hpc]
          have hmem : ptr ≠ 0 → s₁.futex.buckets.home ptr = none := fun _ => hfresh
          rcases hwoke.rep.enqueue hpc₁ hmem with ⟨-, hzero⟩ | ⟨futex, heq, -⟩
          · exact absurd hzero hptr
          · exact hsleeps (Machine.Run.init.step (.enqueue t ptr) (fun _ => hfresh) heq) hwoken
              (Function.update_self ..)
      | queued p =>
          rw [hpc] at hword
          obtain rfl := Option.some.inj hword
          exact hsleeps .init hwoken (by rw [hwoke.pc, hpc])
      | asleep p =>
          rw [hpc] at hword
          obtain rfl := Option.some.inj hword
          obtain ⟨hblocked, hnot⟩ := hlate hpc
          refine ⟨s₁, t, .init, ?_, hwoken, p, by rw [hwoke.pc, hpc]⟩
          rw [hwoke.readied, if_neg hnot]
          exact hblocked
  | compare | enqueue | block | pick | store => exact absurd trivial htimely

/-- No wakeup is lost as long as each wake is timely. After one that is not, a thread that should
have noticed it can sleep on, if there is memory for its waitq. -/
theorem futex_no_lost_wakeup (word : Addr → BitVec 32) :
    (∀ s, Machine.Run step (fun s a => s.Fresh a ∧ s.Timely a) (boot word) s → ∀ t, ¬ s.Lost t) ∧
    ∀ s s' a ptr, Machine.Run step Fresh (boot word) s → ¬ s.Timely a → s.step a = some s' →
      ptr ≠ 0 → s'.futex.buckets.home ptr = none →
        ∃ s'' t, Machine.Run step Fresh s' s'' ∧ s''.Lost t := by
  constructor
  · intro s hrun t hlost
    obtain ⟨hblocked, hwoken, phys, hpc⟩ := hlost
    -- in a timely run a waker has noticed every thread that waits on the word
    have hinv : s.Rep ∧ s.Noticed := by
      refine Machine.Run.invariant (I := fun s => s.Rep ∧ s.Noticed)
        ⟨rep_boot word, fun t phys h => by cases h⟩ ?_ hrun
      rintro s s' a ⟨hrep, hnoticed⟩ ⟨hfresh, htimely⟩ hstep
      exact ⟨hrep.step hfresh hstep, hnoticed.step hrep hfresh htimely hstep⟩
    exact (hinv.2 t phys (by rw [hpc]; rfl) hwoken).2 hblocked
  · intro s s' a ptr hrun htimely hstep hptr hfresh
    -- an untimely wake finds a thread between its comparison and its sleep
    exact (rep_of_steps hrun).exists_lost htimely hstep hptr hfresh

instance (s : FutexSmp) : DecidablePred s.Fresh
  | .enqueue _ ptr => inferInstanceAs (Decidable (ptr ≠ 0 → s.futex.buckets.home ptr = none))
  | .compare _ _ _ => isTrue trivial
  | .block _ => isTrue trivial
  | .pick _ => isTrue trivial
  | .store _ _ => isTrue trivial
  | .wake _ _ => isTrue trivial

/-- Thread 1 compares the word, and before it is on the queue another CPU stores to the word and
wakes all threads. Thread 1 sleeps on. -/
theorem futex_lost_wakeup :
    ∃ s, Machine.Run step Fresh (boot fun _ => 0) s ∧ s.Lost 1 := by
  obtain ⟨s, hrun, hchecked⟩ := Machine.exists_run_of_execAll step Fresh (boot fun _ => 0)
    [.compare 1 0x5000#64 0, .store 0x5000#64 1, .wake 0 0x5000#64, .enqueue 1 0x9000#64, .block 1]
    (fun s => s.state 1 = .blocked ∧ s.woken 1 = true ∧ s.pc 1 = .asleep 0x5000#64) (by decide)
  simp only [decide_eq_true_eq] at hchecked
  obtain ⟨hblocked, hwoken, hpc⟩ := hchecked
  exact ⟨s, hrun, hblocked, hwoken, _, hpc⟩

/-- Thread 1 is woken in time, and in another run too early. -/
theorem futex_no_lost_wakeup_two :
    (∃ s, Machine.Run step (fun s a => s.Fresh a ∧ s.Timely a) (boot fun _ => 0) s ∧
      s.state 1 = .ready ∧ ¬ s.Lost 1) ∧
    ∃ s s', Machine.Run step Fresh (boot fun _ => 0) s ∧ s.step (.wake 0 0x5000#64) = some s' ∧
      ∃ s'' t, Machine.Run step Fresh s' s'' ∧ s''.Lost t := by
  obtain ⟨hsafe, hlost⟩ := futex_no_lost_wakeup fun _ => 0
  constructor
  -- thread 1 waits, the word is changed, and the wake comes after it is asleep
  · have hboot : Machine.Run step (fun s a => s.Fresh a ∧ s.Timely a) (boot fun _ => 0)
        (boot fun _ => 0) := .init
    have hcompared := hboot.step (FutexStep.compare 1 0x5000#64 0) ⟨trivial, trivial⟩ rfl
    have hqueued := hcompared.step (FutexStep.enqueue 1 0x9000#64) ⟨fun _ => rfl, trivial⟩ rfl
    have hasleep := hqueued.step (FutexStep.block 1) ⟨trivial, trivial⟩ rfl
    have hstored := hasleep.step (FutexStep.store 0x5000#64 1) ⟨trivial, trivial⟩ rfl
    have hwoken := hstored.step (FutexStep.wake 0 0x5000#64) ⟨trivial, fun t hword _ => ?_⟩ rfl
    · exact ⟨_, hwoken, rfl, hsafe _ hwoken 1⟩
    · by_cases ht : t = 1
      · subst ht
        exact ⟨rfl, fun _ => by decide⟩
      · simp [boot, ht, WaitPc.word] at hword
  -- here the wake comes before thread 1 has joined the queue
  · have hboot : Machine.Run step Fresh (boot fun _ => 0) (boot fun _ => 0) := .init
    have hcompared := hboot.step (FutexStep.compare 1 0x5000#64 0) trivial rfl
    have hstored := hcompared.step (FutexStep.store 0x5000#64 1) trivial rfl
    refine ⟨_, _, hstored, rfl, ?_⟩
    exact hlost _ _ (.wake 0 0x5000#64) 0x9000#64 hstored
      (fun h => absurd (h 1 rfl rfl).1 (by decide)) rfl (by decide) rfl

end FutexSmp

end Koharu
