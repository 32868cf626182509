import Koharu.Task.RunQueues

/-!
# The scheduler's invariant

Every thread that is ready is on the run queue of its level, and nothing else is; quanta are not
used up and not more than the level gives. This is the strongest rule that the scheduler keeps when
it is the only one to touch the threads, see `Consistent`. `consistent_of_run` is the result for
whole runs.
-/

namespace Koharu

namespace Sched

variable {s s' : Sched} {t u : Tid}

/-- A quantum that is not used up and not more than its level gives. -/
def QuantumOk (th : SchedThread) : Prop :=
  ∃ h : th.currentLevel.toNat < mlfqLevels,
    1 ≤ th.timeQuantumLeft ∧ th.timeQuantumLeft ≤ quantumTicks ⟨_, h⟩

/-- Every level has a quantum. -/
theorem quantumTicks_pos (l : Level) : 1 ≤ quantumTicks l := by
  revert l
  decide

/-- A thread with a full quantum. -/
theorem quantumOk_full (th : SchedThread) {l : Level} (hlevel : th.currentLevel.toNat = l)
    (hquantum : th.timeQuantumLeft = quantumTicks l) : QuantumOk th := by
  have h : th.currentLevel.toNat < mlfqLevels := hlevel ▸ l.isLt
  have hl : (⟨th.currentLevel.toNat, h⟩ : Level) = l := Fin.ext hlevel
  refine ⟨h, ?_, ?_⟩
  · rw [hquantum]
    exact quantumTicks_pos l
  · rw [hquantum, hl]
    exact BitVec.le_refl _

/-- The run queues hold the threads that are ready, each at its level. -/
structure Queues (s : Sched) : Prop where
  ready : ∀ t, (s.thread t).state = .ready ↔ (s.runq.home t).isSome
  level : ∀ t l, s.runq.home t = some l → (s.thread t).currentLevel.toNat = l
  bound : ∀ t, (s.thread t).currentLevel.toNat < mlfqLevels
  quantum : ∀ t, (s.thread t).state = .ready ∨ (s.thread t).state = .running →
    QuantumOk (s.thread t)

/-- What `Queues` says of one thread and its run queue. -/
def Levelled : Rule := fun th o =>
  (∀ l, o = some l → th.currentLevel.toNat = l) ∧ th.currentLevel.toNat < mlfqLevels ∧
    (th.state = .ready ∨ th.state = .running → QuantumOk th)

/-- With the rule of the levels the general invariant is the one of the queues. -/
theorem queued_iff : s.Queued Levelled ↔ s.Queues :=
  ⟨fun h => ⟨h.ready, fun t => (h.rule t).1, fun t => (h.rule t).2.1, fun t => (h.rule t).2.2⟩,
    fun h => ⟨h.ready, fun t => ⟨h.level t, h.bound t, h.quantum t⟩⟩⟩

/-- A thread that is not ready is in no queue. -/
theorem Queues.home (h : s.Queues) (ht : (s.thread t).state ≠ .ready) : s.runq.home t = none :=
  (queued_iff.mpr h).home ht

/-- A tick of a thread whose quantum is not used up by it. -/
theorem quantumOk_tick {th : SchedThread} (h : QuantumOk th) (hne : th.timeQuantumLeft - 1 ≠ 0) :
    QuantumOk { th with
      totalCpuTime := th.totalCpuTime + 1
      timeQuantumLeft := th.timeQuantumLeft - 1 } := by
  obtain ⟨hlevel, hpos, hle⟩ := h
  refine ⟨hlevel, ?_, ?_⟩
  · refine BitVec.le_def.mpr (Nat.one_le_iff_ne_zero.mpr fun hzero => hne ?_)
    exact BitVec.eq_of_toNat_eq hzero
  · have hsub : (th.timeQuantumLeft - 1).toNat = th.timeQuantumLeft.toNat - 1 :=
      BitVec.toNat_sub_of_le hpos
    refine BitVec.le_def.mpr (le_trans ?_ (BitVec.le_def.mp hle))
    show (th.timeQuantumLeft - 1).toNat ≤ _
    omega

/-- The scheduler keeps threads at their levels. -/
theorem closed_levelled : Closed Levelled where
  bound h _ := h.2.1
  full {th o l} hlevel hquantum ho := by
    refine ⟨fun g hg => ?_, hlevel ▸ l.isLt, fun _ => quantumOk_full th hlevel hquantum⟩
    rcases ho with ho | ho
    · rw [ho] at hg
      cases hg
    · rw [ho] at hg
      cases hg
      exact hlevel
  leave h hstate _ := ⟨fun _ => nofun, h.2.1, fun _ => h.2.2 hstate⟩
  tick h hrunning hne :=
    ⟨fun _ => nofun, h.2.1, fun _ => quantumOk_tick (h.2.2 (Or.inr hrunning)) hne⟩

/-- The run queues are right, and the current thread runs. -/
structure Good (s : Sched) : Prop where
  queues : s.Queues
  runs : s.Runs s.current
  current : s.current ≠ none

/-- The same for the invariant with the thread that runs. -/
theorem goodFor_iff : s.GoodFor Levelled ↔ s.Good :=
  ⟨fun h => ⟨queued_iff.mp h.queued, h.runs, h.current⟩,
    fun h => ⟨queued_iff.mpr h.queues, h.runs, h.current⟩⟩

/-- Every call that is allowed succeeds, and keeps the invariant. -/
theorem Good.exec (h : s.Good) {op : Op} (hop : s.Allowed op) :
    ∃ out, s.exec op = some out ∧ ∀ s', out = .runs s' → s'.Good := by
  have hgood := goodFor_iff.mpr h
  -- every step keeps the rule about levels
  obtain ⟨c, hc⟩ := Option.ne_none_iff_exists'.mp h.current
  cases op with
  | tick =>
      obtain ⟨s', hs', hgood', -⟩ := hgood.schedTick closed_levelled
      exact ⟨.runs s', by rw [Sched.exec, hs']; rfl, by rintro _ ⟨⟩; exact goodFor_iff.mp hgood'⟩
  | yield =>
      obtain ⟨s', hs', hgood', -⟩ := hgood.schedYield closed_levelled
      exact ⟨.runs s', by rw [Sched.exec, hs']; rfl, by rintro _ ⟨⟩; exact goodFor_iff.mp hgood'⟩
  | block =>
      obtain ⟨out, hout, hgood'⟩ := hgood.leave closed_levelled hc .blocked (by simp) (by simp)
      exact ⟨out, hout, fun s' hs' => goodFor_iff.mp (hgood' s' hs').1⟩
  | exit =>
      obtain ⟨out, hout, hgood'⟩ := hgood.leave closed_levelled hc .terminated (by simp) (by simp)
      exact ⟨out, hout, fun s' hs' => goodFor_iff.mp (hgood' s' hs').1⟩
  | enqueue t | wakeup t =>
      have hnot : ¬ s.Active t := by
        rw [Active, show (s.thread t).state = _ from hop]
        simp
      obtain ⟨s', hs', hgood', -⟩ := hgood.schedEnqueue closed_levelled hnot
      exact ⟨.runs s', congrArg (Option.map Outcome.runs) hs',
        by rintro _ ⟨⟩; exact goodFor_iff.mp hgood'⟩
  | dequeue t =>
      obtain ⟨s', hs', -, -, hgood'⟩ := hgood.schedDequeue closed_levelled hop
      exact ⟨_, by rw [Sched.exec, hs']; rfl, by rintro _ ⟨⟩; exact goodFor_iff.mp hgood'⟩

/-! ### Whole runs

From the state before `sched_boot` on, all calls keep the invariant, in any order. -/

/-- What holds of the threads and the run queues in every state. -/
structure Consistent (s : Sched) : Prop where
  /-- A thread that is ready is in one run queue, that of its level, and there once. -/
  ready : ∀ t, (s.thread t).state = .ready → ∀ l : Level,
    (s.runq.queue l).count t = if (s.thread t).currentLevel.toNat = l then 1 else 0
  /-- One thread runs, the current one. -/
  running : ∃ c, s.current = some c ∧ ∀ t, (s.thread t).state = .running ↔ t = c
  /-- No other thread is in a run queue. -/
  absent : ∀ t, (s.thread t).state ≠ .ready → ∀ l, t ∉ s.runq.queue l
  level : ∀ t, (s.thread t).currentLevel.toNat < mlfqLevels
  quantum : ∀ t, (s.thread t).state = .ready ∨ (s.thread t).state = .running →
    ∀ l : Level, (s.thread t).currentLevel.toNat = l →
      1 ≤ (s.thread t).timeQuantumLeft ∧ (s.thread t).timeQuantumLeft ≤ quantumTicks l

/-- The invariant says what consistency does. -/
theorem Good.consistent (h : s.Good) : s.Consistent := by
  obtain ⟨c, hc⟩ := Option.ne_none_iff_exists'.mp h.current
  refine ⟨fun t ht l => ?_, ⟨c, hc, fun t => ?_⟩, fun t ht l => ?_, h.queues.bound,
    fun t ht l hl => ?_⟩
  -- a ready thread is on one queue, which is that of its level
  · obtain ⟨g, hg⟩ := Option.isSome_iff_exists.mp ((h.queues.ready t).mp ht)
    have hlevel := h.queues.level t g hg
    split
    next hl =>
      obtain rfl : g = l := Fin.ext (hlevel.symm.trans hl)
      exact List.count_eq_one_of_mem (s.runq.nodup g) ((s.runq.mem_queue g t).mpr hg)
    next hl =>
      rw [List.count_eq_zero, s.runq.mem_queue, hg]
      rintro hgl
      cases hgl
      exact hl hlevel
  · rw [h.runs t, hc, Option.some.injEq, eq_comm]
  · exact ListStore.notMem_queue (h.queues.home ht) l
  · obtain ⟨hb, hpos, hle⟩ := h.queues.quantum t ht
    obtain rfl : (⟨_, hb⟩ : Level) = l := Fin.ext hl
    exact ⟨hpos, hle⟩

/-- Before `sched_boot` the run queues are right and no thread runs. -/
theorem BeforeBoot.queued (h : BeforeBoot s) : s.Queued Levelled ∧ s.Runs none := by
  induction h with
  | init hthread hrunq _ =>
      refine ⟨queued_iff.mpr ⟨fun t => ?_, fun t l hl => ?_, fun t => ?_, fun t ht => ?_⟩,
        fun t => ?_⟩
      · simp [hthread t, hrunq, ListStore.empty]
      · simp [hrunq, ListStore.empty] at hl
      · simp [hthread t]
      · simp [hthread t] at ht
      · simp [hthread t]
  | @enqueue s s' t _ ht henqueue ih =>
      obtain ⟨hqueued, hruns⟩ := ih
      obtain ⟨s', hs', hqueued', -, hstate⟩ :=
        hqueued.schedEnqueue (t := t) closed_levelled (by simp [ht])
      -- `sched_enqueue` has one result, so it is the one that the specification speaks of
      rw [henqueue] at hs'
      cases hs'
      refine ⟨hqueued', fun u => ?_⟩
      rw [hstate, ← hruns u]
      split
      next hu => simp [hu, ht]
      next => rfl

/-- The state that `sched_boot` leaves when it finds a thread. -/
theorem BeforeBoot.good (h : BeforeBoot s) (hnext : s.nextThread ≠ none)
    (hboot : s.schedBoot = some s') : s'.GoodFor Levelled := by
  obtain ⟨hqueued, hruns⟩ := h.queued
  obtain ⟨hnone, -⟩ | ⟨t, s₁, -, hpick, hqueued', hruns', -⟩ := hqueued.pick closed_levelled hruns
  · exact absurd hnone hnext
  · simp only [schedBoot, hpick, Option.bind_eq_bind, Option.bind_some, Option.pure_def,
      Option.some.injEq] at hboot
    rw [← hboot]
    exact ⟨hqueued', hruns', by simp [run]⟩

/-- The invariant holds in every state of a run, by induction on it. -/
theorem Run.good (h : Run s) : s.Good := by
  induction h with
  | boot hbefore hnext hboot => exact goodFor_iff.mp (hbefore.good hnext hboot)
  | exec _ hop hexec ih =>
      obtain ⟨out, hout, hgood⟩ := ih.exec hop
      rw [hexec] at hout
      cases hout
      exact hgood _ rfl

/-- In every state reached from the one `sched_boot` leaves, the threads and the run queues agree,
and every call that is allowed there succeeds or halts the CPU. -/
theorem consistent_of_run {s : Sched} (h : Run s) :
    s.Consistent ∧ ∀ op, s.Allowed op → ∃ out, s.exec op = some out := by
  refine ⟨h.good.consistent, fun op hop => ?_⟩
  obtain ⟨out, hout, -⟩ := h.good.exec hop
  exact ⟨out, hout⟩

/-- Threads that have been created. -/
def created : Sched where
  thread _ := { state := .created, currentLevel := 0, timeQuantumLeft := 0, totalCpuTime := 0 }
  runq := ListStore.empty
  current := none
  ticks := 0

/-- Thread 1 uses up its quantum, and thread 2 runs. -/
theorem consistent_of_run_two : ∃ s, Run s ∧ s.current = some 2 ∧ s.Consistent := by
  have hcheck : ((created.schedEnqueue 1).any fun s₁ => (s₁.schedEnqueue 2).any fun s₂ =>
      (s₁.thread 2).state = .created ∧ s₂.nextThread ≠ none ∧ s₂.schedBoot.any fun s₃ =>
        s₃.schedTick.any fun s₄ => s₄.current = some 2) = true := by
    decide +kernel
  obtain ⟨s₁, h₁, hcheck⟩ := (Option.any_eq_true _ _).mp hcheck
  obtain ⟨s₂, h₂, hcheck⟩ := (Option.any_eq_true _ _).mp hcheck
  obtain ⟨hcreated, hnext, hcheck⟩ := of_decide_eq_true hcheck
  obtain ⟨s₃, h₃, hcheck⟩ := (Option.any_eq_true _ _).mp hcheck
  obtain ⟨s₄, h₄, hcheck⟩ := (Option.any_eq_true _ _).mp hcheck
  have hbefore : BeforeBoot s₁ := .enqueue (.init (fun _ => ⟨rfl, rfl⟩) rfl rfl) rfl h₁
  have hboot : Run s₃ := .boot (hbefore.enqueue hcreated h₂) hnext h₃
  have htick : s₃.exec .tick = some (.runs s₄) := by rw [Sched.exec, h₄]; rfl
  have hrun : Run s₄ := .exec hboot (show s₃.Allowed .tick from trivial) htick
  exact ⟨s₄, hrun, of_decide_eq_true hcheck, (consistent_of_run hrun).1⟩

end Sched

end Koharu
