import Koharu.Lib.Traced
import Koharu.Task.SchedInvariant

/-!
# The order after a boost

`sched_boost` puts all threads on the first run queue. From then on threads are only added to the
back of that queue, and `sched_pick` serves it first, so that the threads that were on it after the
boost run in their order, whatever happens meanwhile. The one exception is `sched_dequeue`.

What `sched_pick` returns is recorded as the log of `Traced` computations; without the log they are
the functions of `Koharu.Task.Sched`.

* `pick_order_of_run`: the result for whole runs.
-/

namespace Koharu

namespace Sched

open Traced

/-! ### The calls, with what `sched_pick` returns in them

The functions once more, with a log of the threads that are picked. They do what the functions of
the scheduler do. -/

/-- `sched_pick`. A thread that it returns is recorded. -/
def pickT (s : Sched) : Traced Tid (Option Tid × Sched) := do
  let (t, s) ← lift s.schedPick
  tell t.toList
  return (t, s)

/-- The rest of `sched_tick`, from where the boost may have been. -/
def afterBoost (curExhausted : Bool) (s : Sched) : Traced Tid Sched :=
  if !curExhausted then return s
  else do
    match ← s.pickT with
    | (none, s) => return s
    | (some next, s) => return s.run next

/-- `sched_tick`. -/
def tickT (s : Sched) : Traced Tid Sched := do
  let (curExhausted, s) ← lift s.chargeTick
  let s ← lift s.countTick
  s.afterBoost curExhausted

/-- `sched_yield`. -/
def yieldT (s : Sched) : Traced Tid Sched := do
  let cur ← lift s.current
  let level ← lift (s.levelOf cur)
  let s := s.modify cur fun th => { th with timeQuantumLeft := quantumTicks level, state := .ready }
  let s ← lift (s.pushBack cur level)
  match ← s.pickT with
  | (none, s) => return s.run cur
  | (some next, s) => return s.run next

/-- `sched_block` and `sched_exit`. -/
def leaveT (s : Sched) (state : ThreadState) : Traced Tid Outcome := do
  let cur ← lift s.current
  let s := s.modify cur fun th => { th with state }
  match ← s.pickT with
  | (none, _) => return .halts
  | (some next, s) => return .runs (s.run next)

/-- A call of the scheduler. -/
def execT (s : Sched) : Op → Traced Tid Outcome
  | .tick => do
      let s ← s.tickT
      return .runs s
  | .yield => do
      let s ← s.yieldT
      return .runs s
  | .block => s.leaveT .blocked
  | .exit => s.leaveT .terminated
  | op => lift (s.exec op)

variable {s s' s₀ : Sched}

/-- The traced pick is `sched_pick`. -/
theorem pickT_val (s : Sched) : s.pickT.val = s.schedPick := by
  rw [pickT, val_bind, lift_val]
  cases s.schedPick <;> rfl

/-- Without the log, `sched_tick`. -/
theorem tickT_val (s : Sched) : s.tickT.val = s.schedTick := by
  rw [tickT, val_bind, lift_val, schedTick]
  -- the traced tick takes the same steps, and tells what it picks
  cases s.chargeTick with
  | none => rfl
  | some x =>
      obtain ⟨curExhausted, s₁⟩ := x
      simp only [Option.bind_some, Option.bind_eq_bind, val_bind, lift_val]
      cases s₁.countTick with
      | none => rfl
      | some s₂ =>
          rw [Option.bind_some, Option.bind_some, afterBoost]
          cases curExhausted with
          | false => rfl
          | true =>
              simp only [Bool.not_true, Bool.false_eq_true, if_false, val_bind, pickT_val]
              rcases s₂.schedPick with _ | ⟨_ | t, s₃⟩ <;> rfl

/-- Without the log, `sched_yield`. -/
theorem yieldT_val (s : Sched) : s.yieldT.val = s.schedYield := by
  rw [yieldT, val_bind, lift_val, schedYield]
  cases s.current with
  | none => rfl
  | some cur =>
      simp only [Option.bind_some, Option.bind_eq_bind, val_bind, lift_val]
      cases s.levelOf cur with
      | none => rfl
      | some level =>
          simp only [Option.bind_some, pickT_val]
          rcases pushBack _ cur level with _ | s₁
          · rfl
          · rw [Option.bind_some, Option.bind_some]
            rcases s₁.schedPick with _ | ⟨_ | t, s₂⟩ <;> rfl

/-- Without the log, `sched_block` and `sched_exit`. -/
theorem leaveT_val (s : Sched) (state : ThreadState) : (s.leaveT state).val = s.leave state := by
  rw [leaveT, val_bind, lift_val, leave]
  cases s.current with
  | none => rfl
  | some cur =>
      simp only [Option.bind_some, Option.bind_eq_bind, val_bind, pickT_val]
      rcases schedPick _ with _ | ⟨_ | t, s₁⟩ <;> rfl

/-- The traced call is the call. -/
theorem execT_val (s : Sched) (op : Op) : (s.execT op).val = s.exec op := by
  cases op with
  | tick =>
      rw [execT, val_bind, tickT_val, exec]
      cases s.schedTick <;> rfl
  | yield =>
      rw [execT, val_bind, yieldT_val, exec]
      cases s.schedYield <;> rfl
  | block => exact leaveT_val s .blocked
  | exit => exact leaveT_val s .terminated
  | enqueue t | wakeup t | dequeue t => rfl

/-! ### The boost

All queues are appended to the first one, which keeps the order inside of each. -/

/-- The loops of `sched_boost`. -/
theorem exists_boostQueues (s : Sched) : ∃ s', [1, 2, 3].foldlM (fun (s : Sched) level =>
      boostQueue level (s.runq.queue level).length s) s = some s' ∧
    (∀ l, s'.runq.queue l = if l = 0 then
      s.runq.queue 0 ++ s.runq.queue 1 ++ s.runq.queue 2 ++ s.runq.queue 3 else []) ∧
    ∀ t, (∃ l ≠ 0, t ∈ s.runq.queue l) → (s'.thread t).currentLevel = 0 := by
  obtain ⟨s₁, hs₁, hqueue₁, hthread₁⟩ := exists_boostQueue (l := 1) (by decide) _ s le_rfl
  obtain ⟨s₂, hs₂, hqueue₂, hthread₂⟩ := exists_boostQueue (l := 2) (by decide) _ s₁ le_rfl
  obtain ⟨s₃, hs₃, hqueue₃, hthread₃⟩ := exists_boostQueue (l := 3) (by decide) _ s₂ le_rfl
  refine ⟨s₃, ?_, fun l => ?_, fun t ht => ?_⟩
  · simp [hs₁, hs₂, hs₃]
  · revert l
    simp only [Fin.forall_fin_succ]
    simp [hqueue₁, hqueue₂, hqueue₃]
  · have hmem : t ∈ s.runq.queue 1 ∨ t ∈ s.runq.queue 2 ∨ t ∈ s.runq.queue 3 := by
      obtain ⟨l, hl, hmem⟩ := ht
      revert l
      simp only [Fin.forall_fin_succ]
      simp
      tauto
    have hqueue₂' : s₁.runq.queue 2 = s.runq.queue 2 := by simp [hqueue₁]
    have hqueue₃' : s₂.runq.queue 3 = s.runq.queue 3 := by simp [hqueue₂, hqueue₁]
    rw [hthread₃, hthread₂, hthread₁, hqueue₃', hqueue₂']
    -- the last loop that the thread is moved in sets its level
    split_ifs with h₃ h₂ h₁ h₁ h₂ h₁ h₁
    all_goals first | rfl | exact absurd hmem (by simp [*])

/-- `sched_boost` moves all threads to the first queue, one queue behind the other. -/
theorem exists_schedBoost (s : Sched) : ∃ s', s.schedBoost = some s' ∧
    (∀ l, s'.runq.queue l = if l = 0 then
      s.runq.queue 0 ++ s.runq.queue 1 ++ s.runq.queue 2 ++ s.runq.queue 3 else []) ∧
    ∀ t, (∃ l ≠ 0, t ∈ s.runq.queue l) → (s'.thread t).currentLevel = 0 := by
  cases hcurrent : s.current with
  | none =>
      obtain ⟨s', hs', hrest⟩ := s.exists_boostQueues
      exact ⟨s', by rw [schedBoost, hcurrent]; exact hs', hrest⟩
  | some c =>
      obtain ⟨s', hs', hrest⟩ := (s.modify c toTop).exists_boostQueues
      exact ⟨s', by rw [schedBoost, hcurrent]; exact hs', hrest⟩

/-! ### Nothing comes in between

What is put on the first queue later comes behind, and what is on a lower one has to wait. -/

/-- What was on the first queue has been picked, or is still at the front of it. -/
def Grows (s : Sched) (log : List Tid) (s' : Sched) : Prop :=
  s.runq.queue top <+: log ++ s'.runq.queue top

/-- Written out: the queue of the top level is what was picked, followed by a part of the new queue.
-/
theorem grows_iff {log : List Tid} :
    Grows s log s' ↔ s.runq.queue 0 <+: log ++ s'.runq.queue 0 :=
  Iff.rfl

/-- Two steps in a row, with both logs. -/
theorem Grows.trans {s₁ : Sched} {log log' : List Tid} (h : Grows s log s₁)
    (h' : Grows s₁ log' s') : Grows s (log ++ log') s' := by
  rw [grows_iff, List.append_assoc]
  exact List.IsPrefix.trans h ((List.prefix_append_right_inj log).mpr h')

/-- A step that leaves the top queue picks nothing from it. -/
theorem grows_of_queue_eq (h : s'.runq.queue 0 = s.runq.queue 0) : Grows s [] s' := by
  rw [grows_iff, List.nil_append, h]

/-- A thread put at the end of a queue comes behind those that wait. -/
theorem grows_pushBack {t : Tid} {l : Level} (h : s.pushBack t l = some s') : Grows s [] s' := by
  obtain ⟨runq, hpush, h⟩ := Option.bind_eq_some_iff.mp h
  obtain rfl := Option.some.inj h
  by_cases hhome : s.runq.home t = none
  · rw [ListStore.pushBack_eq_some l hhome] at hpush
    obtain rfl := Option.some.inj hpush
    rw [grows_iff, List.nil_append, ListStore.snocAt_queue_apply]
    split
    next hl =>
      rw [← hl]
      exact List.prefix_append _ _
    next => exact List.prefix_rfl
  · rw [ListStore.pushBack_eq_none l hhome] at hpush
    cases hpush

/-- The boost puts the other levels behind the top queue. -/
theorem grows_schedBoost (h : s.schedBoost = some s') : Grows s [] s' := by
  obtain ⟨s'', hs'', hqueue, -⟩ := s.exists_schedBoost
  obtain rfl := Option.some.inj (h.symm.trans hs'')
  rw [grows_iff, List.nil_append, hqueue, if_pos rfl, List.append_assoc, List.append_assoc]
  exact List.prefix_append _ _

/-- `sched_pick` takes the first thread of the first queue, if there is one. -/
theorem grows_pickT {o : Option Tid} (h : s.pickT.val = some (o, s')) :
    s.pickT.log = o.toList ∧ Grows s o.toList s' := by
  rw [pickT_val] at h
  refine ⟨?_, ?_⟩
  · rw [pickT, log_bind (x := lift s.schedPick) h]
    simp [log_bind (x := tell o.toList) (a := ()) rfl]
  · rw [schedPick] at h
    split at h
    next hnone =>
      obtain ⟨rfl, rfl⟩ := Prod.mk.inj (Option.some.inj h)
      exact grows_of_queue_eq rfl
    next t hnext =>
      obtain ⟨s₁, hunlink, h⟩ := Option.bind_eq_some_iff.mp h
      obtain ⟨rfl, rfl⟩ := Prod.mk.inj (Option.some.inj h)
      obtain ⟨runq, hrunq, hs₁⟩ := Option.bind_eq_some_iff.mp hunlink
      obtain rfl := Option.some.inj hs₁
      -- the thread is the first of level 0, unless nobody is ready there
      cases hqueue : s.runq.queue 0 with
      | nil =>
          rw [grows_iff, hqueue]
          exact List.nil_prefix
      | cons t' rest =>
          have hfirst : s.nextThread = some t' := by
            rw [nextThread, List.finRange_succ, List.findSome?_cons, hqueue]
            rfl
          obtain rfl : t' = t := Option.some.inj (hfirst.symm.trans hnext)
          have hhome : s.runq.home t' = some 0 :=
            ListStore.home_of_mem (hqueue ▸ List.mem_cons_self)
          rw [ListStore.unlink_eq_some hhome] at hrunq
          obtain rfl := Option.some.inj hrunq
          rw [grows_iff, ListStore.eraseAt_queue_apply, if_pos rfl, hqueue, List.erase_cons_head]
          exact List.prefix_rfl

/-- The switch after a boost takes the first of the top queue. -/
theorem grows_afterBoost {curExhausted : Bool} (h : (s.afterBoost curExhausted).val = some s') :
    Grows s (s.afterBoost curExhausted).log s' := by
  cases curExhausted with
  | false =>
      obtain rfl := Option.some.inj h
      exact grows_of_queue_eq rfl
  | true =>
      rw [afterBoost, if_neg (by simp)] at h ⊢
      rw [val_bind] at h
      obtain ⟨⟨o, s₁⟩, hpick, h⟩ := Option.bind_eq_some_iff.mp h
      obtain ⟨hlog, hgrows⟩ := grows_pickT hpick
      rw [log_bind hpick, hlog]
      -- a thread picked was the first of its queue
      cases o with
      | none =>
          obtain rfl := Option.some.inj h
          simpa using hgrows
      | some t =>
          obtain rfl := Option.some.inj h
          have hrun : Grows s [t] (s₁.run t) := hgrows
          simpa using hrun

/-- Charging a tick moves no thread in the top queue. -/
theorem grows_chargeTick {exhausted : Bool} (h : s.chargeTick = some (exhausted, s')) :
    Grows s [] s' := by
  rw [chargeTick] at h
  split at h
  · obtain ⟨-, rfl⟩ := Prod.mk.inj (Option.some.inj h)
    exact grows_of_queue_eq rfl
  · split at h
    · dsimp only at h
      split at h
      · obtain ⟨level, -, h⟩ := Option.bind_eq_some_iff.mp h
        obtain ⟨s₁, hpush, h⟩ := Option.bind_eq_some_iff.mp h
        obtain ⟨-, rfl⟩ := Prod.mk.inj (Option.some.inj h)
        -- the level goes up without a queue changing; then the thread is put at the end
        refine Grows.trans (grows_of_queue_eq ?_) (grows_pushBack hpush)
        split <;> rfl
      · obtain ⟨-, rfl⟩ := Prod.mk.inj (Option.some.inj h)
        exact grows_of_queue_eq rfl
    · obtain ⟨-, rfl⟩ := Prod.mk.inj (Option.some.inj h)
      exact grows_of_queue_eq rfl

/-- Counting a tick may boost. -/
theorem grows_countTick (h : s.countTick = some s') : Grows s [] s' := by
  rw [countTick] at h
  split at h
  · refine Grows.trans (grows_of_queue_eq ?_) (grows_schedBoost h)
    rfl
  · obtain rfl := Option.some.inj h
    exact grows_of_queue_eq rfl

/-- `sched_tick` keeps the order of the top queue. -/
theorem grows_tickT (h : s.tickT.val = some s') : Grows s s.tickT.log s' := by
  rw [tickT, val_bind, lift_val] at h
  obtain ⟨⟨exhausted, s₁⟩, hcharge, h⟩ := Option.bind_eq_some_iff.mp h
  rw [val_bind, lift_val] at h
  obtain ⟨s₂, hcount, h⟩ := Option.bind_eq_some_iff.mp h
  rw [tickT, log_bind (x := lift s.chargeTick) hcharge, log_bind (x := lift s₁.countTick) hcount]
  exact (grows_chargeTick hcharge).trans ((grows_countTick hcount).trans (grows_afterBoost h))

/-- `sched_yield` does, too. -/
theorem grows_yieldT (h : s.yieldT.val = some s') : Grows s s.yieldT.log s' := by
  rw [yieldT, val_bind, lift_val] at h
  obtain ⟨c, hcur, h⟩ := Option.bind_eq_some_iff.mp h
  rw [val_bind, lift_val] at h
  obtain ⟨level, hlevel, h⟩ := Option.bind_eq_some_iff.mp h
  rw [val_bind, lift_val] at h
  obtain ⟨s₁, hpush, h⟩ := Option.bind_eq_some_iff.mp h
  rw [val_bind] at h
  obtain ⟨⟨o, s₂⟩, hpick, h⟩ := Option.bind_eq_some_iff.mp h
  rw [yieldT, log_bind (x := lift s.current) hcur, log_bind (x := lift (s.levelOf c)) hlevel]
  dsimp only
  rw [log_bind (x := lift (pushBack _ c level)) hpush, log_bind hpick]
  obtain ⟨hlog, hgrows⟩ := grows_pickT hpick
  -- the caller goes to the end of its list before another thread is picked
  have hpushed : Grows s [] s₁ := by
    refine Grows.trans (grows_of_queue_eq ?_) (grows_pushBack hpush)
    rfl
  have hall := hpushed.trans hgrows
  rw [hlog]
  cases o with
  | none =>
      obtain rfl := Option.some.inj h
      have hrun : Grows s [] (s₂.run c) := hall
      simpa using hrun
  | some t =>
      obtain rfl := Option.some.inj h
      have hrun : Grows s [t] (s₂.run t) := hall
      simpa using hrun

/-- So does the switch from a thread that blocks or ends. -/
theorem grows_leaveT {state : ThreadState} (h : (s.leaveT state).val = some (.runs s')) :
    Grows s (s.leaveT state).log s' := by
  rw [leaveT, val_bind, lift_val] at h
  obtain ⟨c, hcur, h⟩ := Option.bind_eq_some_iff.mp h
  rw [val_bind] at h
  obtain ⟨⟨o, s₁⟩, hpick, h⟩ := Option.bind_eq_some_iff.mp h
  rw [leaveT, log_bind (x := lift s.current) hcur, log_bind hpick]
  obtain ⟨hlog, hgrows⟩ := grows_pickT hpick
  rw [hlog]
  cases o with
  | none => cases h
  | some t =>
      cases h
      have hrun : Grows s [t] (s₁.run t) := hgrows
      simpa using hrun

/-- So does `sched_enqueue`. -/
theorem grows_schedEnqueue {t : Tid} (h : s.schedEnqueue t = some s') : Grows s [] s' := by
  unfold schedEnqueue at h
  refine Grows.trans (grows_of_queue_eq ?_) (grows_pushBack h)
  rfl

/-- Every call but `sched_dequeue` serves the first queue in order. -/
theorem grows_execT {op : Op} (hop : ∀ t, op ≠ .dequeue t)
    (h : (s.execT op).val = some (.runs s')) : Grows s (s.execT op).log s' := by
  -- every operation but `sched_dequeue` takes from the front and adds at the end
  cases op with
  | tick =>
      rw [execT, val_bind] at h
      obtain ⟨s₁, htick, h⟩ := Option.bind_eq_some_iff.mp h
      cases h
      rw [execT, log_bind htick]
      simpa using grows_tickT htick
  | yield =>
      rw [execT, val_bind] at h
      obtain ⟨s₁, hyield, h⟩ := Option.bind_eq_some_iff.mp h
      cases h
      rw [execT, log_bind hyield]
      simpa using grows_yieldT hyield
  | block => exact grows_leaveT h
  | exit => exact grows_leaveT h
  | enqueue t | wakeup t =>
      obtain ⟨s₁, henqueue, h⟩ := Option.map_eq_some_iff.mp h
      cases h
      exact grows_schedEnqueue henqueue
  | dequeue t => exact absurd rfl (hop t)

/-! ### Whole runs

So the threads are picked in the order of the queue, however the calls are mixed. -/

/-- The states that calls other than `sched_dequeue` reach from the one that `sched_boost` has left,
with the threads that `sched_pick` has returned. Where the boost was that of `sched_tick`, the rest
of it comes first. -/
inductive RunFrom (s₀ : Sched) : Sched → List Tid → Prop
  | boosted : RunFrom s₀ s₀ []
  | rest {s : Sched} {curExhausted : Bool} (h : (s₀.afterBoost curExhausted).val = some s) :
      RunFrom s₀ s (s₀.afterBoost curExhausted).log
  | exec {s s' : Sched} {picked : List Tid} {op : Op} (h : RunFrom s₀ s picked)
      (hop : ∀ t, op ≠ .dequeue t) (hexec : (s.execT op).val = some (.runs s')) :
      RunFrom s₀ s' (picked ++ (s.execT op).log)

/-- A run picks the threads of the top queue in their order, by induction on the run. -/
theorem RunFrom.grows {picked : List Tid} (h : RunFrom s₀ s picked) : Grows s₀ picked s := by
  induction h with
  | boosted => exact grows_of_queue_eq rfl
  | rest h => exact grows_afterBoost h
  | exec _ hop hexec ih => exact ih.trans (grows_execT hop hexec)

/-- `sched_boost` moves all threads to the first run queue, at level 0, and the threads that are on
it then are picked one after the other, before any other. -/
theorem pick_order_of_run (s : Sched) : ∃ s₀, s.schedBoost = some s₀ ∧
    (s₀.runq.queue 0 = s.runq.queue 0 ++ s.runq.queue 1 ++ s.runq.queue 2 ++ s.runq.queue 3 ∧
      ∀ l, l ≠ 0 → s₀.runq.queue l = []) ∧
    (∀ t, (∃ l ≠ 0, t ∈ s.runq.queue l) → (s₀.thread t).currentLevel = 0) ∧
    ∀ s' picked, RunFrom s₀ s' picked → ∀ i, i < (s₀.runq.queue 0).length → i < picked.length →
      picked[i]? = (s₀.runq.queue 0)[i]? := by
  obtain ⟨s₀, hs₀, hqueue, hlevel⟩ := s.exists_schedBoost
  refine ⟨s₀, hs₀, ⟨by rw [hqueue, if_pos rfl], fun l hl => by rw [hqueue, if_neg hl]⟩, hlevel,
    fun s' picked hrun i hi hpicked => ?_⟩
  obtain ⟨l, hl⟩ := grows_iff.mp hrun.grows
  rw [← List.getElem?_append_left hpicked, ← hl, List.getElem?_append_left hi]

/-- Thread 1 has been moved to the second run queue, and runs after the boost when thread 2
yields. -/
theorem pick_order_of_run_two : ∃ s s₀ s' : Sched, s.schedBoost = some s₀ ∧ s.runq.queue 1 = [1] ∧
    RunFrom s₀ s' [1] ∧ (s₀.thread 1).currentLevel = 0 ∧ some 1 = (s₀.runq.queue 0)[0]? := by
  -- thread 1 is alone on the second queue when the boost comes
  have hcheck : ((created.schedEnqueue 1).any fun s₁ => (s₁.schedEnqueue 2).any fun s₂ =>
      s₂.schedBoot.any fun s₃ => s₃.schedTick.any fun s => s.runq.queue 1 = [1] ∧
        s.schedBoost.any fun s₀ => (s₀.runq.queue 0).length = 1 ∧ (s₀.execT .yield).log = [1] ∧
          s₀.yieldT.val.isSome) = true := by
    decide +kernel
  obtain ⟨s₁, -, hcheck⟩ := (Option.any_eq_true _ _).mp hcheck
  obtain ⟨s₂, -, hcheck⟩ := (Option.any_eq_true _ _).mp hcheck
  obtain ⟨s₃, -, hcheck⟩ := (Option.any_eq_true _ _).mp hcheck
  obtain ⟨s, -, hcheck⟩ := (Option.any_eq_true _ _).mp hcheck
  obtain ⟨hqueue, hcheck⟩ := of_decide_eq_true hcheck
  obtain ⟨s₀, hboost, hcheck⟩ := (Option.any_eq_true _ _).mp hcheck
  obtain ⟨hlength, hlog, hsome⟩ := of_decide_eq_true hcheck
  obtain ⟨s', hyield⟩ := Option.isSome_iff_exists.mp hsome
  have hexec : (s₀.execT .yield).val = some (.runs s') := by rw [execT, val_bind, hyield]; rfl
  -- the yield after the boost picks thread 1 at once
  have hrun : RunFrom s₀ s' ([] ++ (s₀.execT .yield).log) := .exec .boosted (by simp) hexec
  rw [hlog, List.nil_append] at hrun
  obtain ⟨s₀', hboost', -, hlevel, horder⟩ := pick_order_of_run s
  obtain rfl : s₀ = s₀' := Option.some.inj (hboost.symm.trans hboost')
  exact ⟨s, s₀, s', hboost, hqueue, hrun, hlevel 1 ⟨1, by decide, by simp [hqueue]⟩,
    horder s' [1] hrun 0 (by omega) Nat.one_pos⟩

end Sched

end Koharu
