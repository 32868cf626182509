import Koharu.Task.Sched

/-!
# The run queues

A thread is on a run queue if and only if it is ready. What else holds of a thread and of the queue
it is on is a parameter, the rule `R`: `Queued R` holds in every state of the scheduler as long as
`R` is kept by the few things that the scheduler does to one thread, which are the fields of
`Closed R`.

`Runs` names the thread that runs, if any does. Each function of the scheduler has a lemma that says
that it succeeds and what becomes of the two.
-/

namespace Koharu

namespace Sched

variable {s s' : Sched} {t u : Tid}

/-- The record of a thread after a change to one of them. -/
@[simp]
theorem modify_thread (s : Sched) (t u : Tid) (f : SchedThread → SchedThread) :
    (s.modify t f).thread u = if u = t then f (s.thread t) else s.thread u :=
  Function.update_apply ..

/-- A change of a record leaves the run queues. -/
@[simp]
theorem modify_runq (s : Sched) (t : Tid) (f : SchedThread → SchedThread) :
    (s.modify t f).runq = s.runq := rfl

/-- Nor does it change which thread runs. -/
@[simp]
theorem modify_current (s : Sched) (t : Tid) (f : SchedThread → SchedThread) :
    (s.modify t f).current = s.current := rfl

/-- What holds of a thread and the run queue it is on, if it is on one. -/
abbrev Rule := SchedThread → Option Level → Prop

/-- A rule that the scheduler keeps. -/
structure Closed (R : Rule) : Prop where
  /-- Levels are indices where they are used as such. -/
  bound : ∀ {th o}, R th o → th.state = .ready ∨ th.state = .running →
    th.currentLevel.toNat < mlfqLevels
  /-- It holds of a thread with a full quantum. -/
  full : ∀ {th o} {l : Level}, th.currentLevel.toNat = (l : ℕ) →
    th.timeQuantumLeft = quantumTicks l →
    o = none ∨ o = some l → R th o
  /-- It goes on to hold when a thread leaves its queue or the CPU. -/
  leave : ∀ {th o} {st : ThreadState}, R th o → th.state = .ready ∨ th.state = .running →
    st ≠ .ready → R { th with state := st } none
  /-- It goes on to hold at a tick that does not use up the quantum. -/
  tick : ∀ {th}, R th none → th.state = .running → th.timeQuantumLeft - 1 ≠ 0 →
    R { th with
      totalCpuTime := th.totalCpuTime + 1
      timeQuantumLeft := th.timeQuantumLeft - 1 } none

/-- The run queues hold the threads that are ready, and all threads obey the rule. -/
structure Queued (R : Rule) (s : Sched) : Prop where
  ready : ∀ t, (s.thread t).state = .ready ↔ (s.runq.home t).isSome
  rule : ∀ t, R (s.thread t) (s.runq.home t)

/-- The thread that runs. -/
def Runs (s : Sched) (c : Option Tid) : Prop := ∀ t, (s.thread t).state = .running ↔ c = some t

section Linking

variable {R : Rule}

/-- A thread that is not ready is in no queue. -/
theorem Queued.home (h : s.Queued R) (ht : (s.thread t).state ≠ .ready) : s.runq.home t = none := by
  rw [← Option.not_isSome_iff_eq_none, ← h.ready t]
  exact ht

/-- The run queues after one thread has been changed and moved. -/
theorem Queued.update (h : s.Queued R) (hready : (s'.thread t).state = .ready ↔
    (s'.runq.home t).isSome) (hrule : R (s'.thread t) (s'.runq.home t)) (hthread : ∀ u, u ≠ t →
    s'.thread u = s.thread u) (hhome : ∀ u, u ≠ t → s'.runq.home u = s.runq.home u) : s'.Queued
      R := by
  refine ⟨fun u => ?_, fun u => ?_⟩
  all_goals by_cases hut : u = t
  · rw [hut]
    exact hready
  · rw [hthread u hut, hhome u hut]
    exact h.ready u
  · rw [hut]
    exact hrule
  · rw [hthread u hut, hhome u hut]
    exact h.rule u

variable (hR : Closed R)

include hR

/-- A thread that is ready or runs has a level of the queues. -/
theorem Queued.levelOf (h : s.Queued R)
    (ht : (s.thread t).state = .ready ∨ (s.thread t).state = .running) :
    s.levelOf t = some ⟨(s.thread t).currentLevel.toNat, hR.bound (h.rule t) ht⟩ :=
  dif_pos (hR.bound (h.rule t) ht)

/-- A thread that is not ready becomes ready. -/
theorem Queued.push (h : s.Queued R) (ht : (s.thread t).state ≠ .ready)
    {f : SchedThread → SchedThread} {l : Level} (hstate : (f (s.thread t)).state = .ready)
    (hlevel : (f (s.thread t)).currentLevel.toNat = l)
    (hquantum : (f (s.thread t)).timeQuantumLeft = quantumTicks l) :
    ∃ s', (s.modify t f).pushBack t l = some s' ∧ s'.Queued R ∧ s'.current = s.current ∧
      s'.ticks = s.ticks ∧ (∀ u, s'.thread u = (s.modify t f).thread u) ∧
      ∀ g, s'.runq.queue g = if g = l then s.runq.queue l ++ [t] else s.runq.queue g := by
  have hhome := h.home ht
  refine ⟨{ s.modify t f with runq := s.runq.snocAt t l hhome }, ?_, ?_, rfl, rfl, fun _ => rfl,
    fun g => ListStore.snocAt_queue_apply _ _ _ _ hhome⟩
  · rw [pushBack, modify_runq, ListStore.pushBack_eq_some l hhome]
    rfl
  · have hthread : (s.modify t f).thread t = f (s.thread t) := by simp
    -- the thread pushed is the only one that changes, and it is on the queue of its level
    refine h.update (t := t) ?_ ?_ (fun u hu => ?_) fun u hu => ?_
    · simp [hstate]
    · rw [ListStore.snocAt_home, Function.update_self]
      exact hthread ▸ hR.full hlevel hquantum (Or.inr rfl)
    · exact (modify_thread ..).trans (if_neg hu)
    · exact Function.update_of_ne hu ..

/-- A thread that is ready leaves its run queue, in a state that is not ready. -/
theorem Queued.pop (h : s.Queued R) (ht : (s.thread t).state = .ready) (st : ThreadState)
    (hst : st ≠ .ready) :
    ∃ s', s.unlink t = some s' ∧ (s'.modify t fun th => { th with state := st }).Queued R ∧
      s'.current = s.current ∧ s'.ticks = s.ticks ∧ s'.thread = s.thread := by
  obtain ⟨l, hl⟩ := Option.isSome_iff_exists.mp ((h.ready t).mp ht)
  refine ⟨{ s with runq := s.runq.eraseAt t l hl }, ?_, ?_, rfl, rfl, rfl⟩
  · rw [unlink, ListStore.unlink_eq_some hl]
    rfl
  · refine h.update (t := t) ?_ ?_ (fun u hu => ?_) fun u hu => ?_
    · simp [hst]
    · simpa using hR.leave (h.rule t) (Or.inl ht) hst
    · exact (modify_thread ..).trans (if_neg hu)
    · exact Function.update_of_ne hu ..

omit hR in
/-- The thread that `sched_pick` finds is ready. -/
theorem Queued.nextThread (h : s.Queued R) (hnext : s.nextThread = some t) :
    (s.thread t).state = .ready := by
  obtain ⟨l, -, hhead⟩ := List.exists_of_findSome?_eq_some hnext
  rw [h.ready t, ListStore.home_of_mem (List.mem_of_mem_head? hhead)]
  rfl

omit hR in
/-- If there is a thread that is ready, `sched_pick` finds one. -/
theorem Queued.nextThread_ne_none (h : s.Queued R) (ht : (s.thread t).state = .ready) :
    s.nextThread ≠ none := by
  intro hnone
  obtain ⟨l, hl⟩ := Option.isSome_iff_exists.mp ((h.ready t).mp ht)
  have hempty := List.findSome?_eq_none_iff.mp hnone l (List.mem_finRange l)
  rw [List.head?_eq_none_iff] at hempty
  have hmem := (s.runq.mem_queue l t).mpr hl
  rw [hempty] at hmem
  cases hmem

/-- `sched_pick`, and running the thread it finds. -/
theorem Queued.pick (h : s.Queued R) (hruns : s.Runs none) :
    (s.nextThread = none ∧ s.schedPick = some (none, s)) ∨
      ∃ t s', s.nextThread = some t ∧ s.schedPick = some (some t, s') ∧ (s'.run t).Queued R ∧
        (s'.run t).Runs (some t) ∧ ∀ u, (s'.run t).thread u =
          if u = t then { s.thread t with state := .running } else s.thread u := by
  -- with every queue empty nothing is picked; else the first thread of the highest one
  cases hnext : s.nextThread with
  | none =>
      left
      simp [schedPick, hnext]
  | some t =>
      right
      have hready := h.nextThread hnext
      obtain ⟨s', hunlink, hqueued, -, -, hthread⟩ := h.pop hR hready .running (by simp)
      refine ⟨t, s', rfl, by simp [schedPick, hnext, hunlink], ?_, fun u => ?_, fun u => ?_⟩
      · exact ⟨hqueued.ready, hqueued.rule⟩
      · by_cases hut : u = t
        · simp [run, hut]
        · have := hruns u
          simp [run, hut, Ne.symm hut, hthread, this]
      · by_cases hut : u = t <;> simp [run, hut, hthread]

end Linking

/-! ### The boost

Changes of records and changes of queues do not get in each other's way, by which the loops can be
taken apart. -/

/-- Unlinking and a change of a record commute, since only the queues are unlinked from. -/
theorem unlink_modify (s : Sched) (c t : Tid) (f : SchedThread → SchedThread) :
    (s.modify c f).unlink t = (s.unlink t).map (·.modify c f) := by
  rw [unlink, modify_runq, unlink]
  cases s.runq.unlink t <;> rfl

/-- The same for putting a thread at the end of a queue. -/
theorem pushBack_modify (s : Sched) (c t : Tid) (f : SchedThread → SchedThread) (l : Level) :
    (s.modify c f).pushBack t l = (s.pushBack t l).map (·.modify c f) := by
  rw [pushBack, modify_runq, pushBack]
  cases s.runq.pushBack t l <;> rfl

/-- Changes of two records commute when one of them sets what the other does not read. -/
theorem modify_comm (s : Sched) (c t : Tid) (f : SchedThread → SchedThread) :
    (s.modify c f).modify t f = (s.modify t f).modify c f := by
  by_cases htc : t = c
  · rw [htc]
  · simp only [modify, Function.update_of_ne htc, Function.update_of_ne (Ne.symm htc)]
    rw [Function.update_comm htc]

/-- What the loops do does not depend on levels and quanta. -/
theorem boostQueue_modify (c : Tid) (l : Level) (fuel : ℕ) (s : Sched) :
    boostQueue l fuel (s.modify c toTop) = (boostQueue l fuel s).map (·.modify c toTop) := by
  induction fuel generalizing s with
  | zero => rfl
  | succ fuel ih =>
      rw [boostQueue, boostQueue, modify_runq]
      split
      next => rfl
      next t rest _ =>
        rw [unlink_modify]
        -- the thread that is put at the top is on no queue, so that it is not the one modified
        cases s.unlink t with
        | none => rfl
        | some s₁ =>
            simp only [Option.map_some, Option.bind_eq_bind, Option.bind_some]
            rw [modify_comm, pushBack_modify]
            cases (s₁.modify t toTop).pushBack t 0 with
            | none => rfl
            | some s₂ => exact ih s₂

/-- The boost of all queues commutes with moving the current thread to the top. -/
theorem boostQueues_modify (c : Tid) (levels : List Level) (s : Sched) :
    levels.foldlM (fun (s : Sched) l => boostQueue l (s.runq.queue l).length s)
        (s.modify c toTop) =
      (levels.foldlM (fun (s : Sched) l => boostQueue l (s.runq.queue l).length s) s).map
        (·.modify c toTop) := by
  induction levels generalizing s with
  | nil => rfl
  | cons l levels ih =>
      rw [List.foldlM_cons, List.foldlM_cons, modify_runq, boostQueue_modify]
      cases boostQueue l (s.runq.queue l).length s with
      | none => rfl
      | some s₁ => exact ih s₁

/-- The first thread of a queue is moved to the first queue. -/
theorem exists_lift {l : Level} (hl : l ≠ 0) {rest : List Tid}
    (hqueue : s.runq.queue l = t :: rest) :
    ∃ s₁ s', s.unlink t = some s₁ ∧ (s₁.modify t toTop).pushBack t 0 = some s' ∧
      (∀ g, s'.runq.queue g = if g = 0 then s.runq.queue 0 ++ [t] else
        if g = l then rest else s.runq.queue g) ∧
      (∀ u, s'.runq.home u = if u = t then some 0 else s.runq.home u) ∧
      (∀ u, s'.thread u = if u = t then toTop (s.thread t) else s.thread u) ∧
      s'.current = s.current := by
  have ht : s.runq.home t = some l := ListStore.home_of_mem (hqueue ▸ List.mem_cons_self)
  -- off its own queue the thread is on none, so that it can be put at the end of the first
  have hhome : (s.runq.eraseAt t l ht).home t = none := by simp
  refine ⟨{ s with runq := s.runq.eraseAt t l ht },
    { s.modify t toTop with runq := (s.runq.eraseAt t l ht).snocAt t 0 hhome }, ?_, ?_,
    fun g => ?_, fun u => ?_, fun u => modify_thread .., rfl⟩
  · rw [unlink, ListStore.unlink_eq_some ht]
    rfl
  · rw [pushBack, modify_runq, ListStore.pushBack_eq_some 0 hhome]
    rfl
  · rw [ListStore.snocAt_queue_apply, ListStore.eraseAt_queue_apply, if_neg (Ne.symm hl)]
    split
    next => rfl
    next => rw [ListStore.eraseAt_queue_apply, hqueue, List.erase_cons_head]
  · rw [ListStore.snocAt_home_apply, ListStore.eraseAt_home_apply]
    split <;> rfl

/-- The loop of `sched_boost` over one queue: its threads are moved behind those of the first. -/
theorem exists_boostQueue {l : Level} (hl : l ≠ 0) (fuel : ℕ) (s : Sched)
    (hfuel : (s.runq.queue l).length ≤ fuel) : ∃ s', boostQueue l fuel s = some s' ∧
      (∀ g, s'.runq.queue g = if g = 0 then s.runq.queue 0 ++ s.runq.queue l else
        if g = l then [] else s.runq.queue g) ∧
      ∀ t, s'.thread t = if t ∈ s.runq.queue l then toTop (s.thread t) else s.thread t := by
  induction fuel generalizing s with
  | zero =>
      have hempty : s.runq.queue l = [] := List.length_eq_zero_iff.mp (Nat.le_zero.mp hfuel)
      refine ⟨s, rfl, fun g => ?_, fun t => ?_⟩
      · split_ifs with hzero hg
        · rw [hzero, hempty, List.append_nil]
        · rw [hg, hempty]
        · rfl
      · rw [hempty, if_neg List.not_mem_nil]
  | succ fuel ih =>
      rw [boostQueue]
      split
      next hempty =>
        refine ⟨s, rfl, fun g => ?_, fun t => ?_⟩
        · split_ifs with hzero hg
          · rw [hzero, hempty, List.append_nil]
          · rw [hg, hempty]
          · rfl
        · rw [hempty, if_neg List.not_mem_nil]
      next t rest hqueue =>
        -- the first thread is moved; the loop goes on with the rest of the queue
        obtain ⟨s₁, s₂, hunlink, hpush, hqueues, -, hthread, -⟩ := exists_lift hl hqueue
        have hrest : s₂.runq.queue l = rest := by rw [hqueues, if_neg hl, if_pos rfl]
        rw [hqueue, List.length_cons] at hfuel
        obtain ⟨s', hs', hqueues', hthread'⟩ := ih s₂ (by rw [hrest]; omega)
        refine ⟨s', ?_, fun g => ?_, fun u => ?_⟩
        · simp only [hunlink, Option.bind_eq_bind, Option.bind_some, hpush, hs']
        · rw [hqueues', hrest, hqueues 0, if_pos rfl, hqueue]
          split_ifs with hzero hg
          · rw [List.append_assoc, List.singleton_append]
          · rfl
          · rw [hqueues, if_neg hzero, if_neg hg]
        -- a thread is in the queue once, so it is moved once
        · have hnodup := s.runq.nodup l
          rw [hqueue, List.nodup_cons] at hnodup
          rw [hthread', hrest, hthread, hqueue]
          by_cases hu : u = t
          · subst hu
            rw [if_neg hnodup.1, if_pos rfl, if_pos List.mem_cons_self]
          · simp [hu]

/-- A boost changes levels and quanta, and moves threads between the queues. -/
structure Boosts (R : Rule) (s s' : Sched) : Prop where
  queued : s'.Queued R
  state : ∀ t, (s'.thread t).state = (s.thread t).state
  current : s'.current = s.current

section Boost

variable {R : Rule}

/-- The running thread still runs after a boost. -/
theorem Boosts.runs {c : Option Tid} (h : Boosts R s s') (hruns : s.Runs c) : s'.Runs c := by
  intro t
  rw [h.state t]
  exact hruns t

/-- Two boosts in a row are one. -/
theorem Boosts.trans {s'' : Sched} (h : Boosts R s s') (h' : Boosts R s' s'') :
    Boosts R s s'' where
  queued := h'.queued
  state t := (h'.state t).trans (h.state t)
  current := h'.current.trans h.current

variable (hR : Closed R)

include hR

/-- The first thread of a queue is moved to the first queue. -/
theorem Queued.lift (h : s.Queued R) {l : Level} (hl : l ≠ 0) {rest : List Tid}
    (hqueue : s.runq.queue l = t :: rest) :
    ∃ s₁ s', s.unlink t = some s₁ ∧ (s₁.modify t toTop).pushBack t 0 = some s' ∧ Boosts R s s' ∧
      s'.runq.queue l = rest := by
  obtain ⟨s₁, s', hunlink, hpush, hqueues, hhome, hthread, hcurrent⟩ := exists_lift hl hqueue
  refine ⟨s₁, s', hunlink, hpush,
    ⟨?_, fun u => ?_, hcurrent⟩, by rw [hqueues, if_neg hl, if_pos rfl]⟩
  · have ht : s.runq.home t = some l := ListStore.home_of_mem (hqueue ▸ List.mem_cons_self)
    have hready : (s.thread t).state = .ready := (h.ready t).mpr (by rw [ht]; rfl)
    -- the thread lifted is ready, and its new level and quantum are those of the first queue
    refine h.update (t := t) ?_ ?_ (fun u hu => ?_) fun u hu => ?_
    · simp [hthread, hhome, toTop, hready]
    · simpa [hthread, hhome] using hR.full (l := 0) rfl rfl (Or.inr rfl)
    · rw [hthread, if_neg hu]
    · rw [hhome, if_neg hu]
  · rw [hthread]
    split
    next hut => rw [hut, toTop]
    next => rfl

/-- The loop of `sched_boost` over one queue. -/
theorem Queued.boostQueue {l : Level} (hl : l ≠ 0) (fuel : ℕ) (h : s.Queued R)
    (hfuel : (s.runq.queue l).length ≤ fuel) :
    ∃ s', Sched.boostQueue l fuel s = some s' ∧ Boosts R s s' ∧
      ∀ g, s'.runq.queue g = if g = 0 then s.runq.queue 0 ++ s.runq.queue l else
        if g = l then [] else s.runq.queue g := by
  obtain ⟨s', hs', hqueues, -⟩ := exists_boostQueue hl fuel s hfuel
  refine ⟨s', hs', ?_, hqueues⟩
  -- the queues are known already; by induction on the turns the rest is, too
  clear hqueues
  induction fuel generalizing s with
  | zero =>
      cases hs'
      exact ⟨h, fun _ => rfl, rfl⟩
  | succ fuel ih =>
      rw [Sched.boostQueue] at hs'
      split at hs'
      next hempty =>
        cases hs'
        exact ⟨h, fun _ => rfl, rfl⟩
      next t rest hqueue =>
        obtain ⟨s₁, s₂, hunlink, hpush, hboosts, hrest⟩ := h.lift hR hl hqueue
        rw [hqueue, List.length_cons] at hfuel
        simp only [hunlink, Option.bind_eq_bind, Option.bind_some, hpush] at hs'
        exact hboosts.trans (ih hboosts.queued (by rw [hrest]; omega) hs')

/-- The loops of `sched_boost`: all queues end up in the first, one behind the other. -/
theorem Queued.boostQueues (h : s.Queued R) :
    ∃ s', [1, 2, 3].foldlM (fun (s : Sched) level =>
        Sched.boostQueue level (s.runq.queue level).length s) s = some s' ∧ Boosts R s s' ∧
      ∀ g, s'.runq.queue g = if g = 0 then
        s.runq.queue 0 ++ s.runq.queue 1 ++ s.runq.queue 2 ++ s.runq.queue 3 else [] := by
  obtain ⟨s₁, hs₁, hboosts₁, hqueues₁⟩ := h.boostQueue hR (l := 1) (by decide) _ le_rfl
  obtain ⟨s₂, hs₂, hboosts₂, hqueues₂⟩ :=
    hboosts₁.queued.boostQueue hR (l := 2) (by decide) _ le_rfl
  obtain ⟨s₃, hs₃, hboosts₃, hqueues₃⟩ :=
    hboosts₂.queued.boostQueue hR (l := 3) (by decide) _ le_rfl
  refine ⟨s₃, ?_, (hboosts₁.trans hboosts₂).trans hboosts₃, fun g => ?_⟩
  · simp [hs₁, hs₂, hs₃]
  · revert g
    simp only [Fin.forall_fin_succ]
    simp [hqueues₁, hqueues₂, hqueues₃]

/-- Boosting a thread that is in no queue, or in the first. -/
theorem Queued.boostCurrent (h : s.Queued R) (ht : ∀ l, s.runq.home t = some l → l = 0) :
    Boosts R s (s.modify t toTop) := by
  refine ⟨h.update (t := t) ?_ ?_ (fun u hu => ?_) fun _ _ => rfl, fun u => ?_, rfl⟩
  · simpa [toTop] using h.ready t
  · have hhome : s.runq.home t = none ∨ s.runq.home t = some 0 := by
      cases hl : s.runq.home t with
      | none => exact Or.inl rfl
      | some l => exact Or.inr (by rw [ht l hl])
    simpa using hR.full (l := 0) rfl rfl hhome
  · exact (modify_thread ..).trans (if_neg hu)
  · by_cases hut : u = t <;> simp [hut, toTop]

/-- `sched_boost`. -/
theorem Queued.schedBoost (h : s.Queued R) :
    ∃ s', s.schedBoost = some s' ∧ Boosts R s s' ∧ ∀ g, s'.runq.queue g = if g = 0 then
        s.runq.queue 0 ++ s.runq.queue 1 ++ s.runq.queue 2 ++ s.runq.queue 3 else [] := by
  obtain ⟨s', hs', hboosts, hqueues⟩ := h.boostQueues hR
  cases hcurrent : s.current with
  | none => exact ⟨s', by rw [Sched.schedBoost, hcurrent]; exact hs', hboosts, hqueues⟩
  | some c =>
      -- the current thread may be in a queue: its level is set before it is moved
      refine ⟨s'.modify c toTop, ?_,
        hboosts.trans (hboosts.queued.boostCurrent hR fun l hl => ?_), hqueues⟩
      · rw [Sched.schedBoost, hcurrent]
        simp only
        rw [boostQueues_modify, hs']
        rfl
      · by_contra hne
        have hmem := (s'.runq.mem_queue l c).mpr hl
        rw [hqueues, if_neg hne] at hmem
        cases hmem

end Boost

/-! ### Who runs

The current thread is on no run queue, and all that are on one are ready. -/

/-- The run queues are right, and the current thread runs. -/
structure GoodFor (R : Rule) (s : Sched) : Prop where
  queued : s.Queued R
  runs : s.Runs s.current
  current : s.current ≠ none

/-- A thread takes part in the scheduling. -/
def Active (s : Sched) (t : Tid) : Prop :=
  (s.thread t).state = .ready ∨ (s.thread t).state = .running

/-- Threads have taken turns, nothing else has happened to their states. -/
def Turns (s s' : Sched) : Prop :=
  ∀ t, (s'.thread t).state = (s.thread t).state ∨ s.Active t ∧ s'.Active t

/-- Nothing has happened to the order of the threads yet. -/
theorem Turns.refl (s : Sched) : s.Turns s := fun _ => Or.inl rfl

/-- The order is kept over two steps when each of them keeps it. -/
theorem Turns.trans {s'' : Sched} (h : s.Turns s') (h' : s'.Turns s'') : s.Turns s'' := by
  intro t
  rcases h t with hst | ⟨hact, hact'⟩
  · rcases h' t with hst' | ⟨hact', hact''⟩
    · exact Or.inl (hst'.trans hst)
    · rw [Active, hst] at hact'
      exact Or.inr ⟨hact', hact''⟩
  · rcases h' t with hst' | ⟨-, hact''⟩
    · rw [Active, ← hst'] at hact'
      exact Or.inr ⟨hact, hact'⟩
    · exact Or.inr ⟨hact, hact''⟩

/-- The states other than ready and running stay. -/
theorem Turns.state_iff (h : s.Turns s') (t : Tid) {st : ThreadState} (hready : st ≠ .ready)
    (hrunning : st ≠ .running) : (s'.thread t).state = st ↔ (s.thread t).state = st := by
  rcases h t with hst | ⟨hact, hact'⟩
  · rw [hst]
  · refine iff_of_false (fun heq => ?_) fun heq => ?_
    · rw [Active, heq] at hact'
      exact hact'.elim hready hrunning
    · rw [Active, heq] at hact
      exact hact.elim hready hrunning

/-- The thread that runs is in the running state. -/
theorem Runs.state {c : Tid} (h : s.Runs (some c)) : (s.thread c).state = .running :=
  (h c).mpr rfl

/-- When the thread that ran has been given another state, none runs. -/
theorem Runs.leave {c : Tid} (h : s.Runs (some c)) {s' : Sched} (st : ThreadState)
    (hst : st ≠ .running) (hstate : ∀ t, (s'.thread t).state =
      if t = c then st else (s.thread t).state) : s'.Runs none := by
  intro t
  rw [hstate]
  split
  next => simp [hst]
  next ht => simp [h t, Ne.symm ht]

section Functions

variable {R : Rule}

/-- The thread that `sched_pick` finds goes from ready to running. -/
theorem turns_of_run (hready : (s.thread u).state = .ready)
    (hthread : ∀ t, s'.thread t =
    if t = u then { s.thread u with state := .running } else s.thread t) :
    s.Turns s' := by
  intro t
  rw [hthread]
  by_cases ht : t = u
  · subst ht
    refine Or.inr ⟨Or.inl hready, Or.inr ?_⟩
    rw [hthread, if_pos rfl]
  · rw [if_neg ht]
    exact Or.inl rfl

/-- A thread that is not ready is changed, and still is not. -/
theorem Queued.modify (h : s.Queued R) {f : SchedThread → SchedThread}
    (ht : (s.thread t).state ≠ .ready) (hf : (f (s.thread t)).state ≠ .ready)
    (hrule : R (f (s.thread t)) none) : (s.modify t f).Queued R := by
  have hthread : (s.modify t f).thread t = f (s.thread t) := by simp
  refine h.update (t := t) ?_ ?_ (fun u hu => (modify_thread ..).trans (if_neg hu)) fun _ _ => rfl
  · simp [hf, h.home ht]
  · rw [hthread, modify_runq, h.home ht]
    exact hrule

/-- Two changes of one record are one change. -/
@[simp]
theorem modify_modify (s : Sched) (t : Tid) (f g : SchedThread → SchedThread) :
    (s.modify t f).modify t g = s.modify t fun th => g (f th) := by
  simp [Sched.modify]

/-- The level of a thread that has used up its quantum. -/
def lower (th : SchedThread) : SchedThread :=
  if th.currentLevel < 3 then { th with currentLevel := th.currentLevel + 1 } else th

/-- Lowering stays within the levels. -/
theorem lower_bound (th : SchedThread) (h : th.currentLevel.toNat < mlfqLevels) :
    (lower th).currentLevel.toNat < mlfqLevels := by
  rw [lower]
  split
  next hlt =>
    have hlt' : th.currentLevel.toNat < 3 := BitVec.lt_def.mp hlt
    show (th.currentLevel + 1).toNat < 4
    rw [BitVec.toNat_add, show (1 : BitVec 32).toNat = 1 from rfl]
    omega
  next => exact h

/-- The branch of `sched_tick` on the lowest level is the function `lower`. -/
theorem modify_lower (s : Sched) (c : Tid) :
    (if (s.thread c).currentLevel < 3 then
      s.modify c fun th => { th with currentLevel := th.currentLevel + 1 } else s) =
      s.modify c lower := by
  split
  next hlt => simp only [Sched.modify, lower, if_pos hlt]
  next hlt => simp only [Sched.modify, lower, if_neg hlt, Function.update_eq_self]

variable (hR : Closed R)

include hR

/-- Taking the next thread, when there is one. -/
theorem Queued.dispatch (h : s.Queued R) (hruns : s.Runs none) (ht : (s.thread t).state = .ready) :
    ∃ u s', s.schedPick = some (some u, s') ∧ (s'.run u).GoodFor R ∧ s.Turns (s'.run u) := by
  obtain ⟨hnone, -⟩ | ⟨u, s', hnext, hpick, hqueued, hruns', hthread⟩ := h.pick hR hruns
  · exact absurd hnone (h.nextThread_ne_none ht)
  · exact ⟨u, s', hpick,
      ⟨hqueued, hruns', by simp [run]⟩, turns_of_run (h.nextThread hnext) hthread⟩

/-- The first part of `sched_tick`. -/
theorem GoodFor.chargeTick (h : s.GoodFor R) : ∃ exhausted s',
    s.chargeTick = some (exhausted, s') ∧ s'.Queued R ∧ s'.current = s.current ∧ s.Turns s' ∧
    if exhausted then s'.Runs none ∧ ∃ t, (s'.thread t).state = .ready else s'.Runs s.current := by
  obtain ⟨c, hc⟩ := Option.ne_none_iff_exists'.mp h.current
  have hruns := h.runs
  rw [hc] at hruns ⊢
  have hstate := hruns.state
  have hnot : (s.thread c).state ≠ .ready := by simp [hstate]
  have hrule := h.queued.rule c
  rw [h.queued.home hnot] at hrule
  have hlow := hR.bound hrule (Or.inr hstate)
  rw [Sched.chargeTick, hc]
  simp only [hstate, if_true]
  rw [modify_lower]
  split
  next hzero =>
    -- the quantum is used up: one level down, if there is one, and to the end of that queue
    simp only [modify_modify]
    have hbound := lower_bound ({ s.thread c with
      totalCpuTime := (s.thread c).totalCpuTime + 1
      timeQuantumLeft := (s.thread c).timeQuantumLeft - 1 }) hlow
    have hlevel : ∀ f, (s.modify c f).levelOf c =
        if hb : (f (s.thread c)).currentLevel.toNat < mlfqLevels then some ⟨_, hb⟩ else none := by
      intro f
      simp [Sched.levelOf]
    rw [hlevel, dif_pos hbound]
    simp only [Option.bind_eq_bind, Option.bind_some]
    obtain ⟨s', hs', hqueued, hcurrent, -, hthread, -⟩ := h.queued.push hR hnot
      (f := fun th => { lower { th with
          totalCpuTime := th.totalCpuTime + 1
          timeQuantumLeft := th.timeQuantumLeft - 1 } with
        timeQuantumLeft := quantumTicks ⟨_, hbound⟩
        state := .ready })
      (l := ⟨_, hbound⟩) rfl rfl rfl
    refine ⟨true, s', by rw [hs']; rfl, hqueued, hcurrent.trans hc, fun t => ?_, ?_, c, ?_⟩
    · by_cases ht : t = c
      · subst ht
        refine Or.inr ⟨Or.inr hstate, Or.inl ?_⟩
        rw [hthread, modify_thread, if_pos rfl]
      · left
        rw [hthread, modify_thread, if_neg ht]
    · apply hruns.leave .ready (by simp)
      intro t
      rw [hthread, modify_thread]
      by_cases ht : t = c <;> simp [ht]
    · rw [hthread, modify_thread, if_pos rfl]
  next hne =>
    simp only [modify_thread, if_true] at hne
    refine ⟨false, _, rfl, h.queued.modify hnot hnot (hR.tick hrule hstate hne), hc,
      fun t => Or.inl ?_, fun t => ?_⟩
    · by_cases ht : t = c <;> simp [ht]
    · rw [← hruns t]
      by_cases ht : t = c <;> simp [ht]

/-- The second part of `sched_tick`. -/
theorem Queued.countTick (h : s.Queued R) : ∃ s', s.countTick = some s' ∧ Boosts R s s' := by
  have htick : ({ s with ticks := s.ticks + 1 } : Sched).Queued R := ⟨h.ready, h.rule⟩
  rw [Sched.countTick]
  split
  · obtain ⟨s', hs', hboosts, -⟩ := htick.schedBoost hR
    exact ⟨s', hs', hboosts.queued, hboosts.state, hboosts.current⟩
  · exact ⟨_, rfl, htick, fun _ => rfl, rfl⟩

/-- `sched_tick`. -/
theorem GoodFor.schedTick (h : s.GoodFor R) :
    ∃ s', s.schedTick = some s' ∧ s'.GoodFor R ∧ s.Turns s' := by
  obtain ⟨exhausted, s₁, hcharge, hqueued, hcurrent, hturns, hruns⟩ := h.chargeTick hR
  obtain ⟨s₂, hs₂, hboosts⟩ := hqueued.countTick hR
  have hturns₂ : s.Turns s₂ := hturns.trans fun t => Or.inl (hboosts.state t)
  unfold Sched.schedTick
  simp only [hcharge, Option.bind_eq_bind, Option.bind_some, hs₂]
  -- with its quantum used up the running thread is queued, and the next one is picked
  cases exhausted with
  | false =>
      refine ⟨s₂, rfl, ⟨hboosts.queued, ?_, ?_⟩, hturns₂⟩
      · rw [hboosts.current, hcurrent]
        exact hboosts.runs hruns
      · rw [hboosts.current, hcurrent]
        exact h.current
  | true =>
      obtain ⟨hnone, t, ht⟩ := hruns
      rw [← hboosts.state t] at ht
      obtain ⟨u, s₃, hpick, hgood, hturns₃⟩ := hboosts.queued.dispatch hR (hboosts.runs hnone) ht
      exact ⟨s₃.run u, by simp [hpick], hgood, hturns₂.trans hturns₃⟩

/-- `sched_yield`. -/
theorem GoodFor.schedYield (h : s.GoodFor R) :
    ∃ s', s.schedYield = some s' ∧ s'.GoodFor R ∧ s.Turns s' := by
  obtain ⟨c, hc⟩ := Option.ne_none_iff_exists'.mp h.current
  have hruns := h.runs
  rw [hc] at hruns
  have hnot : (s.thread c).state ≠ .ready := by simp [hruns.state]
  have hbound := hR.bound (h.queued.rule c) (Or.inr hruns.state)
  obtain ⟨s₁, hs₁, hqueued, -, -, hthread, -⟩ := h.queued.push hR hnot
    (f := fun th => { th with timeQuantumLeft := quantumTicks ⟨_, hbound⟩, state := .ready })
    (l := ⟨_, hbound⟩) rfl rfl rfl
  -- the caller is the one thread that becomes ready
  have hstate : ∀ t, (s₁.thread t).state = if t = c then .ready else (s.thread t).state := by
    intro t
    rw [hthread, modify_thread]
    by_cases ht : t = c <;> simp [ht]
  obtain ⟨u, s₂, hpick, hgood, hturns⟩ := hqueued.dispatch hR
    (hruns.leave .ready (by simp) hstate) ((hstate c).trans (if_pos rfl))
  have hturns₁ : s.Turns s₁ := by
    intro t
    by_cases ht : t = c
    · subst ht
      exact Or.inr ⟨Or.inr hruns.state, Or.inl ((hstate t).trans (if_pos rfl))⟩
    · exact Or.inl ((hstate t).trans (if_neg ht))
  refine ⟨s₂.run u, ?_, hgood, hturns₁.trans hturns⟩
  unfold Sched.schedYield
  simp [hc, h.queued.levelOf hR (Or.inr hruns.state), hs₁, hpick]

/-- `sched_block` and `sched_exit`. -/
theorem GoodFor.leave (h : s.GoodFor R) {c : Tid} (hc : s.current = some c) (st : ThreadState)
    (hready : st ≠ .ready) (hrunning : st ≠ .running) :
    ∃ out, s.leave st = some out ∧ ∀ s', out = .runs s' → s'.GoodFor R ∧
      (s.modify c fun th => { th with state := st }).Turns s' := by
  have hruns := h.runs
  rw [hc] at hruns
  have hnot : (s.thread c).state ≠ .ready := by simp [hruns.state]
  have hqueued : (s.modify c fun th => { th with state := st }).Queued R :=
    h.queued.modify hnot hready (hR.leave (h.queued.rule c) (Or.inr hruns.state) hready)
  -- nobody runs until the next thread is picked
  have hnone : (s.modify c fun th => { th with state := st }).Runs none := by
    apply hruns.leave st hrunning
    intro t
    by_cases ht : t = c <;> simp [ht]
  unfold Sched.leave
  obtain ⟨-, hpick⟩ | ⟨u, s₁, hnext, hpick, hqueued', hruns', hthread⟩ := hqueued.pick hR hnone
  · exact ⟨.halts, by simp [hc, hpick], fun s' hs' => by cases hs'⟩
  · refine ⟨.runs (s₁.run u), by simp [hc, hpick], fun s' hs' => ?_⟩
    cases hs'
    exact ⟨⟨hqueued', hruns', by simp [run]⟩, turns_of_run (hqueued.nextThread hnext) hthread⟩

/-- `sched_enqueue`, for a thread that is not ready. -/
theorem Queued.schedEnqueue (h : s.Queued R) (hready : (s.thread t).state ≠ .ready) :
    ∃ s', s.schedEnqueue t = some s' ∧ s'.Queued R ∧ s'.current = s.current ∧
      ∀ u, (s'.thread u).state = if u = t then .ready else (s.thread u).state := by
  obtain ⟨s', hs', hqueued, hcurrent, -, hthread, -⟩ := h.push hR hready
    (f := fun th =>
      { th with currentLevel := 0, state := .ready, timeQuantumLeft := quantumTicks 0 })
    (l := 0) rfl rfl rfl
  refine ⟨s', hs', hqueued, hcurrent, fun u => ?_⟩
  rw [hthread, modify_thread]
  by_cases hu : u = t <;> simp [hu]

/-- `sched_enqueue` of a thread that is not active returns, with the thread ready and no other
moved.
-/
theorem GoodFor.schedEnqueue (h : s.GoodFor R) (ht : ¬ s.Active t) :
    ∃ s', s.schedEnqueue t = some s' ∧ s'.GoodFor R ∧ s'.current = s.current ∧
      ∀ u, (s'.thread u).state = if u = t then .ready else (s.thread u).state := by
  obtain ⟨hready, hrunning⟩ := not_or.mp ht
  obtain ⟨s', hs', hqueued, hcurrent, hstate⟩ := h.queued.schedEnqueue hR hready
  refine ⟨s', hs', ⟨hqueued, fun u => ?_, by rw [hcurrent]; exact h.current⟩, hcurrent, hstate⟩
  rw [hstate, hcurrent, ← h.runs u]
  by_cases hu : u = t
  · simp [hu, hrunning]
  · simp [hu]

/-- `sched_dequeue`, and what its caller does then. -/
theorem GoodFor.schedDequeue (h : s.GoodFor R) (hready : (s.thread t).state = .ready) :
    ∃ s', s.schedDequeue t = some s' ∧ s'.thread = s.thread ∧ s'.current = s.current ∧
      (s'.modify t fun th => { th with state := .created }).GoodFor R := by
  obtain ⟨s', hs', hqueued, hcurrent, -, hthread⟩ := h.queued.pop hR hready .created (by simp)
  refine ⟨s', hs', hthread, hcurrent, hqueued,
    fun u => ?_, by rw [modify_current, hcurrent]; exact h.current⟩
  rw [modify_current, hcurrent, ← h.runs u, modify_thread, hthread]
  by_cases hu : u = t
  · simp [hu, hready]
  · simp [hu]

end Functions

end Sched

end Koharu
