import Koharu.Task.SystemInvariant

/-!
# Futexes as queues

What `kernel/task/futex.c` is for: a map from the physical addresses of words to queues of threads.
`Futex.queue` reads this map off the hash table, and `Futex.Rep` is what the table owes to it. A
thread that waits goes to the end of the queue of its word, and a wake takes the oldest one off, or
all of them.

`futex_refines` is the result for runs in which threads make calls of `SYS_FUTEX` in any order, on
any addresses. The words and the page tables change in between in any way.

`Rep` is about the table alone: what `futex_find` finds, and what becomes of the queues when a
thread joins one or is released (`Rep.join`, `Rep.release`). `FutexInv` is about the table and the
scheduler: a thread is blocked if and only if it waits for a word, so that a wake finds threads that
can be put on a run queue. `FutexInv.step` keeps this over every step of the system, also a timer
tick and the rest of a call in the middle of which the thread was switched away from.
-/

namespace Koharu

namespace Futex

variable {f f' : Futex} {phys wq : Addr} {t : Tid}

/-- The threads that wait for the word at `phys`, the oldest first. -/
def queue (f : Futex) (phys : Addr) : List Tid :=
  match f.futexFind phys with
  | some wq => f.waiters.queue wq
  | none => []

/-- The table has one `struct futex_waitq` for each word that is waited for, where it is looked
for. -/
structure Rep (f : Futex) : Prop where
  bucket : ∀ wq b, f.buckets.home wq = some b → b = futexHash (f.phys wq)
  unique : ∀ wq wq', f.buckets.home wq ≠ none → f.buckets.home wq' ≠ none →
    f.phys wq = f.phys wq' → wq = wq'
  /-- Its queue is not empty. -/
  waited : ∀ wq, f.waiters.queue wq ≠ [] ↔ f.buckets.home wq ≠ none

/-- `futex_find` gives the linked wait queue of the address. -/
theorem Rep.futexFind (h : f.Rep) :
    f.futexFind phys = some wq ↔ f.buckets.home wq ≠ none ∧ f.phys wq = phys := by
  rw [Futex.futexFind]
  constructor
  · intro hfind
    have hmem := List.mem_of_find?_eq_some hfind
    refine ⟨by simp [ListStore.home_of_mem hmem], ?_⟩
    simpa using List.find?_some hfind
  · rintro ⟨hlinked, rfl⟩
    obtain ⟨b, hb⟩ := Option.ne_none_iff_exists'.mp hlinked
    have hmem : wq ∈ f.buckets.queue (futexHash (f.phys wq)) :=
      (f.buckets.mem_queue _ _).mpr (h.bucket wq b hb ▸ hb)
    -- some waitq for the word is found, and there is no other
    cases hfind : (f.buckets.queue (futexHash (f.phys wq))).find? fun w => f.phys w = f.phys wq with
    | none => exact absurd (List.find?_eq_none.mp hfind wq hmem) (by simp)
    | some wq' =>
        have hhome := ListStore.home_of_mem (List.mem_of_find?_eq_some hfind)
        rw [h.unique wq' wq (by simp [hhome]) hlinked (by simpa using List.find?_some hfind)]

/-- It finds none exactly when no linked queue has the address. -/
theorem Rep.futexFind_none (h : f.Rep) :
    f.futexFind phys = none ↔ ∀ wq, f.buckets.home wq ≠ none → f.phys wq ≠ phys := by
  rw [Option.eq_none_iff_forall_ne_some]
  exact forall_congr' fun wq => by rw [Ne, h.futexFind, not_and]

/-- A linked wait queue is the queue of its address. -/
theorem Rep.queue_phys (h : f.Rep) (hlinked : f.buckets.home wq ≠ none) :
    f.queue (f.phys wq) = f.waiters.queue wq := by
  rw [queue, h.futexFind.mpr ⟨hlinked, rfl⟩]

/-- An address without a wait queue has no waiters. -/
theorem queue_of_none (hfind : f.futexFind phys = none) : f.queue phys = [] := by
  rw [queue, hfind]

/-- A thread waits for the word of its waitq. -/
theorem Rep.mem_queue (h : f.Rep) :
    t ∈ f.queue phys ↔ ∃ wq, f.waiters.home t = some wq ∧ f.phys wq = phys := by
  constructor
  · intro hmem
    cases hfind : f.futexFind phys with
    | none =>
        rw [queue_of_none hfind] at hmem
        cases hmem
    | some wq =>
        obtain ⟨hlinked, rfl⟩ := h.futexFind.mp hfind
        rw [h.queue_phys hlinked] at hmem
        exact ⟨wq, ListStore.home_of_mem hmem, rfl⟩
  · rintro ⟨wq, hhome, rfl⟩
    have hmem : t ∈ f.waiters.queue wq := (f.waiters.mem_queue wq t).mpr hhome
    rwa [h.queue_phys ((h.waited wq).mp (List.ne_nil_of_mem hmem))]

/-- Two tables represent the same map, but for one word. -/
theorem Rep.queue_eq_update (h : f.Rep) (h' : f'.Rep) {l : List Tid} (hphys : f'.queue phys = l)
    (hlinked : ∀ wq, f.phys wq ≠ phys → f.buckets.home wq ≠ none →
      f'.buckets.home wq ≠ none ∧ f'.phys wq = f.phys wq ∧ f'.waiters.queue wq = f.waiters.queue wq)
    (hlinked' : ∀ wq, f'.phys wq ≠ phys → f'.buckets.home wq ≠ none →
      f.buckets.home wq ≠ none ∧ f'.phys wq = f.phys wq) :
    f'.queue = Function.update f.queue phys l := by
  funext p
  by_cases hp : p = phys
  · rw [hp, Function.update_self, hphys]
  · rw [Function.update_of_ne hp]
    -- another word's queue, linked before, is linked after and the other way round
    cases hfind : f.futexFind p with
    | some wq =>
        obtain ⟨hhome, rfl⟩ := h.futexFind.mp hfind
        obtain ⟨hhome', heq, hqueue⟩ := hlinked wq hp hhome
        rw [h.queue_phys hhome, ← hqueue, ← h'.queue_phys hhome', heq]
    | none =>
        rw [queue_of_none hfind, queue_of_none]
        rw [h'.futexFind_none]
        rintro wq hhome' rfl
        obtain ⟨hhome, heq⟩ := hlinked' wq hp hhome'
        exact h.futexFind_none.mp hfind wq hhome heq.symm

/-- A thread goes to the end of the queue of its word, unless there is no memory for a new waitq. -/
theorem Rep.join (h : f.Rep) (ht : f.waiters.home t = none) {ptr : Addr}
    -- The word has a waitq: only the list of its waiters changes.
    (hfresh : ptr ≠ 0 → f.buckets.home ptr = none) (phys : Addr) :
    (f.queue phys = [] ∧ ptr = 0 ∧ f.join ptr phys t = some none) ∨
      ∃ f', f.join ptr phys t = some (some f') ∧ f'.Rep ∧
        f'.queue = Function.update f.queue phys (f.queue phys ++ [t]) ∧
        (∀ u, f'.waiters.home u ≠ none ↔ f.waiters.home u ≠ none ∨ u = t) := by
  cases hfind : f.futexFind phys with
  | some wq =>
      right
      obtain ⟨hlinked, rfl⟩ := h.futexFind.mp hfind
      refine ⟨{ f with waiters := f.waiters.snocAt t wq ht }, ?_, ?_⟩
      · rw [Futex.join, hfind]
        simp only [ListStore.pushBack_eq_some wq ht]
        rfl
      have hrep : Rep { f with waiters := f.waiters.snocAt t wq ht } := by
        refine ⟨h.bucket, h.unique, fun wq' => ?_⟩
        rw [ListStore.snocAt_queue_apply]
        split
        next heq => simp [heq, hlinked]
        next => exact h.waited wq'
      refine ⟨hrep, h.queue_eq_update hrep ?_ (fun wq' hne hhome => ⟨hhome, rfl, ?_⟩)
        (fun wq' _ hhome => ⟨hhome, rfl⟩), fun u => ?_⟩
      · rw [hrep.queue_phys hlinked, h.queue_phys hlinked, ListStore.snocAt_queue_apply, if_pos rfl]
      · rw [ListStore.snocAt_queue_apply, if_neg]
        rintro rfl
        exact hne rfl
      · rw [ListStore.snocAt_home_apply]
        split <;> simp [*]
  | none =>
      by_cases hptr : ptr = 0
      · left
        refine ⟨queue_of_none hfind, hptr, ?_⟩
        rw [Futex.join, hfind]
        exact if_pos hptr
      right
      -- The word has none: the new waitq is put into its bucket with this thread alone.
      have hhome := hfresh hptr
      have hempty : f.waiters.queue ptr = [] := by
        by_contra hne
        exact (h.waited ptr).mp hne hhome
      have hnone := h.futexFind_none.mp hfind
      refine ⟨⟨f.buckets.snocAt ptr (futexHash phys) hhome, Function.update f.phys ptr phys,
        f.waiters.snocAt t ptr ht⟩, ?_, ?_⟩
      · rw [Futex.join, hfind]
        simp only [if_neg hptr, newWaitq, ListStore.pushBack_eq_some _ hhome, hempty, if_pos]
        simp [ListStore.pushBack_eq_some ptr ht]
      -- the new state has a name, so that the record is unfolded only in the next two facts
      obtain ⟨g, hg⟩ : ∃ g : Futex, g = ⟨f.buckets.snocAt ptr (futexHash phys) hhome,
        Function.update f.phys ptr phys, f.waiters.snocAt t ptr ht⟩ := ⟨_, rfl⟩
      have hself : g.buckets.home ptr = some (futexHash phys) ∧ g.phys ptr = phys ∧
          g.waiters.queue ptr = [t] := by
        simp [hg, hempty]
      have hother : ∀ wq, wq ≠ ptr → g.buckets.home wq = f.buckets.home wq ∧
          g.phys wq = f.phys wq ∧ g.waiters.queue wq = f.waiters.queue wq := by
        intro wq hwq
        simp [hg, hwq]
      rw [← hg]
      have hrep : g.Rep := by
        refine ⟨fun wq b hb => ?_, fun wq wq' hwq hwq' heq => ?_, fun wq => ?_⟩
        · by_cases hwq : wq = ptr
          · subst hwq
            rw [hself.1] at hb
            rw [hself.2.1, Option.some.inj hb]
          · rw [(hother wq hwq).1] at hb
            rw [(hother wq hwq).2.1]
            exact h.bucket wq b hb
        -- uniqueness: no old waitq has the address of the new one, or `futex_find` would have given
        -- it
        · by_cases hp : wq = ptr <;> by_cases hp' : wq' = ptr
          · rw [hp, hp']
          · rw [hp, hself.2.1, (hother wq' hp').2.1] at heq
            rw [(hother wq' hp').1] at hwq'
            exact absurd heq.symm (hnone wq' hwq')
          · rw [hp', hself.2.1, (hother wq hp).2.1] at heq
            rw [(hother wq hp).1] at hwq
            exact absurd heq (hnone wq hwq)
          · rw [(hother wq hp).1] at hwq
            rw [(hother wq' hp').1] at hwq'
            rw [(hother wq hp).2.1, (hother wq' hp').2.1] at heq
            exact h.unique wq wq' hwq hwq' heq
        · by_cases hwq : wq = ptr
          · subst hwq
            simp [hself]
          · rw [(hother wq hwq).1, (hother wq hwq).2.2]
            exact h.waited wq
      refine ⟨hrep, h.queue_eq_update hrep ?_ (fun wq _ hlinked => ?_) (fun wq hne hlinked => ?_),
        fun u => ?_⟩
      -- the queue of the address, and that no other address has another queue than before
      · have hlinked : g.buckets.home ptr ≠ none := by simp [hself.1]
        have := hrep.queue_phys hlinked
        rw [hself.2.1, hself.2.2] at this
        rw [this, queue_of_none hfind, List.nil_append]
      · have hwq : wq ≠ ptr := by
          rintro rfl
          exact hlinked hhome
        obtain ⟨hb, hp, hq⟩ := hother wq hwq
        exact ⟨by rwa [hb], hp, hq⟩
      · have hwq : wq ≠ ptr := by
          rintro rfl
          exact hne hself.2.1
        obtain ⟨hb, hp, -⟩ := hother wq hwq
        exact ⟨by rwa [← hb], hp⟩
      · rw [hg, ListStore.snocAt_home_apply]
        split <;> simp [*]

/-- The oldest threads of one waitq are taken off, and the waitq is removed when none is left. -/
theorem Rep.release (h : f.Rep) (hlinked : f.buckets.home wq ≠ none) (n : ℕ)
    {waiters : ListStore Addr Tid} (hqueue : waiters.queue wq = (f.waiters.queue wq).drop n)
    (hother : ∀ wq', wq' ≠ wq → waiters.queue wq' = f.waiters.queue wq') :
    ∃ f', ({ f with waiters } : Futex).release wq = some f' ∧ f'.Rep ∧ f'.waiters = waiters ∧
      f'.queue = Function.update f.queue (f.phys wq) ((f.queue (f.phys wq)).drop n) := by
  have hold := h.queue_phys hlinked
  obtain ⟨b, hb⟩ := Option.ne_none_iff_exists'.mp hlinked
  -- The waitq is unlinked when the threads that were woken are all that it had.
  by_cases hempty : (f.waiters.queue wq).drop n = []
  · refine ⟨⟨f.buckets.eraseAt wq b hb, f.phys, waiters⟩, ?_, ?_⟩
    · rw [Futex.release, if_pos (hqueue.trans hempty)]
      simp [ListStore.unlink_eq_some hb]
    have hrep : Rep ⟨f.buckets.eraseAt wq b hb, f.phys, waiters⟩ := by
      have hhome : ∀ wq', (f.buckets.eraseAt wq b hb).home wq' ≠ none →
          wq' ≠ wq ∧ f.buckets.home wq' ≠ none := by
        intro wq' hne
        rw [ListStore.eraseAt_home_apply] at hne
        split at hne
        · exact absurd rfl hne
        next hwq => exact ⟨hwq, hne⟩
      refine ⟨fun wq' b' hb' => ?_, fun wq₁ wq₂ h₁ h₂ heq => ?_, fun wq' => ?_⟩
      · have hwq := (hhome wq' (Option.ne_none_iff_exists'.mpr ⟨b', hb'⟩)).1
        rw [ListStore.eraseAt_home_apply, if_neg hwq] at hb'
        exact h.bucket wq' b' hb'
      · exact h.unique wq₁ wq₂ (hhome wq₁ h₁).2 (hhome wq₂ h₂).2 heq
      · rw [ListStore.eraseAt_home_apply]
        by_cases hwq : wq' = wq
        · simp [hwq, hqueue, hempty]
        · rw [if_neg hwq, hother wq' hwq]
          exact h.waited wq'
    refine ⟨hrep, rfl, h.queue_eq_update hrep ?_ (fun wq' hne hhome => ?_) fun wq' hne hhome => ?_⟩
    -- no other waitq has the address, so its queue is empty now
    · rw [hold, hempty]
      refine queue_of_none (hrep.futexFind_none.mpr fun wq' hhome heq => ?_)
      rw [ListStore.eraseAt_home_apply] at hhome
      split at hhome
      next => exact hhome rfl
      next hwq => exact hwq (h.unique wq' wq hhome hlinked heq)
    · have hwq : wq' ≠ wq := by
        rintro rfl
        exact hne rfl
      refine ⟨?_, rfl, hother wq' hwq⟩
      rwa [ListStore.eraseAt_home_apply, if_neg hwq]
    · rw [ListStore.eraseAt_home_apply] at hhome
      split at hhome
      next => exact absurd rfl hhome
      next => exact ⟨hhome, rfl⟩
  -- threads are left: the waitq stays where it is
  · refine ⟨{ f with waiters }, ?_, ?_⟩
    · rw [Futex.release, if_neg (by rwa [hqueue])]
    have hrep : Rep { f with waiters } := by
      refine ⟨h.bucket, h.unique, fun wq' => ?_⟩
      by_cases hwq : wq' = wq
      · subst hwq
        simp [hqueue, hempty, hlinked]
      · rw [hother wq' hwq]
        exact h.waited wq'
    refine ⟨hrep, rfl, h.queue_eq_update hrep ?_ (fun wq' hne hhome => ⟨hhome, rfl, ?_⟩)
      fun wq' _ hhome => ⟨hhome, rfl⟩⟩
    · rw [hold, ← hqueue]
      exact hrep.queue_phys hlinked
    · apply hother wq'
      rintro rfl
      exact hne rfl

end Futex

namespace Sched

variable {s s' s'' : Sched} {l l' : List Tid} {t : Tid}

/-- The threads have been made ready, one after the other. -/
structure Readied (s s' : Sched) (l : List Tid) : Prop where
  runq_top : s'.runq.queue Sched.top = s.runq.queue Sched.top ++ l
  runq_other : ∀ level, level ≠ Sched.top → s'.runq.queue level = s.runq.queue level
  state : ∀ t, (s'.thread t).state = if t ∈ l then .ready else (s.thread t).state
  current : s'.current = s.current

/-- Nobody was woken yet. -/
theorem Readied.nil (s : Sched) : Readied s s [] :=
  ⟨by simp, fun _ _ => rfl, fun t => by simp, rfl⟩

/-- Those woken in two steps, in order. -/
theorem Readied.trans (h : Readied s s' l) (h' : Readied s' s'' l') : Readied s s'' (l ++ l') where
  runq_top := by rw [h'.runq_top, h.runq_top, List.append_assoc]
  runq_other level hlevel := (h'.runq_other level hlevel).trans (h.runq_other level hlevel)
  state t := by
    rw [h'.state, h.state]
    by_cases ht : t ∈ l' <;> by_cases ht' : t ∈ l <;> simp [ht, ht']
  current := h'.current.trans h.current

/-- Other threads are not put into run queues. -/
theorem Readied.home_eq_none (h : Readied s s' l) (hnone : s.runq.home t = none) (ht : t ∉ l) :
    s'.runq.home t = none := by
  rw [Option.eq_none_iff_forall_ne_some]
  intro level hlevel
  have hmem := (s'.runq.mem_queue level t).mpr hlevel
  by_cases htop : level = Sched.top
  · subst htop
    rw [h.runq_top, List.mem_append] at hmem
    exact hmem.elim (ListStore.notMem_queue hnone _) ht
  · rw [h.runq_other level htop] at hmem
    exact ListStore.notMem_queue hnone level hmem

/-- `sched_wakeup`. -/
theorem readied_schedEnqueue (hnone : s.runq.home t = none) :
    ∃ s', s.schedEnqueue t = some s' ∧ Readied s s' [t] := by
  refine ⟨{ s.modify t fun th =>
      { th with currentLevel := 0, state := .ready, timeQuantumLeft := quantumTicks 0 } with
    runq := s.runq.snocAt t 0 hnone }, ?_, ?_, fun level hlevel => ?_, fun u => ?_, rfl⟩
  · rw [schedEnqueue, pushBack, modify_runq, ListStore.pushBack_eq_some 0 hnone]
    rfl
  · simp [Sched.top]
  · simp [ListStore.snocAt_queue_apply, show level ≠ 0 from hlevel]
  · dsimp only
    rw [modify_thread]
    by_cases hu : u = t <;> simp [hu]

/-- `sched_block` halts when no thread is ready. -/
theorem GoodFor.not_ready_of_halts {R : Rule} (h : s.GoodFor R)
    (hhalts : s.schedBlock = some .halts) (t : Tid) : (s.thread t).state ≠ .ready := by
  intro hready
  obtain ⟨c, hc⟩ := Option.ne_none_iff_exists'.mp h.current
  rw [schedBlock, Sched.leave, hc] at hhalts
  have hhome : (s.runq.home t).isSome = true := (h.queued.ready t).mp hready
  -- a thread that is ready is found in its run queue
  have hnext : (s.modify c fun th => { th with state := .blocked }).nextThread ≠ none := by
    obtain ⟨l, hl⟩ := Option.isSome_iff_exists.mp hhome
    have hmem := (s.runq.mem_queue l t).mpr hl
    rw [nextThread, Ne, List.findSome?_eq_none_iff]
    intro hall
    have := hall l (List.mem_finRange l)
    rw [modify_runq, List.head?_eq_none_iff] at this
    rw [this] at hmem
    cases hmem
  obtain ⟨u, hu⟩ := Option.ne_none_iff_exists'.mp hnext
  simp only [Option.bind_eq_bind, Option.bind_some, schedPick, hu] at hhalts
  cases hunlink : (s.modify c fun th => { th with state := .blocked }).unlink u <;>
    simp [hunlink] at hhalts

end Sched

namespace System

open Traced

variable {σ : Type} {s s' : System σ} {cur : Tid}

/-- The queues of futexes and those of the scheduler have changed. -/
def setQueues (s : System σ) (waiters : ListStore Addr Tid) (sched : Sched) : System σ :=
  { s with futex := { s.futex with waiters := waiters }, sched := sched }

/-- How many of `n` threads are woken. -/
def wakeCount (all : Bool) (n : ℕ) : ℕ := if all then n else min 1 n

/-- The loop of `futex_wake` wakes the oldest threads. -/
theorem wakeLoop_val {wq : Addr} (all : Bool) (fuel : ℕ) (n : BitVec 32)
    (hfuel : (s.futex.waiters.queue wq).length = fuel)
    (hnone : ∀ t ∈ s.futex.waiters.queue wq, s.sched.runq.home t = none) :
    ∃ waiters sched, (wakeLoop wq all fuel n s).val =
        some (n + BitVec.ofNat 32 (wakeCount all fuel), s.setQueues waiters sched) ∧
      waiters.queue wq = (s.futex.waiters.queue wq).drop (wakeCount all fuel) ∧
      (∀ wq', wq' ≠ wq → waiters.queue wq' = s.futex.waiters.queue wq') ∧
      s.sched.Readied sched ((s.futex.waiters.queue wq).take (wakeCount all fuel)) := by
  induction fuel generalizing n s with
  | zero =>
      have hnil := List.eq_nil_of_length_eq_zero hfuel
      refine ⟨s.futex.waiters, s.sched, ?_, ?_, fun _ _ => rfl, ?_⟩
      · simp [wakeLoop, wakeCount, setQueues]
      · simp [hnil]
      · simpa [hnil] using Sched.Readied.nil s.sched
  | succ fuel ih =>
      -- The head of the list is taken off and made ready; the rest of the list is what the next
      -- round finds.
      obtain ⟨t, rest, hqueue⟩ := List.exists_cons_of_length_eq_add_one hfuel
      have ht : s.futex.waiters.home t = some wq :=
        ListStore.home_of_mem (hqueue ▸ List.mem_cons_self)
      obtain ⟨sched, hsched, hready⟩ := Sched.readied_schedEnqueue (hnone t (by simp [hqueue]))
      have hrest : (s.futex.waiters.eraseAt t wq ht).queue wq = rest := by
        rw [ListStore.eraseAt_queue_apply, if_pos rfl, hqueue, List.erase_cons_head]
      have hother : ∀ wq', wq' ≠ wq →
          (s.futex.waiters.eraseAt t wq ht).queue wq' = s.futex.waiters.queue wq' := by
        intro wq' hwq
        rw [ListStore.eraseAt_queue_apply, if_neg hwq]
      have hloop : (wakeLoop wq all (fuel + 1) n s).val =
          (if all then
              wakeLoop wq all fuel (n + 1) (s.setQueues (s.futex.waiters.eraseAt t wq ht) sched)
            else pure (n + 1, s.setQueues (s.futex.waiters.eraseAt t wq ht) sched)).val := by
        rw [wakeLoop, hqueue]
        simp [ListStore.unlink_eq_some ht, schedWakeup, schedEnqueue, hsched, setQueues]
      rw [hloop, hqueue]
      cases all with
      | false =>
          refine ⟨s.futex.waiters.eraseAt t wq ht, sched, ?_, ?_, hother, ?_⟩
          · simp [wakeCount]
          · simp [hrest, wakeCount]
          · simpa [wakeCount] using hready
      | true =>
          -- a thread is on the list once, so those that are left are still in no run queue
          have hnodup := List.nodup_cons.mp (hqueue ▸ s.futex.waiters.nodup wq)
          obtain ⟨waiters, sched', hval, hdrop, hother', hready'⟩ := ih (n := n + 1)
            (s := s.setQueues (s.futex.waiters.eraseAt t wq ht) sched)
            (by simp only [setQueues, hrest]; simpa [hqueue] using hfuel) fun u hu => by
              simp only [setQueues, hrest] at hu
              apply hready.home_eq_none (hnone u (by simp [hqueue, hu]))
              rintro hmem
              rw [List.mem_singleton.mp hmem] at hu
              exact hnodup.1 hu
          simp only [setQueues, hrest] at hdrop hother' hready'
          refine ⟨waiters, sched', ?_, ?_,
            fun wq' hwq => (hother' wq' hwq).trans (hother wq' hwq), ?_⟩
          · have hsum : n + 1 + BitVec.ofNat 32 (wakeCount true fuel) =
                n + BitVec.ofNat 32 (wakeCount true (fuel + 1)) := by
              rw [wakeCount, wakeCount, if_pos rfl, if_pos rfl, BitVec.ofNat_add, BitVec.add_assoc,
                BitVec.add_comm (1 : BitVec 32)]
              rfl
            rw [if_pos rfl, hval, hsum]
            rfl
          · simpa [wakeCount] using hdrop
          · have := hready.trans hready'
            simpa [wakeCount] using this

/-! ### The calls

Each call is described by what it does to the queue of its address, and by the state it leaves the
threads in. -/

/-- What holds between the calls of `SYS_FUTEX` when no other system call is made: the threads that
are blocked wait for futexes, and those that take part in the scheduling have address spaces. -/
structure FutexInv (s : System σ) : Prop where
  inv : s.Inv
  rep : s.futex.Rep
  blocked : ∀ t, (s.sched.thread t).state = .blocked → s.futex.waiters.home t ≠ none
  space : ∀ t, (s.sched.thread t).state ≠ .created → s.kernel.pmaps (s.pmapOf t) ≠ none
  frame : ∀ t, (s.ipc.thread t).frame = none
  kont : ∀ t target, s.kont t ≠ some (.destroys target)

/-- `cur` has gone to the end of the queue. -/
structure Waited (s s' : System σ) (cur : Tid) (phys : Addr) : Prop where
  queue : s'.futex.queue = Function.update s.futex.queue phys (s.futex.queue phys ++ [cur])
  state : ∀ t, (s'.sched.thread t).state = .blocked ↔
    (s.sched.thread t).state = .blocked ∨ t = cur

/-- What `futex_wait` does. -/
inductive WaitSpec (env : Env) (s : System σ) (cur : Tid) (uaddr : Addr) (expected : BitVec 32) :
    Ending σ → Prop
  /-- `-EINVAL`. -/
  | unaligned (haddr : uaddr &&& 0x3#64 ≠ 0) :
      WaitSpec env s cur uaddr expected (.returned (-22) none s)
  /-- `-EFAULT`. -/
  | unmapped (haddr : uaddr &&& 0x3#64 = 0)
      (hphys : s.kernel.pmapExtract (s.pmapOf cur) uaddr = some 0) :
      WaitSpec env s cur uaddr expected (.returned (-14) none s)
  /-- `-EAGAIN`, when the word has changed or there is no memory. -/
  | again {phys : Addr} (haddr : uaddr &&& 0x3#64 = 0)
      (hphys : s.kernel.pmapExtract (s.pmapOf cur) uaddr = some phys) (hne : phys ≠ 0)
      (hword : s.kernel.loadWord phys ≠ expected ∨ s.futex.queue phys = [] ∧ env.waitq = 0) :
      WaitSpec env s cur uaddr expected (.returned (-11) none s)
  /-- Another thread runs. -/
  | waits {phys : Addr} {s' : System σ} (haddr : uaddr &&& 0x3#64 = 0)
      (hphys : s.kernel.pmapExtract (s.pmapOf cur) uaddr = some phys) (hne : phys ≠ 0)
      (hword : s.kernel.loadWord phys = expected) (hwaited : Waited s s' cur phys) :
      WaitSpec env s cur uaddr expected (.switched s')
  /-- No other thread is ready, and the CPU halts in `sched_block`. -/
  | halts {phys : Addr} (haddr : uaddr &&& 0x3#64 = 0)
      (hphys : s.kernel.pmapExtract (s.pmapOf cur) uaddr = some phys) (hne : phys ≠ 0)
      (hword : s.kernel.loadWord phys = expected)
      (hready : ∀ t, (s.sched.thread t).state ≠ .ready) :
      WaitSpec env s cur uaddr expected .halted

/-- The `n` oldest threads of the queue have been made ready. -/
structure Woken (s s' : System σ) (phys : Addr) (n : ℕ) : Prop where
  queue : s'.futex.queue = Function.update s.futex.queue phys ((s.futex.queue phys).drop n)
  readied : s.sched.Readied s'.sched ((s.futex.queue phys).take n)

/-- What `futex_wake` does. -/
inductive WakeSpec (s : System σ) (cur : Tid) (uaddr : Addr) (all : BitVec 32) : Ending σ → Prop
  /-- `-EINVAL`. -/
  | unaligned (haddr : uaddr &&& 0x3#64 ≠ 0) : WakeSpec s cur uaddr all (.returned (-22) none s)
  /-- `-EFAULT`. -/
  | unmapped (haddr : uaddr &&& 0x3#64 = 0)
      (hphys : s.kernel.pmapExtract (s.pmapOf cur) uaddr = some 0) :
      WakeSpec s cur uaddr all (.returned (-14) none s)
  /-- It returns the number of threads that it has woken, as an `int`. -/
  | wakes {phys : Addr} {n : ℕ} {value : BitVec 64} {s' : System σ} (haddr : uaddr &&& 0x3#64 = 0)
      (hphys : s.kernel.pmapExtract (s.pmapOf cur) uaddr = some phys) (hne : phys ≠ 0)
      (hn : n = wakeCount (all ≠ 0) (s.futex.queue phys).length) (hwoken : Woken s s' phys n)
      (hint : value = (BitVec.ofNat 32 n).signExtend 64) (hvalue : n < 2 ^ 31 → value.toNat = n) :
      WakeSpec s cur uaddr all (.returned value none s')

/-- A number as an `int`. -/
theorem toNat_signExtend_ofNat {n : ℕ} (hn : n < 2 ^ 31) :
    ((BitVec.ofNat 32 n).signExtend 64).toNat = n := by
  have hmsb : (BitVec.ofNat 32 n).msb = false := by
    rw [BitVec.msb_eq_decide, BitVec.toNat_ofNat]
    simp
    omega
  rw [BitVec.signExtend_eq_setWidth_of_msb_false hmsb, BitVec.toNat_setWidth, BitVec.toNat_ofNat]
  omega

/-- The running thread can translate every address of its own. -/
theorem FutexInv.exists_phys (h : s.FutexInv) (hcur : s.sched.current = some cur) (uaddr : Addr) :
    ∃ phys, s.kernel.pmapExtract (s.pmapOf cur) uaddr = some phys := by
  rw [Kernel.pmapExtract]
  split
  · exact ⟨0, rfl⟩
  · obtain ⟨p, hp⟩ := Option.ne_none_iff_exists'.mp (h.space cur (by simp [h.inv.running hcur]))
    exact ⟨s.kernel.pm.pmapExtract p.rootPhys uaddr, by simp [hp]⟩

/-- The next thread has an address space. -/
theorem exists_switchTo {sched : Sched} (hgood : sched.GoodFor Sched.Bounded)
    (hspace : ∀ t, (sched.thread t).state ≠ .created → s.kernel.pmaps (s.pmapOf t) ≠ none) :
    ∃ cr3, s.switchTo sched = some { s with sched, kernel := { s.kernel with cr3 } } := by
  obtain ⟨next, hnext⟩ := Option.ne_none_iff_exists'.mp hgood.current
  have hruns := hgood.runs
  rw [hnext] at hruns
  obtain ⟨p, hp⟩ := Option.ne_none_iff_exists'.mp (hspace next (by simp [hruns.state]))
  exact ⟨p.rootPhys, by simp [switchTo, hnext, hp]⟩

/-- The thread has joined its queue, and blocks. -/
theorem FutexInv.block (h : s.FutexInv) (hcur : s.sched.current = some cur) {futex : Futex}
    (hrep : futex.Rep)
    (hhome : ∀ u, futex.waiters.home u ≠ none ↔ s.futex.waiters.home u ≠ none ∨ u = cur)
    (hkeeps : ∀ e, (({ s with futex }.setKont cur (.returns 0)).leave s.sched.schedBlock).val =
    some e →
      Ending.Keeps s.kernel e) :
    ∃ e, (({ s with futex }.setKont cur (.returns 0)).leave s.sched.schedBlock).val = some e ∧
      (e = .halted ∧ (∀ t, (s.sched.thread t).state ≠ .ready) ∨
        ∃ s', e = .switched s' ∧ s'.futex = futex ∧ (∀ t, (s'.sched.thread t).state = .blocked ↔
          (s.sched.thread t).state = .blocked ∨ t = cur) ∧ s'.FutexInv) := by
  obtain ⟨out, hout, hgood⟩ :=
    h.inv.sched.leave Sched.closed_bounded hcur .blocked (by simp) (by simp)
  -- either no thread is ready and the machine halts, or another one runs
  rw [← Sched.schedBlock] at hout
  cases out with
  | halts =>
      refine ⟨.halted, by simp [System.leave, hout], Or.inl ⟨rfl, ?_⟩⟩
      exact h.inv.sched.not_ready_of_halts hout
  | runs sched =>
      obtain ⟨hgood, hturns⟩ := hgood sched rfl
      -- of all threads only the current one has changed its state
      have hblocked : ∀ t, (sched.thread t).state = .blocked ↔
          (s.sched.thread t).state = .blocked ∨ t = cur := by
        intro t
        rw [hturns.state_iff t (by simp) (by simp), Sched.modify_thread]
        by_cases ht : t = cur <;> simp [ht]
      have hcreated : ∀ t, (sched.thread t).state ≠ .created →
        (s.sched.thread t).state ≠ .created := by
        intro t hne hc
        refine hne ((hturns.state_iff t (by simp) (by simp)).mpr ?_)
        rw [Sched.modify_thread, if_neg]
        · exact hc
        · rintro rfl
          rw [h.inv.running hcur] at hc
          cases hc
      -- the next thread has an address space to switch to
      obtain ⟨cr3, hswitch⟩ :=
        exists_switchTo (s := { s with futex }.setKont cur (.returns 0)) hgood
        fun t ht => h.space t (hcreated t ht)
      have hval : (({ s with futex }.setKont cur (.returns 0)).leave s.sched.schedBlock).val =
          some (.switched { { s with futex }.setKont cur (.returns 0) with
            sched, kernel := { s.kernel with cr3 } }) := by
        simp only [System.leave, hout, hswitch, val_bind, lift_val, Option.bind_some, pure_val]
        rfl
      refine ⟨_, hval, Or.inr ⟨_, rfl, rfl, hblocked, ?_⟩⟩
      refine ⟨(hkeeps _ hval _ rfl).1, hrep, fun t ht => ?_,
        fun t ht => h.space t (hcreated t ht), h.frame, fun t target => ?_⟩
      · rw [hblocked] at ht
        exact (hhome t).mpr (ht.imp_left (h.blocked t))
      · show Function.update s.kont cur _ t ≠ _
        rw [Function.update_apply]
        split
        · simp
        · exact h.kont t target

/-- `futex_wait` refines the queues, and keeps the invariant. -/
theorem FutexInv.futexWait (h : s.FutexInv) (hcur : s.sched.current = some cur) {env : Env}
    (hfresh : env.waitq ≠ 0 → s.futex.buckets.home env.waitq = none) (uaddr : Addr)
    (expected : BitVec 32) :
    ∃ e, (s.futexWait env cur uaddr expected).val = some e ∧ WaitSpec env s cur uaddr expected e ∧
      ∀ s', e.next = some s' → s'.FutexInv := by
  -- the three ways to return at once leave the state as it is
  have hsame : ∀ value s', (Ending.returned value none s).next = some s' → s'.FutexInv := by
    intro value s' hs'
    obtain rfl := Option.some.inj hs'
    exact h
  by_cases haddr : uaddr &&& 0x3#64 = 0
  swap
  · refine ⟨.returned (-22) none s, ?_, .unaligned haddr, hsame _⟩
    rw [System.futexWait, if_pos haddr]
    rfl
  obtain ⟨phys, hphys⟩ := h.exists_phys hcur uaddr
  by_cases hne : phys = 0
  · subst hne
    refine ⟨.returned (-14) none s, ?_, .unmapped haddr hphys, hsame _⟩
    rw [System.futexWait, if_neg (not_not.mpr haddr), val_bind, lift_val, hphys, Option.bind_some,
      if_pos rfl]
    rfl
  by_cases hword : s.kernel.loadWord phys = expected
  swap
  · refine ⟨.returned (-11) none s, ?_, .again haddr hphys hne (Or.inl hword), hsame _⟩
    rw [System.futexWait, if_neg (not_not.mpr haddr), val_bind, lift_val, hphys, Option.bind_some,
      if_neg hne, val_bind, tell_val, Option.bind_some, if_pos hword]
    rfl
  -- a thread that runs waits for nothing, so it can join a queue
  have hcur_none : s.futex.waiters.home cur = none := by
    by_contra hhome
    have := (h.inv.tied.waiting cur hhome).1
    rw [h.inv.running hcur] at this
    cases this
  rcases h.rep.join hcur_none hfresh phys with
    ⟨hqueue, hptr, hjoin⟩ | ⟨futex, hjoin, hrep, hqueue, hhome⟩
  · refine ⟨.returned (-11) none s, ?_, .again haddr hphys hne (Or.inr ⟨hqueue, hptr⟩), hsame _⟩
    rw [System.futexWait, if_neg (not_not.mpr haddr), val_bind, lift_val, hphys, Option.bind_some,
      if_neg hne, val_bind, tell_val, Option.bind_some, if_neg (not_not.mpr hword), val_bind,
      lift_val,
      hjoin, Option.bind_some]
    rfl
  -- it has joined, and what is left of the call is `sched_block`
  have hval : (s.futexWait env cur uaddr expected).val =
      (({ s with futex }.setKont cur (.returns 0)).leave s.sched.schedBlock).val := by
    rw [System.futexWait, if_neg (not_not.mpr haddr), val_bind, lift_val, hphys, Option.bind_some,
      if_neg hne, val_bind, tell_val, Option.bind_some, if_neg (not_not.mpr hword), val_bind,
      lift_val,
      hjoin, Option.bind_some]
    rfl
  have hkeeps : Ensures Unqueued (Ending.Keeps s.kernel) (s.futexWait env cur uaddr expected) :=
    ensures_futexWait h.inv hcur uaddr expected
  replace hkeeps := hkeeps.val
  rw [hval] at hkeeps ⊢
  obtain ⟨e, he, hcases⟩ := h.block hcur hrep hhome hkeeps
  refine ⟨e, he, ?_⟩
  rcases hcases with ⟨rfl, hready⟩ | ⟨s', rfl, hfutex, hstate, hinv⟩
  · exact ⟨.halts haddr hphys hne hword hready, fun s' hs' => by cases hs'⟩
  · refine ⟨.waits haddr hphys hne hword ⟨by rw [hfutex, hqueue], hstate⟩, fun s'' hs'' => ?_⟩
    obtain rfl := Option.some.inj hs''
    exact hinv

/-- `futex_wake` refines the queues, and keeps the invariant. -/
theorem FutexInv.futexWake (h : s.FutexInv) (hcur : s.sched.current = some cur) (uaddr : Addr)
    (all : BitVec 32) :
    ∃ e, (s.futexWake cur uaddr all).val = some e ∧ WakeSpec s cur uaddr all e ∧
      ∀ s', e.next = some s' → s'.FutexInv := by
  have hsame : ∀ value s', (Ending.returned value none s).next = some s' → s'.FutexInv := by
    intro value s' hs'
    obtain rfl := Option.some.inj hs'
    exact h
  by_cases haddr : uaddr &&& 0x3#64 = 0
  swap
  · refine ⟨.returned (-22) none s, ?_, .unaligned haddr, hsame _⟩
    rw [System.futexWake, if_pos haddr]
    rfl
  obtain ⟨phys, hphys⟩ := h.exists_phys hcur uaddr
  by_cases hne : phys = 0
  · subst hne
    refine ⟨.returned (-14) none s, ?_, .unmapped haddr hphys, hsame _⟩
    rw [System.futexWake, if_neg (not_not.mpr haddr), val_bind, lift_val, hphys, Option.bind_some,
      if_pos rfl]
    rfl
  have hkeeps : Ensures Unqueued (Ending.Keeps s.kernel) (s.futexWake cur uaddr all) :=
    ensures_futexWake h.inv uaddr all
  replace hkeeps := hkeeps.val
  cases hfind : s.futex.futexFind phys with
  | none =>
      have hempty := Futex.queue_of_none hfind
      have hn : wakeCount (all ≠ 0) (s.futex.queue phys).length = 0 := by
        simp [hempty, wakeCount]
      refine ⟨.returned ((BitVec.ofNat 32 0).signExtend 64) none s, ?_,
        .wakes haddr hphys hne hn.symm ⟨?_, ?_⟩ rfl toNat_signExtend_ofNat, hsame _⟩
      · rw [System.futexWake, if_neg (not_not.mpr haddr), val_bind, lift_val, hphys,
          Option.bind_some, if_neg hne, hfind]
        rfl
      · rw [List.drop_zero, Function.update_eq_self]
      · rw [List.take_zero]
        exact Sched.Readied.nil s.sched
  | some wq =>
      obtain ⟨hlinked, rfl⟩ := h.rep.futexFind.mp hfind
      have hqueue := h.rep.queue_phys hlinked
      have hnone : ∀ t ∈ s.futex.waiters.queue wq, s.sched.runq.home t = none := by
        intro t ht
        have hb := (h.inv.tied.waiting t (by simp [ListStore.home_of_mem ht])).1
        exact h.inv.sched.queued.home (by simp [hb])
      obtain ⟨waiters, sched, hloop, hdrop, hother, hready⟩ :=
        wakeLoop_val (decide (all ≠ 0)) (s.futex.waiters.queue wq).length 0 rfl hnone
      obtain ⟨futex, hrelease, hrep, hwaiters, hqueues⟩ := h.rep.release hlinked _ hdrop hother
      have hval : (s.futexWake cur uaddr all).val = some (.returned
          ((BitVec.ofNat 32 (wakeCount (all ≠ 0) (s.futex.waiters.queue wq).length)).signExtend 64)
          none
          { s.setQueues waiters sched with futex }) := by
        rw [System.futexWake, if_neg (not_not.mpr haddr), val_bind, lift_val, hphys,
          Option.bind_some, if_neg hne, hfind]
        simp only [val_bind, hloop, Option.bind_some, lift_val]
        rw [show (s.setQueues waiters sched).futex.release wq = some futex from hrelease,
          Option.bind_some, zero_add]
        rfl
      have hstate := hready.state
      rw [← hqueue] at hstate hready hval
      refine ⟨_, hval, .wakes haddr hphys hne rfl ⟨?_, hready⟩ rfl toNat_signExtend_ofNat,
        fun s' hs' => ?_⟩
      · rw [hqueues, hqueue]
      obtain rfl := Option.some.inj hs'
      refine ⟨(hkeeps _ hval _ rfl).1, hrep, fun t ht => ?_, fun t ht => ?_, h.frame, h.kont⟩
      · -- a thread that stays blocked stays on its queue
        have hblocked : t ∉ (s.futex.queue (s.futex.phys wq)).take
            (wakeCount (all ≠ 0) (s.futex.queue (s.futex.phys wq)).length) ∧
            (s.sched.thread t).state = .blocked := by
          have := (hstate t).symm.trans ht
          split at this
          · cases this
          next hnot => exact ⟨hnot, this⟩
        obtain ⟨hnot, hb⟩ := hblocked
        obtain ⟨wq', hwq'⟩ := Option.ne_none_iff_exists'.mp (h.blocked t hb)
        have hmem := (s.futex.waiters.mem_queue wq' t).mpr hwq'
        have hmem' : t ∈ waiters.queue wq' := by
          by_cases hwq : wq' = wq
          · subst hwq
            rw [hqueue] at hnot
            rw [hdrop]
            rw [← List.take_append_drop (wakeCount (all ≠ 0) (s.futex.waiters.queue wq').length)
              (s.futex.waiters.queue wq'), List.mem_append] at hmem
            exact hmem.resolve_left hnot
          · rwa [hother wq' hwq]
        show futex.waiters.home t ≠ none
        rw [hwaiters, ListStore.home_of_mem hmem']
        simp
      · refine h.space t fun hcreated => ht ?_
        apply (hstate t).trans
        rw [if_neg, hcreated]
        intro hmem
        have hmem := List.mem_of_mem_take hmem
        rw [hqueue] at hmem
        have hb := (h.inv.tied.waiting t (by simp [ListStore.home_of_mem hmem])).1
        rw [hcreated] at hb
        cases hb

/-! ### Runs

Between the calls of `SYS_FUTEX` there are only ticks and the rest of calls that have blocked. All
of these keep the invariant. -/

/-- The system calls are `SYS_FUTEX`, and `kmalloc` returns no `struct futex_waitq` that is in
use. -/
def FutexCalls (s : System σ) (_ : Tid) : Act → Prop
  | .syscall env c => c.num = 9 ∧ (env.waitq ≠ 0 → s.futex.buckets.home env.waitq = none)
  | .resume | .tick => True

/-- No thread is blocked before `sched_boot`. -/
theorem not_blocked_of_beforeBoot {s : Sched} (h : Sched.BeforeBoot s) (t : Tid) :
    (s.thread t).state ≠ .blocked := by
  induction h with
  | init hthread _ _ => simp [(hthread t).1]
  | enqueue _ _ henqueue ih =>
      obtain ⟨runq, -, hret⟩ := Option.bind_eq_some_iff.mp henqueue
      obtain rfl := Option.some.inj hret
      dsimp only
      rw [Sched.modify_thread]
      split
      · simp
      · exact ih

/-- The state after `sched_boot`. -/
theorem Booted.futexInv (h : s.Booted) (hspace : ∀ t, (s.sched.thread t).state ≠ .created →
    s.kernel.pmaps (s.pmapOf t) ≠ none) : s.FutexInv := by
  have hinv := h.inv
  obtain ⟨⟨s₀, hbefore, -, hboot⟩, ⟨-, hipc⟩, ⟨hwaiters, hbuckets⟩, hkont, -⟩ := h
  refine ⟨hinv, ⟨?_, ?_, ?_⟩, fun t ht => ?_, hspace, fun t => (hipc t).2,
    fun t target => by simp [hkont]⟩
  · simp [hbuckets, ListStore.empty]
  · simp [hbuckets, ListStore.empty]
  · simp [hbuckets, hwaiters, ListStore.empty]
  · -- the first thread runs, and nothing has happened to the others
    exfalso
    rw [Sched.schedBoot, Sched.schedPick] at hboot
    cases hnext : s₀.nextThread with
    | none =>
        rw [hnext] at hboot
        obtain rfl := Option.some.inj hboot
        exact not_blocked_of_beforeBoot hbefore t ht
    | some u =>
        rw [hnext] at hboot
        obtain ⟨x, hx, hret⟩ := Option.bind_eq_some_iff.mp hboot
        obtain ⟨s₁, hunlink, hpair⟩ := Option.bind_eq_some_iff.mp hx
        obtain rfl := Option.some.inj hpair
        obtain ⟨runq, -, hs₁⟩ := Option.bind_eq_some_iff.mp hunlink
        obtain rfl := Option.some.inj hs₁
        rw [← Option.some.inj hret] at ht
        have hstate : (((Sched.modify { s₀ with runq } u fun th =>
            { th with state := .running })).thread t).state = .blocked := ht
        rw [Sched.modify_thread] at hstate
        split at hstate
        · cases hstate
        · exact not_blocked_of_beforeBoot hbefore t hstate

/-- What `SYS_FUTEX` leaves alone. -/
theorem FutexInv.congr (h : s.FutexInv) (hsched : s'.sched = s.sched) (hipc : s'.ipc = s.ipc)
    (hfutex : s'.futex = s.futex) (hpmaps : s'.kernel.pmaps = s.kernel.pmaps)
    (hthread : s'.kernel.thread = s.kernel.thread) (hkernel : s.kernel.Later s'.kernel)
    (hkont : ∀ t target, s'.kont t ≠ some (.destroys target)) : s'.FutexInv := by
  refine ⟨h.inv.congr hsched hipc (by rw [hfutex]) hkernel, hfutex ▸ h.rep, ?_,
    fun t => ?_, ?_, hkont⟩
  · rw [hsched, hfutex]
    exact h.blocked
  · rw [hsched, pmapOf, hpmaps, hthread]
    exact h.space t
  · rw [hipc]
    exact h.frame

/-- The timer keeps the invariant. -/
theorem FutexInv.schedTick (h : s.FutexInv) (hs' : s.schedTick = some s') : s'.FutexInv := by
  have hinv := h.inv.schedTick hs'
  obtain ⟨sched, hsched, -, hturns⟩ := h.inv.sched.schedTick Sched.closed_bounded
  rw [System.schedTick, hsched, Option.bind_eq_bind, Option.bind_some] at hs'
  have hblocked : ∀ t, (sched.thread t).state = .blocked → s.futex.waiters.home t ≠ none :=
    fun t ht => h.blocked t ((hturns.state_iff t (by simp) (by simp)).mp ht)
  have hspace : ∀ t, (sched.thread t).state ≠ .created → s.kernel.pmaps (s.pmapOf t) ≠ none :=
    fun t ht => h.space t fun hc => ht ((hturns.state_iff t (by simp) (by simp)).mpr hc)
  split at hs'
  · obtain rfl := Option.some.inj hs'
    exact ⟨hinv, h.rep, hblocked, hspace, h.frame, h.kont⟩
  · obtain ⟨next, -, hnext⟩ := Option.bind_eq_some_iff.mp hs'
    obtain ⟨p, -, hret⟩ := Option.bind_eq_some_iff.mp hnext
    obtain rfl := Option.some.inj hret
    exact ⟨hinv, h.rep, hblocked, hspace, h.frame, h.kont⟩

/-- So does the rest of a blocked call. -/
theorem FutexInv.resume (h : s.FutexInv) (hmode : ¬ s.UserMode cur) {e : Ending σ}
    (he : (s.resume cur).val = some e) (hs' : e.next = some s') : s'.FutexInv := by
  rw [System.resume] at he
  -- a futex caller only has its return value to deliver
  cases hkont : s.kont cur with
  | none => exact absurd ⟨h.frame cur, hkont⟩ hmode
  | some k =>
      cases k with
      | destroys target => exact absurd hkont (h.kont cur target)
      | returns value =>
          rw [hkont] at he
          obtain rfl := Option.some.inj he
          obtain rfl := Option.some.inj hs'
          refine h.congr rfl rfl rfl rfl rfl (.refl _) fun t target => ?_
          dsimp only
          rw [Function.update_apply]
          split
          · simp
          · exact h.kont t target

section PageAllocator

variable [PageAllocator σ]

/-- One step of the system keeps the invariant. -/
theorem FutexInv.step (h : s.FutexInv) (hcur : s.sched.current = some cur) {act : Act}
    (henabled : s.Enabled cur act) (hcalls : s.FutexCalls cur act) {e : Ending σ}
    (he : (s.step cur act).val = some e) (hs' : e.next = some s') : s'.FutexInv := by
  cases act with
  | syscall env c =>
      -- the only system call of these runs is `SYS_FUTEX`
      obtain ⟨hnum, hfresh⟩ := hcalls
      have hcall : (s.sysFutex env cur c.a1 c.a2 c.a3).val = some e := by
        rw [System.step, doSyscall, hnum] at he
        exact he
      rw [sysFutex] at hcall
      split at hcall
      next =>
        obtain ⟨e', he', -, hinv⟩ := h.futexWait hcur hfresh c.a1 (c.a3.setWidth 32)
        obtain rfl := Option.some.inj (he'.symm.trans hcall)
        exact hinv s' hs'
      next =>
        split at hcall
        next =>
          obtain ⟨e', he', -, hinv⟩ := h.futexWake hcur c.a1 (c.a3.setWidth 32)
          obtain rfl := Option.some.inj (he'.symm.trans hcall)
          exact hinv s' hs'
        next =>
          obtain rfl := Option.some.inj hcall
          obtain rfl := Option.some.inj hs'
          exact h
  | resume => exact h.resume henabled he hs'
  | tick =>
      rw [System.step, val_bind] at he
      obtain ⟨s₁, hs₁, hret⟩ := Option.bind_eq_some_iff.mp he
      obtain rfl := Option.some.inj hret
      obtain rfl := Option.some.inj hs'
      exact h.schedTick hs₁

/-- No step of these runs is one that the model has no result for. -/
theorem FutexInv.isSome_step (h : s.FutexInv) (hcur : s.sched.current = some cur) {act : Act}
    (henabled : s.Enabled cur act) (hcalls : s.FutexCalls cur act) :
    (s.step cur act).val ≠ none := by
  cases act with
  | syscall env c =>
      obtain ⟨hnum, hfresh⟩ := hcalls
      rw [System.step, doSyscall, hnum]
      change (s.sysFutex env cur c.a1 c.a2 c.a3).val ≠ none
      unfold sysFutex
      split_ifs
      · obtain ⟨e, he, -⟩ := h.futexWait hcur hfresh c.a1 (c.a3.setWidth 32)
        simp [he]
      · obtain ⟨e, he, -⟩ := h.futexWake hcur c.a1 (c.a3.setWidth 32)
        simp [he]
      · simp
  | resume =>
      rw [System.step, System.resume]
      cases hkont : s.kont cur with
      -- a thread outside of user mode has a call to go on with
      | none => exact absurd ⟨h.frame cur, hkont⟩ henabled
      | some k => cases k <;> simp
  | tick =>
      obtain ⟨sched, hsched, hgood, hturns⟩ := h.inv.sched.schedTick Sched.closed_bounded
      obtain ⟨cr3, hswitch⟩ := exists_switchTo hgood fun t ht => h.space t fun hc =>
        ht ((hturns.state_iff t (by simp) (by simp)).mpr hc)
      have htick : ∃ s₁, s.schedTick = some s₁ := by
        rw [System.schedTick, hsched, Option.bind_eq_bind, Option.bind_some]
        split
        · exact ⟨_, rfl⟩
        · exact ⟨_, hswitch⟩
      obtain ⟨s₁, hs₁⟩ := htick
      simp [System.step, hs₁]

/-- `SYS_FUTEX` stores nothing through a pointer it is given. -/
theorem FutexCalls.spares {act : Act} (h : s.FutexCalls cur act) : s.overwrites act = false := by
  cases act with
  | syscall env c => simp [overwrites, h.1]
  | resume | tick => rfl

/-- The invariant holds in every state of a run, by induction on it. -/
theorem FutexInv.of_run {s₀ : System σ} (h : s₀.FutexInv) (hrun : Run FutexCalls s₀ s) :
    s.FutexInv := by
  induction hrun with
  | init => exact h
  | step _ hcur henabled hcalls hstep ih =>
      obtain ⟨ending, hending, hnext⟩ := hstep.result hcalls.spares fun hnone =>
        absurd hnone (ih.isSome_step hcur henabled hcalls)
      exact ih.step hcur henabled hcalls hending hnext
  | user _ _ mem tf ih =>
      exact ih.congr rfl rfl rfl rfl rfl (Kernel.later_of_eq rfl rfl) ih.kont

/-- In every run of calls of `SYS_FUTEX`, the table represents a map from words to queues, the
threads that are blocked are on one queue each, and the next call changes the map as it should. -/
theorem futex_refines {s₀ : System σ} (hboot : s₀.Booted)
    (hspace : ∀ t, (s₀.sched.thread t).state ≠ .created → s₀.kernel.pmaps (s₀.pmapOf t) ≠ none)
    (hrun : Run FutexCalls s₀ s) :
    s.futex.Rep ∧
    (∀ t, (s.sched.thread t).state = .blocked ↔ ∃! wq, t ∈ s.futex.waiters.queue wq) ∧
    ∀ cur, s.sched.current = some cur →
      (∀ env uaddr expected, (env.waitq ≠ 0 → s.futex.buckets.home env.waitq = none) →
        ∃ e, (s.futexWait env cur uaddr expected).val = some e ∧
        WaitSpec env s cur uaddr expected e) ∧
      ∀ uaddr all, ∃ e, (s.futexWake cur uaddr all).val = some e ∧ WakeSpec s cur uaddr all e := by
  have h : s.FutexInv := (hboot.futexInv hspace).of_run hrun
  refine ⟨h.rep, fun t => ⟨fun hb => ?_, ?_⟩, fun cur hcur => ⟨?_, fun uaddr all => ?_⟩⟩
  -- a blocked thread is on one queue, and a thread on a queue is blocked
  · obtain ⟨wq, hwq⟩ := Option.ne_none_iff_exists'.mp (h.blocked t hb)
    refine ⟨wq, (s.futex.waiters.mem_queue wq t).mpr hwq, fun wq' hmem => ?_⟩
    exact Option.some.inj ((ListStore.home_of_mem hmem).symm.trans hwq)
  · rintro ⟨wq, hmem, -⟩
    exact (h.inv.tied.waiting t (by simp [ListStore.home_of_mem hmem])).1
  · intro env uaddr expected hfresh
    obtain ⟨e, he, hspec, -⟩ := h.futexWait hcur hfresh uaddr expected
    exact ⟨e, he, hspec⟩
  · obtain ⟨e, he, hspec, -⟩ := h.futexWake hcur uaddr all
    exact ⟨e, he, hspec⟩

end PageAllocator

/-- A call of `SYS_FUTEX`, on a word of the direct map. -/
def futexCall (op arg : BitVec 64) : Call where
  num := 9
  a1 := 0xFFFF800000100000#64
  a2 := op
  a3 := arg
  a4 := 0
  a5 := 0
  a6 := 0

/-- Thread 2 waits, and thread 1 wakes it. -/
theorem futex_refines_wake : ∃ s, Run FutexCalls twoThreads s ∧ s.sched.current = some 1 ∧
    s.futex.queue 0x100000#64 = [2] ∧
    ∃ e, (s.futexWake 1 0xFFFF800000100000#64 1#32).val = some e ∧
      WakeSpec s 1 0xFFFF800000100000#64 1#32 e := by
  have hcheck : ((twoThreads.step 2 (.syscall { noMemory with waitq := 0x8000#64 }
      (futexCall 0 0))).val.any fun ending => ending.next.any fun s =>
        s.sched.current = some 1 && decide (s.futex.queue 0x100000#64 = [2])) = true := by
    decide +kernel
  obtain ⟨ending, hending, hcheck⟩ := (Option.any_eq_true _ _).mp hcheck
  obtain ⟨s, hs, hcheck⟩ := (Option.any_eq_true _ _).mp hcheck
  rw [Bool.and_eq_true, decide_eq_true_eq, decide_eq_true_eq] at hcheck
  obtain ⟨hcurrent, hqueue⟩ := hcheck
  have henabled : twoThreads.Enabled 2
      (.syscall { noMemory with waitq := 0x8000#64 } (futexCall 0 0)) := ⟨rfl, rfl⟩
  have hfutex : twoThreads.FutexCalls 2
      (.syscall { noMemory with waitq := 0x8000#64 } (futexCall 0 0)) := ⟨rfl, fun _ => rfl⟩
  -- thread 2 waits on the word, so that thread 1 runs and can wake it
  have hrun : Run FutexCalls twoThreads s :=
    .step .init rfl henabled hfutex (.done hending hs)
  -- all threads share the one pmap, which exists
  have hspace : ∀ t, (twoThreads.sched.thread t).state ≠ .created →
      twoThreads.kernel.pmaps (twoThreads.pmapOf t) ≠ none := by
    intro t _
    show twoThreads.kernel.pmaps 0x100#64 ≠ none
    simp [twoThreads, Kernel.small]
  obtain ⟨-, -, hcalls⟩ := futex_refines twoThreads_booted hspace hrun
  exact ⟨s, hrun, hcurrent, hqueue, (hcalls 1 hcurrent).2 _ _⟩

end System

end Koharu
