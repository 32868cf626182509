import Koharu.Task.ControlAuthority
import Koharu.Task.IpcAttached
import Koharu.Task.SchedInvariant

/-!
# The contract of the scheduler

The scheduler relies on its callers: a thread handed to `sched_enqueue` is in no run queue, levels
are indices of run queues, a quantum is not used up before its thread runs, and a thread that is
ready is on no wait queue. `System.Inv` is what all system calls keep to that end, under the
condition `System.Meets` on their arguments: run queues hold the threads that are ready, wait queues
hold threads that are blocked, and there is nothing at the tids to come.

`contract_of_run` is the result for whole runs, and `sysSchedule_quantum_zero` one system call after
which the contract is broken.
-/

namespace Koharu

namespace Sched

/-- Every level has a quantum. -/
theorem quantumTicks_ne_zero (l : Level) : quantumTicks l ≠ 0 := by
  revert l
  decide

/-- The scheduler keeps to its contract. -/
theorem closed_bounded : Closed Bounded where
  bound h hstate := (h hstate).1
  full {_ _ l} hlevel hquantum _ _ :=
    ⟨hlevel ▸ l.isLt, hquantum ▸ quantumTicks_ne_zero l⟩
  leave h hstate _ _ := h hstate
  tick h hrunning hne _ := ⟨(h (Or.inr hrunning)).1, hne⟩

/-- The rule for what the scheduler does by itself is stronger. -/
theorem bounded_of_levelled {th : SchedThread} {o : Option Level} (h : Levelled th o) :
    Bounded th o := by
  intro hstate
  obtain ⟨hlevel, hpos, -⟩ := h.2.2 hstate
  refine ⟨hlevel, fun hzero => ?_⟩
  rw [hzero] at hpos
  exact absurd hpos (by decide)

variable {s : Sched} {R R' : Rule} {t : Tid}

/-- A weaker demand on threads is met, too. -/
theorem GoodFor.mono (h : s.GoodFor R) (hRR' : ∀ th o, R th o → R' th o) : s.GoodFor R' :=
  ⟨⟨h.queued.ready, fun t => hRR' _ _ (h.queued.rule t)⟩, h.runs, h.current⟩

/-- A thread is changed, but not its state. -/
theorem GoodFor.modify (h : s.GoodFor R) {f : SchedThread → SchedThread}
    (hf : (f (s.thread t)).state = (s.thread t).state)
    (hrule : R (f (s.thread t)) (s.runq.home t)) : (s.modify t f).GoodFor R := by
  have hstate : ∀ u, ((s.modify t f).thread u).state = (s.thread u).state := by
    intro u
    by_cases hu : u = t <;> simp [hu, hf]
  refine ⟨⟨fun u => ?_, fun u => ?_⟩, fun u => ?_, h.current⟩
  · rw [hstate, modify_runq]
    exact h.queued.ready u
  · by_cases hu : u = t
    · subst hu
      simpa using hrule
    · simpa [hu] using h.queued.rule u
  · rw [hstate]
    exact h.runs u

/-- A thread that takes no part in the scheduling is changed. -/
theorem GoodFor.modify_inactive (h : s.GoodFor R) {f : SchedThread → SchedThread}
    (ht : ¬ s.Active t) (hf : (f (s.thread t)).state ≠ .ready ∧ (f (s.thread t)).state ≠ .running)
    (hrule : R (f (s.thread t)) none) : (s.modify t f).GoodFor R := by
  obtain ⟨hready, hrunning⟩ := not_or.mp ht
  refine ⟨h.queued.modify hready hf.1 hrule, fun u => ?_, h.current⟩
  rw [modify_current, ← h.runs u]
  by_cases hu : u = t
  · subst hu
    simp [hf.2, hrunning]
  · simp [hu]

end Sched

namespace Kernel

variable {σ : Type} {k k' k'' : Kernel σ}

/-- Only tids that were still to come have been registered. -/
structure Later (k k' : Kernel σ) : Prop where
  nextTid : k.nextTid.toNat ≤ k'.nextTid.toNat
  registered : ∀ tid, k'.nextTid.toNat ≤ tid.toNat → k.registered tid = false →
    k'.registered tid = false

/-- One call after the other. -/
theorem Later.trans (h : k.Later k') (h' : k'.Later k'') : k.Later k'' :=
  ⟨h.nextTid.trans h'.nextTid, fun tid htid hfree =>
    h'.registered tid htid (h.registered tid (h'.nextTid.trans htid) hfree)⟩

/-- No thread was created or registered. -/
theorem later_of_eq (hnext : k'.nextTid = k.nextTid) (hregistered : k'.registered = k.registered) :
    k.Later k' :=
  ⟨by rw [hnext], fun tid _ hfree => (congrFun hregistered tid).trans hfree⟩

/-- Nothing has happened yet. -/
theorem Later.refl (k : Kernel σ) : k.Later k := later_of_eq rfl rfl

/-- A call that leaves the threads alone creates none. -/
theorem SameThreads.later (h : k.SameThreads k') : k.Later k' := later_of_eq h.nextTid h.registered

/-- Unregistering a thread. -/
theorem later_update (k : Kernel σ) (tid : BitVec 64) :
    k.Later { k with registered := Function.update k.registered tid false } := by
  refine ⟨le_rfl, fun t _ hfree => ?_⟩
  by_cases ht : t = tid
  · rw [ht]
    exact Function.update_self ..
  · exact (Function.update_of_ne ht ..).trans hfree

/-- Creating a thread, unless the tids are used up. -/
theorem later_threadCreateChild {alloc : Alloc} {pmap : Addr} {o : Option (BitVec 64)}
    (h : k.threadCreateChild alloc pmap = (o, k')) (hlast : k.nextTid ≠ -1) :
    k.Later k' ∧ ∀ tid, o = some tid → tid.toNat = k.nextTid.toNat ∧
      k'.nextTid.toNat = k.nextTid.toNat + 1 := by
  have hnext : (k.nextTid + 1).toNat = k.nextTid.toNat + 1 := by
    have hne : k.nextTid.toNat ≠ 2 ^ 32 - 1 := fun heq => hlast (BitVec.eq_of_toNat_eq heq)
    have hlt := k.nextTid.isLt
    rw [BitVec.toNat_add]
    exact Nat.mod_eq_of_lt (by simp; omega)
  have htid : (k.nextTid.setWidth 64 : BitVec 64).toNat = k.nextTid.toNat := by
    rw [BitVec.toNat_setWidth]
    exact Nat.mod_eq_of_lt (k.nextTid.isLt.trans (by decide))
  rw [threadCreateChild] at h
  -- no memory for the object, no memory for its id, or a new thread
  split_ifs at h
  · cases h
    exact ⟨.refl _, by simp⟩
  · cases h
    exact ⟨⟨hnext ▸ Nat.le_succ _, fun _ _ => id⟩, by simp⟩
  · cases h
    refine ⟨⟨hnext ▸ Nat.le_succ _, fun t ht hfree => ?_⟩, fun tid heq => ?_⟩
    · have hne : t ≠ k.nextTid.setWidth 64 := by
        rintro rfl
        rw [hnext, htid] at ht
        exact absurd ht (Nat.not_succ_le_self _)
      exact (Function.update_of_ne hne ..).trans hfree
    · obtain rfl : k.nextTid.setWidth 64 = tid := Option.some.inj heq
      exact ⟨htid, hnext⟩

/-- `TC_CONFIGURE` creates none. -/
theorem later_setUtcb {tid pager : BitVec 64} {utcb : Addr}
    (h : k.setUtcb tid pager utcb = some k') : k.Later k' ∧ k'.nextTid = k.nextTid := by
  have hnext := (setUtcb_sameOthers h).2
  refine ⟨?_, hnext⟩
  unfold setUtcb at h
  dsimp only at h
  split at h
  · cases h
    exact ⟨le_rfl, fun _ _ => id⟩
  · obtain ⟨k₁, hput, hput'⟩ := Option.bind_eq_some_iff.mp h
    have hlater := ((putUserU64_sameSpaces hput).trans (putUserU64_sameSpaces hput')).later
    exact ⟨hlater.nextTid, hlater.registered⟩

/-! ### Pmap pointers

A pmap pointer of a thread is null or points to a pmap that is there. Creating a thread and binding
it keep that. -/

/-- A thread is given a pmap that is there. -/
theorem Linked.update (hk : k.Linked) {tid : BitVec 64} {th : KThread}
    (hth : th.pmap ≠ 0 → (k.pmaps th.pmap).isSome) :
    Linked { k with thread := Function.update k.thread tid th } := by
  intro t hne
  by_cases ht : t = tid
  · subst ht
    simp only [Function.update_self] at hne ⊢
    exact hth hne
  · simp only [Function.update_of_ne ht] at hne ⊢
    exact hk t hne

/-- `thread_create_child` links the new thread to its pmap. -/
theorem Linked.threadCreateChild (hk : k.Linked) {alloc : Alloc} {pmap : Addr}
    {o : Option (BitVec 64)} (h : k.threadCreateChild alloc pmap = (o, k'))
    (hpmap : (k.pmaps pmap).isSome) : k'.Linked := by
  unfold Kernel.threadCreateChild at h
  split_ifs at h
  · cases h
    exact hk
  · cases h
    exact hk
  · cases h
    exact hk.update fun _ => hpmap

/-- `thread_create_child` that fails has changed no thread. -/
theorem thread_of_threadCreateChild {alloc : Alloc} {pmap : Addr}
    (h : k.threadCreateChild alloc pmap = (none, k')) : k'.thread = k.thread := by
  unfold Kernel.threadCreateChild at h
  split_ifs at h
  · cases h
    rfl
  · cases h
    rfl
  · cases h

/-- The pagers and address spaces of threads stay what they are. -/
theorem Linked.setUtcb (hk : k.Linked) {tid pager : BitVec 64} {utcb : Addr}
    (h : k.setUtcb tid pager utcb = some k') : k'.Linked := by
  unfold Kernel.setUtcb at h
  dsimp only at h
  have hset : Linked { k with
      thread := Function.update k.thread tid { k.thread tid with pagerTid := pager, utcb } } :=
    hk.update fun hne => hk tid hne
  split at h
  · cases h
    exact hset
  · obtain ⟨k₁, hput, hput'⟩ := Option.bind_eq_some_iff.mp h
    exact ((putUserU64_sameSpaces hput).trans (putUserU64_sameSpaces hput')).linked hset

section PageAllocator

variable [PageAllocator σ]

/-- `pmap_create` adds a pmap, and no pointer dangles that did not before. -/
theorem Linked.pmapCreate (hk : k.Linked) {ptr pmap : Addr}
    (h : k.pmapCreate ptr = some (pmap, k')) : k'.Linked ∧ (pmap ≠ 0 → (k'.pmaps pmap).isSome) := by
  rw [Kernel.pmapCreate] at h
  split at h
  · cases h
    exact ⟨hk, fun hne => absurd rfl hne⟩
  · obtain ⟨p, -, hret⟩ := Option.bind_eq_some_iff.mp h
    cases hret
    refine ⟨fun tid hne => ?_, fun _ => by simp⟩
    by_cases htid : (k.thread tid).pmap = ptr
    · simp [htid]
    · simpa [htid] using hk tid hne

/-- The pmap that `pmap_create` returns is at the address that it got. -/
theorem pmapCreate_ptr {ptr pmap : Addr} (h : k.pmapCreate ptr = some (pmap, k')) (hne : pmap ≠ 0) :
    ptr = pmap ∧ ptr ≠ 0 := by
  rw [Kernel.pmapCreate] at h
  split at h
  · cases h
    exact absurd rfl hne
  next hptr =>
    obtain ⟨p, -, hret⟩ := Option.bind_eq_some_iff.mp h
    cases hret
    exact ⟨rfl, hptr⟩

/-- `pmap_destroy`, for a pmap that no thread points to. -/
theorem Linked.pmapDestroy (hk : k.Linked) {pmap : Addr} (h : k.pmapDestroy pmap = some k')
    (hfree : ∀ tid, (k.thread tid).pmap ≠ pmap) : k'.Linked := by
  rw [Kernel.pmapDestroy] at h
  split at h
  · cases h
    exact hk
  · obtain ⟨p, -, hret⟩ := Option.bind_eq_some_iff.mp h
    cases hret
    intro tid hne
    simpa [hfree tid] using hk tid hne

end PageAllocator

end Kernel

namespace System

open Traced

variable {σ : Type} {s s' : System σ} {cur : Tid}

/-! ### The invariant

The run queues, the wait queues of endpoints and futexes, and the threads to come fit together. -/

/-- The thread is on the wait queue of an endpoint or a futex. -/
def Waits (s : System σ) (t : Tid) : Prop :=
  ¬ s.ipc.Detached t ∨ s.futex.waiters.home t ≠ none

/-- Which threads are on no list of `ipc.c` does not depend on who is running. -/
theorem detached_ipcView {c t : Tid} : (s.ipcView c).Detached t ↔ s.ipc.Detached t :=
  ⟨fun h => ⟨h.epState, h.list, h.wait⟩, fun h => ⟨h.epState, h.list, h.wait⟩⟩

/-- A thread that is not blocked is on no wait queue. -/
theorem Tied.not_waits (h : s.Tied) {t : Tid} (ht : (s.sched.thread t).state ≠ .blocked) :
    ¬ s.Waits t := by
  rintro (hlinked | hfutex)
  · exact hlinked (detached_ipcView.mp (IpcState.AttachedFor.detached (h.attached 0) ht))
  · exact ht (h.waiting t hfutex).1

/-- A registered thread has been created already. -/
theorem Tied.lt_nextTid (h : s.Tied) {tid : BitVec 64} (ht : s.kernel.registered tid = true) :
    tid.toNat < s.kernel.nextTid.toNat := by
  by_contra hle
  have hfree := (h.unborn tid.toNat (not_lt.mp hle)).2.2 tid.isLt
  rw [BitVec.ofNat_toNat, BitVec.setWidth_eq, ht] at hfree
  cases hfree

/-- Only threads that are on wait queues have to stay blocked, and only those at the tids to come
have to stay as they are. -/
theorem Tied.congr (h : s.Tied) (hipc : s'.ipc = s.ipc)
    (hwaiters : ∀ t, s'.futex.waiters.home t ≠ none → s.futex.waiters.home t ≠ none)
    (hblocked : ∀ t, (s.sched.thread t).state = .blocked → s.Waits t →
      (s'.sched.thread t).state = .blocked)
    (hunborn : ∀ t : Tid, s.kernel.nextTid.toNat ≤ t → (s.sched.thread t).state = .created →
      (s'.sched.thread t).state = .created)
    (hkernel : s.kernel.Later s'.kernel) : s'.Tied := by
  refine ⟨fun c => (h.attached c).congr ?_ (fun t => ?_) fun t hb hlinked => ?_, fun t ht => ?_,
    fun t ht => ?_⟩
  · change s'.ipc.queues = s.ipc.queues
    rw [hipc]
  · change (s'.ipc.thread t).epState = (s.ipc.thread t).epState
    rw [hipc]
  · exact hblocked t hb (Or.inl fun hdetached => hlinked (detached_ipcView.mpr hdetached))
  · obtain ⟨hb, hdetached⟩ := h.waiting t (hwaiters t ht)
    rw [hipc]
    exact ⟨hblocked t hb (Or.inr (hwaiters t ht)), hdetached⟩
  -- a thread that is not born yet is not born before either
  · obtain ⟨hcreated, hep, hfree⟩ := h.unborn t (hkernel.nextTid.trans ht)
    rw [hipc]
    refine ⟨hunborn t (hkernel.nextTid.trans ht) hcreated, hep, fun hlt => ?_⟩
    refine hkernel.registered _ ?_ (hfree hlt)
    rwa [BitVec.toNat_ofNat, Nat.mod_eq_of_lt hlt]

/-- Threads have taken turns. -/
theorem Tied.turns (h : s.Tied) (hipc : s'.ipc = s.ipc) (hfutex : s'.futex = s.futex)
    (hturns : s.sched.Turns s'.sched) (hkernel : s.kernel.Later s'.kernel) : s'.Tied := by
  refine h.congr hipc (by simp [hfutex]) (fun t hb _ => ?_) (fun t _ hc => ?_) hkernel
  · exact (hturns.state_iff t (by simp) (by simp)).mpr hb
  · exact (hturns.state_iff t (by simp) (by simp)).mpr hc

/-- Nothing that the invariant is about has changed. -/
theorem Inv.congr (h : s.Inv) (hsched : s'.sched = s.sched) (hipc : s'.ipc = s.ipc)
    (hwaiters : s'.futex.waiters = s.futex.waiters) (hkernel : s.kernel.Later s'.kernel) :
    s'.Inv := by
  refine ⟨hsched ▸ h.sched, h.tied.congr hipc ?_ ?_ ?_ hkernel⟩ <;>
    simp +contextual [hsched, hwaiters]

/-! ### What a stretch of a system call ensures

A call is followed up to where the thread blocks or returns. From there on another thread may run.
-/

/-- `sched_enqueue` is called for threads that are in no run queue. -/
def Unqueued : Note → Prop
  | .enqueue _ queued => queued = false
  | _ => True

/-- The invariant holds where the system goes on, and no pmap pointer dangles there that did not
before, in the kernel `k`. -/
def Ending.Keeps (k : Kernel σ) (e : Ending σ) : Prop :=
  ∀ s', e.next = some s' → s'.Inv ∧ (k.Linked → s'.kernel.Linked)

/-- A call that has changed nothing returns. -/
theorem keeps_returned (h : s.Inv) (value : BitVec 64) (extra : Option Words) :
    Ending.Keeps s.kernel (.returned value extra s) := by
  intro s' hs'
  cases hs'
  exact ⟨h, id⟩

/-- A call that fails, and other calls that do not change anything. -/
theorem ensures_returned (h : s.Inv) (value : BitVec 64) (extra : Option Words) :
    Ensures Unqueued (Ending.Keeps s.kernel) (pure (.returned value extra s)) :=
  ensures_pure (keeps_returned h value extra)

/-- A call that changes the kernel. -/
theorem ensures_done (h : s.Inv) (value : BitVec 64) {k : Kernel σ} (hkernel : s.kernel.Later k)
    (hlinked : s.kernel.Linked → k.Linked) :
    Ensures Unqueued (Ending.Keeps s.kernel) (pure (s.done value k)) := by
  have hinv : Inv { s with kernel := k } := h.congr rfl rfl rfl hkernel
  apply ensures_pure
  intro s' hs'
  cases hs'
  exact ⟨hinv, hlinked⟩

/-- `sched_enqueue` for a thread that does not take part in the scheduling. -/
theorem ensures_schedEnqueue {t : Tid} (h : s.sched.GoodFor Sched.Bounded)
    (ht : ¬ s.sched.Active t) :
    Ensures Unqueued (fun s' => ∃ sched, s' = { s with sched } ∧ sched.GoodFor Sched.Bounded ∧
        sched.current = s.sched.current ∧
        ∀ u, (sched.thread u).state = if u = t then .ready else (s.sched.thread u).state)
      (s.schedEnqueue t) := by
  obtain ⟨sched, hsched, hgood, hcurrent, hstate⟩ := h.schedEnqueue Sched.closed_bounded ht
  have hhome := h.queued.home (not_or.mp ht).1
  refine ensures_tell_bind (fun e he => ?_) (ensures_lift_bind fun a ha => ensures_pure ?_)
  · obtain rfl := List.mem_singleton.mp he
    simp [Unqueued, hhome]
  · rw [hsched] at ha
    cases ha
    exact ⟨sched, rfl, hgood, hcurrent, hstate⟩

/-- To switch threads is not to change address spaces. -/
theorem switchTo_sameSpaces {sched : Sched} (h : s.switchTo sched = some s') :
    s.kernel.SameSpaces s'.kernel := by
  obtain ⟨next, -, hnext⟩ := Option.bind_eq_some_iff.mp h
  obtain ⟨p, -, hret⟩ := Option.bind_eq_some_iff.mp hnext
  cases hret
  exact Kernel.sameSpaces_of_eq rfl rfl rfl rfl

/-- `sched_block` and `sched_exit`. -/
theorem ensures_leave (st : ThreadState) (h : s.sched.GoodFor Sched.Bounded)
    (hcur : s.sched.current = some cur) (hready : st ≠ .ready) (hrunning : st ≠ .running)
    (htied : Tied { s with sched := s.sched.modify cur fun th => { th with state := st } }) :
    Ensures Unqueued (Ending.Keeps s.kernel) (s.leave (s.sched.leave st)) := by
  obtain ⟨out, hout, hgood⟩ := h.leave Sched.closed_bounded hcur st hready hrunning
  rw [System.leave, hout]
  apply ensures_lift_bind
  intro o ho
  cases ho
  -- a scheduler that halts has no next state to speak of
  cases out with
  | halts => exact ensures_pure fun s' hs' => by cases hs'
  | runs sched =>
      refine ensures_lift_bind fun s₁ hs₁ => ensures_pure fun s' hs' => ?_
      obtain rfl : s₁ = s' := Option.some.inj hs'
      obtain ⟨hsched, -, -, -, -, hipc, hfutex, -⟩ := switchTo_eq hs₁
      obtain ⟨hgood', hturns⟩ := hgood sched rfl
      have hsame := switchTo_sameSpaces hs₁
      exact ⟨⟨hsched ▸ hgood', htied.turns hipc hfutex (hsched ▸ hturns) hsame.later⟩, hsame.linked⟩

/-! ### The calls on address spaces

These leave scheduling alone and keep the invariant for that reason. -/

/-- The state that a call sees is the state of the kernel. -/
theorem later_view : s.kernel.Later (s.kernelView cur) := Kernel.later_of_eq rfl rfl

/-- So it is with the pagers and address spaces. -/
theorem linked_view (h : s.kernel.Linked) : (s.kernelView cur).Linked := h

/-- A call that does not touch the scheduler returns, and the caller goes on. -/
theorem ensures_ofKernel (h : s.Inv) {out : Option (BitVec 64 × Kernel σ)}
    (hout : ∀ v k, out = some (v, k) → (s.kernelView cur).SameSpaces k) :
    Ensures Unqueued (Ending.Keeps s.kernel) (s.ofKernel out) := by
  apply ensures_lift_bind
  intro a ha
  obtain ⟨v, k⟩ := a
  have hsame := hout v k ha
  exact ensures_done h v (later_view.trans hsame.later) fun hlinked =>
    hsame.linked (linked_view hlinked)

/-- `SYS_WRITE`. -/
theorem ensures_sysWrite (h : s.Inv) (a1 a2 a3 : BitVec 64) :
    Ensures Unqueued (Ending.Keeps s.kernel) (s.sysWrite cur a1 a2 a3) := by
  have hinv : ∀ output, Inv { s with output } := fun _ => h.congr rfl rfl rfl (.refl _)
  -- an iteration only adds to the output
  have hloop : ∀ fuel off output, Ensures Unqueued (Ending.Keeps s.kernel)
      (writeLoop cur a2 a3 fuel off { s with output }) := by
    intro fuel
    induction fuel with
    | zero => exact fun _ _ => ensures_lift nofun
    | succ fuel ih =>
        intro off output
        rw [writeLoop]
        split
        · apply ensures_lift_bind
          intro phys _
          dsimp only
          split
          · exact ensures_tell_bind (by simp [Unqueued]) (ensures_returned (hinv output) _ _)
          · exact ensures_tell_bind (by simp [Unqueued]) (ih _ _)
        · exact ensures_returned (hinv output) _ _
  unfold sysWrite
  split_ifs
  · exact ensures_returned h _ _
  · exact ensures_returned h _ _
  · exact hloop _ _ s.output

/-- `TC_BIND_SPACE`, for an address space that exists. -/
theorem ensures_tcBindSpace (h : s.Inv) {a2 a3 : BitVec 64}
    (hgiven : s.kernel.registered a2 = true → (s.kernel.thread a2).pagerTid = BitVec.ofNat 64 cur →
      a3 ≠ 0 → (s.kernel.pmaps a3).isSome) :
    Ensures Unqueued (Ending.Keeps s.kernel) (s.tcBindSpace cur a2 a3) := by
  unfold tcBindSpace
  split_ifs with hreg howner hzero
  iterate 3
    · exact ensures_returned h _ _
  · have hsome := hgiven (by simpa using hreg) (not_not.mp howner) hzero
    refine ensures_tell_bind (by simp [Unqueued]) (ensures_done h 0 (Kernel.later_of_eq rfl rfl) ?_)
    exact fun hlinked => hlinked.update fun _ => hsome

/-! ### Giving up the CPU

The current thread leaves, and one from a run queue runs. -/

/-- `SYS_THREAD_SWITCH`. -/
theorem ensures_sysThreadSwitch (h : s.Inv) :
    Ensures Unqueued (Ending.Keeps s.kernel) (s.sysThreadSwitch cur) := by
  obtain ⟨sched, hsched, hgood, hturns⟩ := h.sched.schedYield Sched.closed_bounded
  apply ensures_lift_bind
  intro a ha
  obtain rfl : sched = a := Option.some.inj (hsched.symm.trans ha)
  split
  · have hinv : Inv { s with sched } := ⟨hgood, h.tied.turns rfl rfl hturns (.refl _)⟩
    exact ensures_returned hinv _ _
  · refine ensures_lift_bind fun s₁ hs₁ => ensures_pure fun s' hs' => ?_
    obtain rfl : s₁ = s' := Option.some.inj hs'
    have hsame := switchTo_sameSpaces hs₁
    obtain ⟨rfl, -, -, -, -, hipc, hfutex, -⟩ := switchTo_eq hs₁
    exact ⟨⟨hgood, h.tied.turns hipc hfutex hturns hsame.later⟩, hsame.linked⟩

/-- The timer takes from the quantum of the thread that runs, and may put it at the end of a
queue. -/
theorem Inv.schedTick (h : s.Inv) (hs' : s.schedTick = some s') : s'.Inv := by
  obtain ⟨sched, hsched, hgood, hturns⟩ := h.sched.schedTick Sched.closed_bounded
  rw [System.schedTick, hsched, Option.bind_eq_bind, Option.bind_some] at hs'
  split at hs'
  · cases hs'
    exact ⟨hgood, h.tied.turns rfl rfl hturns (.refl _)⟩
  · obtain ⟨rfl, -, -, -, -, hipc, hfutex, -⟩ := switchTo_eq hs'
    exact ⟨hgood, h.tied.turns hipc hfutex hturns (switchTo_sameSpaces hs').later⟩

/-- A tick changes no pmap pointer. -/
theorem schedTick_linked (hs' : s.schedTick = some s') (h : s.kernel.Linked) :
    s'.kernel.Linked := by
  obtain ⟨sched, -, hs'⟩ := Option.bind_eq_some_iff.mp hs'
  split at hs'
  · cases hs'
    exact h
  · exact (switchTo_sameSpaces hs').linked h

/-- The current thread runs, so that it is on no wait queue and its tid is not one to come. -/
theorem Inv.running (h : s.Inv) (hcur : s.sched.current = some cur) :
    (s.sched.thread cur).state = .running := by
  have hruns := h.sched.runs
  rw [hcur] at hruns
  exact hruns.state

/-- The current thread may be given another state. -/
theorem Inv.tied_modify (h : s.Inv) (hcur : s.sched.current = some cur) (st : ThreadState) :
    Tied { s with sched := s.sched.modify cur fun th => { th with state := st } } := by
  have hrunning := h.running hcur
  refine h.tied.congr rfl (fun _ => id) (fun t hb _ => ?_) (fun t _ hc => ?_) (.refl _)
  all_goals
    have htc : t ≠ cur := by
      rintro rfl
      simp_all
    simpa [htc]

/-- `TC_DESTROY`. Threads that are not idle are not destroyed. -/
theorem ensures_tcDestroy (h : s.Inv) (hcur : s.sched.current = some cur) (a2 : BitVec 64) :
    Ensures Unqueued (Ending.Keeps s.kernel) (s.tcDestroy cur a2) := by
  rw [tcDestroy, Kernel.tcDestroy]
  split_ifs
  · exact ensures_done h _ later_view linked_view
  · exact ensures_done h _ later_view linked_view
  · exact ensures_leave (s := s.setKont cur (.destroys a2)) .terminated h.sched hcur (by simp)
      (by simp)
      ((h.tied_modify hcur .terminated).congr rfl (fun _ => id) (fun _ hb _ => hb)
        (fun _ _ hc => hc)
        (.refl _))
  · exact ensures_done h _ (later_view.trans (Kernel.later_update _ a2)) id

/-! ### Waking threads

A thread is woken by who takes it off a wait queue, so that it is on one queue at a time. -/

/-- A thread that is on no wait queue, and not one to come, may become ready. -/
theorem Tied.enqueued (h : s.Tied) {t : Tid} (hwaits : ¬ s.Waits t)
    (hborn : t < s.kernel.nextTid.toNat) {sched : Sched}
    (hstate : ∀ u, (sched.thread u).state = if u = t then .ready else (s.sched.thread u).state) :
    Tied { s with sched } := by
  refine h.congr rfl (fun _ => id) (fun u hb hu => ?_) (fun u hu hc => ?_) (.refl _)
  · have hut : u ≠ t := by
      rintro rfl
      exact hwaits hu
    exact (hstate u).trans ((if_neg hut).trans hb)
  · exact (hstate u).trans ((if_neg (hborn.trans_le hu).ne').trans hc)

/-- `sched_enqueue`, with what its callers have made sure of. -/
theorem Inv.ensures_schedEnqueue (h : s.Inv) {t : Tid} (ht : ¬ s.sched.Active t)
    (hwaits : ¬ s.Waits t) (hborn : t < s.kernel.nextTid.toNat) :
    Ensures Unqueued (fun s' => s'.Inv ∧ s'.kernel = s.kernel) (s.schedEnqueue t) := by
  apply (System.ensures_schedEnqueue h.sched ht).weaken
  intro s' hs'
  obtain ⟨sched, rfl, hgood, -, hstate⟩ := hs'
  exact ⟨⟨hgood, h.tied.enqueued hwaits hborn hstate⟩, rfl⟩

/-- A thread that is blocked is not one to come. -/
theorem Tied.born (h : s.Tied) {t : Tid} (ht : (s.sched.thread t).state ≠ .created) :
    t < s.kernel.nextTid.toNat := by
  by_contra hle
  exact ht (h.unborn t (not_lt.mp hle)).1

/-! ### `SYS_EXCHANGE_REGISTERS` and `SYS_SCHEDULE`

Registers, level and quantum of another thread may be set at will. `EXR_ACTIVATE` enqueues a thread
that has not run yet, and `EXR_DEACTIVATE` takes one off its run queue. -/

/-- Registers of a thread are not the kernel's. -/
theorem Inv.setTf (h : s.Inv) (t : Tid) (tf : Trapframe) : (s.setTf t tf).Inv :=
  h.congr rfl rfl rfl (.refl _)

/-- `EXR_READ`. -/
theorem ensures_exrRead (h : s.Inv) (target : Tid) (ip sp flags : Addr) :
    Ensures Unqueued (Ending.Keeps s.kernel) (s.exrRead target ip sp flags) := by
  refine ensures_tell_bind (fun e he => ?_) ?_
  · obtain ⟨ptr, -, rfl⟩ := List.mem_map.mp he
    trivial
  · refine ensures_lift_bind fun k₁ h₁ => ensures_lift_bind fun k₂ h₂ =>
      ensures_lift_bind fun k h₃ => ?_
    have hsame := ((putReg_sameSpaces h₁).trans (putReg_sameSpaces h₂)).trans (putReg_sameSpaces h₃)
    exact ensures_done h 0 hsame.later hsame.linked

/-- `EXR_WRITE`. -/
theorem ensures_exrWrite (h : s.Inv) (target : Tid) (ip sp flags : Addr) :
    Ensures Unqueued (Ending.Keeps s.kernel) (s.exrWrite target ip sp flags) := by
  refine ensures_tell_bind (fun e he => ?_) ?_
  · obtain ⟨ptr, -, rfl⟩ := List.mem_map.mp he
    trivial
  · refine ensures_lift_bind fun _ _ => ensures_lift_bind fun _ _ => ensures_lift_bind fun _ _ => ?_
    exact ensures_returned (h.setTf _ _) 0 none

/-- `EXR_ACTIVATE`, for a thread that was created. -/
theorem ensures_exrActivate (h : s.Inv) {target : Tid} (hborn : target < s.kernel.nextTid.toNat) :
    Ensures Unqueued (Ending.Keeps s.kernel) (s.exrActivate target) := by
  rw [exrActivate]
  split
  next => exact ensures_returned h _ _
  next hcreated =>
    have hcreated := not_not.mp hcreated
    have hactive : ¬ s.sched.Active target := by simp [Sched.Active, hcreated]
    exact (h.ensures_schedEnqueue hactive (h.tied.not_waits (by simp [hcreated])) hborn).bind
      fun s' hs' => hs'.2 ▸ ensures_returned hs'.1 0 none

/-- `EXR_DEACTIVATE`, unless the target is on a wait queue. -/
theorem ensures_exrDeactivate (h : s.Inv) {target : Tid}
    (hblocked : (s.sched.thread target).state = .blocked → ¬ s.Waits target) :
    Ensures Unqueued (Ending.Keeps s.kernel) (s.exrDeactivate target) := by
  rw [exrDeactivate]
  split
  next => exact ensures_returned h _ _
  next hrunning =>
    -- whether the target is on a run queue or not, in the end it is on none
    refine (ensures_lift fun sched hsched => ?_ : Ensures Unqueued (fun sched : Sched =>
      (sched.modify target fun th => { th with state := .created }).GoodFor Sched.Bounded ∧
        sched.thread = s.sched.thread) _).bind fun sched hsched => ?_
    · split at hsched
      next hready =>
        obtain ⟨sched', hsched', hthread, -, hgood⟩ :=
          h.sched.schedDequeue Sched.closed_bounded hready
        rw [hsched] at hsched'
        cases hsched'
        exact ⟨hgood, hthread⟩
      next hready =>
        cases hsched
        have hactive : ¬ s.sched.Active target := not_or.mpr ⟨hready, hrunning⟩
        exact ⟨h.sched.modify_inactive hactive (by simp) (by simp [Sched.Bounded]), rfl⟩
    · obtain ⟨hgood, hthread⟩ := hsched
      have htied : Tied { s with
          sched := sched.modify target fun th => { th with state := .created } } := by
        refine h.tied.congr rfl (fun _ => id) (fun t hb hwaits => ?_) (fun t _ hc => ?_) (.refl _)
        · have ht : t ≠ target := by
            rintro rfl
            exact hblocked hb hwaits
          simpa [hthread, ht] using hb
        · by_cases ht : t = target <;> simp [hthread, ht]
          exact hc
      exact ensures_returned ⟨hgood, htied⟩ 0 none

/-- `SYS_EXCHANGE_REGISTERS`. A blocked thread that is activated must not wait for a message. -/
theorem ensures_sysExchangeRegisters (h : s.Inv) {target ip sp flags op : BitVec 64}
    (hblocked : op = 3 → s.kernel.registered target → 
      (s.sched.thread target.toNat).state = .blocked → ¬ s.Waits target.toNat) :
    Ensures Unqueued (Ending.Keeps s.kernel) (s.sysExchangeRegisters target ip sp flags op) := by
  unfold sysExchangeRegisters
  split_ifs with hreg hop₀ hop₁ hop₂ hop₃ hop₄
  · exact ensures_returned h _ _
  · exact ensures_exrRead h _ _ _ _
  · exact ensures_exrWrite h _ _ _ _
  · exact ensures_exrActivate h (h.tied.lt_nextTid (by simpa using hreg))
  · exact ensures_exrDeactivate h (hblocked hop₃ (by simpa using hreg))
  · exact ensures_returned (h.setTf _ _) 0 none
  · exact ensures_returned h _ _

/-- `SYS_SCHEDULE`, when it sets the level and the quantum of a thread that takes part in the
scheduling as the scheduler does. -/
theorem keeps_sysSchedule (h : s.Inv) {a1 a2 a3 : BitVec 64}
    (hset : s.kernel.registered a1 → s.sched.Active a1.toNat →
      (a2 ≠ -1 → (a2.setWidth 32 : BitVec 32).toNat < mlfqLevels) ∧
        (a3 ≠ -1 → (a3.setWidth 32 : BitVec 32) ≠ 0)) :
    Ending.Keeps s.kernel (s.sysSchedule a1 a2 a3) := by
  rw [sysSchedule]
  split
  next => exact keeps_returned h _ _
  next hreg =>
    have hreg : s.kernel.registered a1 = true := by simpa using hreg
    let f : SchedThread → SchedThread := fun th =>
      { th with
        currentLevel := if a2 ≠ -1 then a2.setWidth 32 else th.currentLevel
        timeQuantumLeft := if a3 ≠ -1 then a3.setWidth 32 else th.timeQuantumLeft }
    have hgood : (s.sched.modify a1.toNat f).GoodFor Sched.Bounded := by
      apply h.sched.modify rfl
      intro hactive
      obtain ⟨hlevel, hquantum⟩ := hset hreg hactive
      obtain ⟨hlevel', hquantum'⟩ := h.sched.queued.rule a1.toNat hactive
      -- a field that is not set is as it was
      dsimp only [f]
      split_ifs with ha2 ha3 ha3
      · exact ⟨hlevel ha2, hquantum ha3⟩
      · exact ⟨hlevel ha2, hquantum'⟩
      · exact ⟨hlevel', hquantum ha3⟩
      · exact ⟨hlevel', hquantum'⟩
    have htied : Tied { s with sched := s.sched.modify a1.toNat f } := by
      refine h.tied.congr rfl (fun _ => id) (fun t hb _ => ?_) (fun t _ hc => ?_) (.refl _)
      all_goals by_cases ht : t = a1.toNat <;> simp_all [f]
    exact keeps_returned ⟨hgood, htied⟩ 0 none

/-! ### `SYS_FUTEX`

A wait puts the caller on one queue, and a wake takes off threads that are blocked. -/

/-- To append a thread to a list links no other one. -/
theorem home_pushBack {waiters waiters' : ListStore Addr Tid} {t : Tid} {wq : Addr}
    (h : waiters.pushBack t wq = some waiters') {u : Tid} (hu : u ≠ t)
    (hne : waiters'.home u ≠ none) : waiters.home u ≠ none := by
  by_cases hhome : waiters.home t = none
  · rw [ListStore.pushBack_eq_some wq hhome] at h
    cases h
    rwa [ListStore.snocAt_home_apply, if_neg hu] at hne
  · rw [ListStore.pushBack_eq_none wq hhome] at h
    cases h

/-- `futex_wait` puts one thread on a queue. -/
theorem home_join {f f' : Futex} {ptr phys : Addr} {t : Tid}
    (h : f.join ptr phys t = some (some f')) {u : Tid} (hu : u ≠ t)
    (hne : f'.waiters.home u ≠ none) : f.waiters.home u ≠ none := by
  rw [Futex.join] at h
  split at h
  · obtain ⟨waiters, hpush, hret⟩ := Option.bind_eq_some_iff.mp h
    cases hret
    exact home_pushBack hpush hu hne
  -- a word of its own is made first, and on it the thread is the only one
  · split at h
    · cases h
    · obtain ⟨f₁, hnew, hrest⟩ := Option.bind_eq_some_iff.mp h
      obtain ⟨waiters, hpush, hret⟩ := Option.bind_eq_some_iff.mp hrest
      cases hret
      obtain ⟨buckets, -, hset⟩ := Option.bind_eq_some_iff.mp hnew
      split at hset <;> cases hset
      exact home_pushBack hpush hu hne

/-- `FUTEX_WAIT` blocks the caller, or returns at once. -/
theorem ensures_futexWait {env : Env} (h : s.Inv) (hcur : s.sched.current = some cur)
    (uaddr : Addr) (expected : BitVec 32) :
    Ensures Unqueued (Ending.Keeps s.kernel) (s.futexWait env cur uaddr expected) := by
  rw [futexWait]
  split
  · exact ensures_returned h _ _
  apply ensures_lift_bind
  intro phys _
  dsimp only
  split
  · exact ensures_tell_bind (by simp [Unqueued]) (ensures_returned h _ _)
  apply ensures_tell_bind (by simp [Unqueued])
  split
  · exact ensures_returned h _ _
  apply ensures_lift_bind
  intro o ho
  cases o with
  | none => exact ensures_returned h _ _
  | some futex =>
      -- the current thread is the one that is put on the queue, and it is blocked
      refine ensures_leave (s := { s with futex }.setKont cur (.returns 0)) .blocked h.sched hcur
        (by simp) (by simp) ?_
      obtain ⟨hattached, hwaiting, hunborn⟩ := h.tied_modify hcur .blocked
      refine ⟨hattached, fun t ht => ?_, hunborn⟩
      by_cases htc : t = cur
      · subst htc
        have hnot := h.tied.not_waits (t := t) (by simp [h.running hcur])
        exact ⟨by simp [setKont], not_not.mp fun hlinked => hnot (Or.inl hlinked)⟩
      · exact hwaiting t (home_join ho htc ht)

/-- The loop of `futex_wake`. -/
theorem ensures_wakeLoop (wq : Addr) (all : Bool) (fuel : ℕ) {n : BitVec 32} (h : s.Inv) :
    Ensures Unqueued (fun x => x.2.Inv ∧ x.2.kernel = s.kernel) (wakeLoop wq all fuel n s) := by
  induction fuel generalizing n s with
  | zero => exact ensures_pure ⟨h, rfl⟩
  | succ fuel ih =>
      rw [wakeLoop]
      split
      next => exact ensures_pure ⟨h, rfl⟩
      next t rest hqueue =>
        have ht : s.futex.waiters.home t = some wq :=
          ListStore.home_of_mem (hqueue ▸ List.mem_cons_self)
        obtain ⟨hb, hdetached⟩ := h.tied.waiting t (by simp [ht])
        apply ensures_lift_bind
        intro waiters hwaiters
        rw [ListStore.unlink_eq_some ht] at hwaiters
        cases hwaiters
        -- taken off the queue, the thread waits for nothing
        have hinv : Inv { s with futex := { s.futex with
            waiters := s.futex.waiters.eraseAt t wq ht } } := by
          refine ⟨h.sched, h.tied.congr rfl (fun u hu => ?_) (fun _ hb _ => hb) (fun _ _ hc => hc)
            (.refl _)⟩
          dsimp only at hu
          rw [ListStore.eraseAt_home_apply] at hu
          split at hu
          · exact absurd rfl hu
          · exact hu
        refine (hinv.ensures_schedEnqueue (t := t) ?_ ?_ ?_).bind fun s' hs' => ?_
        · simp [Sched.Active, hb]
        · rintro (hlinked | hfutex)
          · exact hlinked hdetached
          · simp at hfutex
        · exact h.tied.born (by simp [hb])
        · split
          · exact (ih hs'.1).weaken fun x hx => ⟨hx.1, hx.2.trans hs'.2⟩
          · exact ensures_pure hs'

/-- `FUTEX_WAKE` wakes threads that are on the list. -/
theorem ensures_futexWake (h : s.Inv) (uaddr : Addr) (all : BitVec 32) :
    Ensures Unqueued (Ending.Keeps s.kernel) (s.futexWake cur uaddr all) := by
  rw [futexWake]
  split
  · exact ensures_returned h _ _
  apply ensures_lift_bind
  intro phys _
  dsimp only
  split
  · exact ensures_tell_bind (by simp [Unqueued]) (ensures_returned h _ _)
  split
  next => exact ensures_returned h _ _
  next wq _ =>
    refine (ensures_wakeLoop wq _ _ h).bind fun x hx => ensures_lift_bind fun futex hfutex => ?_
    -- releasing the word touches the buckets, not the waiters
    have hwaiters : futex.waiters = x.2.futex.waiters := by
      rw [Futex.release] at hfutex
      split at hfutex
      · obtain ⟨buckets, -, hret⟩ := Option.bind_eq_some_iff.mp hfutex
        cases hret
        rfl
      · cases hfutex
        rfl
    have hinv : Inv { x.2 with futex } := hx.1.congr rfl rfl hwaiters (.refl _)
    exact hx.2 ▸ ensures_returned hinv _ _

/-- `SYS_FUTEX` is one of these two. -/
theorem ensures_sysFutex {env : Env} (h : s.Inv) (hcur : s.sched.current = some cur)
    (a1 a2 a3 : BitVec 64) :
    Ensures Unqueued (Ending.Keeps s.kernel) (s.sysFutex env cur a1 a2 a3) := by
  unfold sysFutex
  split_ifs
  · exact ensures_futexWait h hcur _ _
  · exact ensures_futexWake h _ _
  · exact ensures_returned h _ _

/-! ### `TC_CREATE`

The new thread is the next one to come, and it is on no queue before it is enqueued. -/

/-- The new thread is the next one to come. -/
theorem Inv.initThread (h : s.Inv) {k : Kernel σ} (hlater : s.kernel.Later k) {tid : BitVec 64}
    (htid : tid.toNat = s.kernel.nextTid.toNat)
    (hnext : k.nextTid.toNat = s.kernel.nextTid.toNat + 1) (utcb : Addr) :
    (System.initThread { s with kernel := k } tid utcb).Inv := by
  obtain ⟨hcreated, hep, -⟩ := h.tied.unborn tid.toNat htid.ge
  have hactive : ¬ s.sched.Active tid.toNat := by simp [Sched.Active, hcreated]
  -- the new thread was in no queue, and none of its fields was set
  have hdetached : ∀ t, s.ipc.Detached t →
      (System.initThread { s with kernel := k } tid utcb).ipc.Detached t := by
    intro t ht
    refine ⟨?_, ht.list, ht.wait⟩
    by_cases htt : t = tid.toNat
    · simp [System.initThread, IpcState.modify_thread, htt]
    · simpa [System.initThread, IpcState.modify_thread, htt] using ht.epState
  have hgood : (s.sched.modify tid.toNat fun _ =>
      { state := .created, currentLevel := 0, timeQuantumLeft := 0, totalCpuTime := 0 }).GoodFor
        Sched.Bounded :=
    h.sched.modify_inactive hactive (by simp) (by simp [Sched.Bounded])
  refine ⟨hgood, ?_, ?_, ?_⟩
  -- its record is reset, which nobody else looks at
  · refine fun c => (h.tied.attached c).congr rfl (fun t => ?_) fun t hb _ => ?_
    all_goals by_cases htt : t = tid.toNat
    · simp [System.ipcView, System.initThread, IpcState.modify_thread, htt, hep]
    · simp [System.ipcView, System.initThread, IpcState.modify_thread, htt]
    · rw [htt] at hb
      exact absurd (hcreated.symm.trans hb) (by simp)
    · simpa [System.ipcView, System.initThread, htt] using hb
  · intro t ht
    obtain ⟨hb, hdet⟩ := h.tied.waiting t ht
    refine ⟨?_, hdetached t hdet⟩
    have htt : t ≠ tid.toNat := by
      rintro rfl
      exact absurd (hcreated.symm.trans hb) (by simp)
    simpa [System.initThread, htt] using hb
  · intro t ht
    change k.nextTid.toNat ≤ t at ht
    have htt : t ≠ tid.toNat := by
      rintro rfl
      omega
    obtain ⟨hcreated', hep', hfree⟩ := h.tied.unborn t (by omega)
    refine ⟨by simpa [System.initThread, htt] using hcreated', ?_, fun hlt => ?_⟩
    · simpa [System.initThread, IpcState.modify_thread, htt] using hep'
    · refine hlater.registered _ ?_ (hfree hlt)
      rwa [BitVec.toNat_ofNat, Nat.mod_eq_of_lt hlt]

section PageAllocator

variable [PageAllocator σ]

/-- `TC_CREATE`, when a pmap that it is given is there, and the memory that it gets for a new one is
not that of another pmap. -/
theorem ensures_tcCreate {env : Env} (h : s.Inv) {a3 a4 a5 : BitVec 64}
    (hgiven : a3 ≠ 0 → (s.kernel.pmaps a3).isSome)
    (hfresh : a3 = 0 → env.alloc.pmapPtr ≠ 0 → s.kernel.pmaps env.alloc.pmapPtr = none) :
    Ensures Unqueued (Ending.Keeps s.kernel) (s.tcCreate env a3 a4 a5) := by
  apply ensures_lift_bind
  intro x hx
  obtain ⟨pmap, k⟩ := x
  have hsame : s.kernel.SameThreads k := by
    split at hx
    · cases hx
      exact .refl _
    · exact Kernel.pmapCreate_sameThreads hx
  have hlinked : s.kernel.Linked → k.Linked ∧ (pmap ≠ 0 → (k.pmaps pmap).isSome) := by
    intro hs
    split at hx
    next ha3 =>
      cases hx
      exact ⟨hs, hgiven⟩
    next => exact hs.pmapCreate hx
  dsimp only
  split
  · exact ensures_done h _ hsame.later fun hs => (hlinked hs).1
  next hpmap =>
  have hlinked : s.kernel.Linked → k.Linked ∧ (k.pmaps pmap).isSome :=
    fun hs => ⟨(hlinked hs).1, (hlinked hs).2 hpmap⟩
  split
  next k₁ hcreate =>
    apply ensures_lift_bind
    intro k₂ hk₂
    split
    next => exact ensures_lift nofun
    next hlast =>
      have hlast : k.nextTid ≠ -1 := by simpa [lastTid, hsame.nextTid] using hlast
      have hsame₂ : k₁.SameThreads k₂ := by
        split at hk₂
        · exact Kernel.pmapDestroy_sameThreads hk₂
        · cases hk₂
          exact .refl _
      refine ensures_done h _
        (hsame.later.trans ((Kernel.later_threadCreateChild hcreate hlast).1.trans hsame₂.later))
        fun hs => ?_
      obtain ⟨hk, hsome⟩ := hlinked hs
      have hk₁ := hk.threadCreateChild hcreate hsome
      split at hk₂
      next ha3 =>
        -- no thread has come to point to the new pmap
        apply hk₁.pmapDestroy hk₂
        intro tid htid
        rw [if_neg (not_not.mpr ha3)] at hx
        obtain ⟨rfl, hne⟩ := Kernel.pmapCreate_ptr hx hpmap
        have hthread : k₁.thread = s.kernel.thread :=
          (Kernel.thread_of_threadCreateChild hcreate).trans hsame.thread
        rw [hthread] at htid
        have hdangling := hs tid (htid ▸ hne)
        rw [htid, hfresh ha3 hne] at hdangling
        cases hdangling
      next =>
        cases hk₂
        exact hk₁
  next tid k₁ hcreate =>
    refine ensures_tell_bind (fun e he => ?_) (ensures_lift_bind fun k₂ hutcb => ?_)
    · rcases List.mem_append.mp he with he | he
      all_goals
        obtain ⟨ptr, -, rfl⟩ := List.mem_map.mp he
        trivial
    · split
      next => exact ensures_lift nofun
      next hlast =>
        have hlast : k.nextTid ≠ -1 := by simpa [lastTid, hsame.nextTid] using hlast
        obtain ⟨hlater, htid⟩ := Kernel.later_threadCreateChild hcreate hlast
        obtain ⟨hlater₂, hnext₂⟩ := Kernel.later_setUtcb hutcb
        obtain ⟨htid, hnext⟩ := htid tid rfl
        rw [hsame.nextTid] at htid hnext
        rw [← hnext₂] at hnext
        apply ensures_pure
        intro s' hs'
        cases hs'
        refine ⟨h.initThread (hsame.later.trans (hlater.trans hlater₂)) htid hnext a5, fun hs => ?_⟩
        obtain ⟨hk, hsome⟩ := hlinked hs
        exact (hk.threadCreateChild hcreate hsome).setUtcb hutcb

/-- The pmap pointers that `SYS_THREAD_CONTROL` is given are those of pmaps that are there, and the
memory it gets for a new pmap is not that of another one. -/
structure SpacesGiven (s : System σ) (cur : Tid) (env : Env) (op a2 a3 : BitVec 64) : Prop where
  create : op = 0 → a3 ≠ 0 → (s.kernel.pmaps a3).isSome
  fresh : op = 0 → a3 = 0 → env.alloc.pmapPtr ≠ 0 → s.kernel.pmaps env.alloc.pmapPtr = none
  bind : op = 2 → s.kernel.registered a2 = true →
    (s.kernel.thread a2).pagerTid = BitVec.ofNat 64 cur → a3 ≠ 0 → (s.kernel.pmaps a3).isSome

/-- `SYS_THREAD_CONTROL`, for address spaces that exist. -/
theorem ensures_sysThreadControl {env : Env} (h : s.Inv) (hcur : s.sched.current = some cur)
    {op a2 a3 a4 a5 : BitVec 64} (hgiven : s.SpacesGiven cur env op a2 a3) :
    Ensures Unqueued (Ending.Keeps s.kernel) (s.sysThreadControl env cur op a2 a3 a4 a5) := by
  unfold sysThreadControl
  split_ifs with hop₀ hop₁ hop₂
  · exact ensures_tcCreate h (hgiven.create hop₀) (hgiven.fresh hop₀)
  · exact ensures_tcDestroy h hcur _
  · exact ensures_tcBindSpace h (hgiven.bind hop₂)
  · exact ensures_returned h _ _

end PageAllocator

/-! ### `SYS_IPC`

Threads that are woken are blocked ones, each on the list that the operation takes it off. -/

/-- `sched_wakeup`, for one thread after the other. -/
theorem ensures_foldlM (l : List Tid) (hl : l.Nodup) {s : System σ}
    (h : s.sched.GoodFor Sched.Bounded) (hblocked : ∀ t ∈ l, (s.sched.thread t).state = .blocked) :
    Ensures Unqueued (fun s' => ∃ sched, s' = { s with sched } ∧ sched.GoodFor Sched.Bounded ∧
        sched.current = s.sched.current ∧
        ∀ u, (sched.thread u).state = if u ∈ l then .ready else (s.sched.thread u).state)
      (l.foldlM schedWakeup s) := by
  induction l generalizing s with
  | nil => exact ensures_pure ⟨s.sched, rfl, h, rfl, fun u => by simp⟩
  | cons t l ih =>
      obtain ⟨htl, hl⟩ := List.nodup_cons.mp hl
      rw [List.foldlM_cons]
      have ht : ¬ s.sched.Active t := by simp [Sched.Active, hblocked t List.mem_cons_self]
      apply (System.ensures_schedEnqueue h ht).bind
      intro s₁ hs₁
      obtain ⟨sched₁, rfl, hgood, hcurrent, hstate⟩ := hs₁
      refine (ih hl hgood fun u hu => ?_).weaken fun s' hs' => ?_
      -- the list has no duplicates, so that the others are still blocked
      · have hut : u ≠ t := by
          rintro rfl
          exact htl hu
        exact (hstate u).trans ((if_neg hut).trans (hblocked u (List.mem_cons_of_mem t hu)))
      · obtain ⟨sched, rfl, hgood', hcurrent', hstate'⟩ := hs'
        refine ⟨sched, rfl, hgood', hcurrent'.trans hcurrent, fun u => ?_⟩
        rw [hstate', hstate]
        by_cases hut : u = t <;> simp [hut]

/-- A thread on the queue of the current one is blocked. -/
theorem Tied.sender_blocked (h : s.Tied) {t : Tid} (ht : t ∈ sender (s.ipcView cur)) :
    (s.sched.thread t).state = .blocked := by
  rw [sender] at ht
  split at ht
  next snd rest hqueue =>
    obtain rfl := List.mem_singleton.mp ht
    have hhome := ListStore.home_of_mem (hqueue ▸ List.mem_cons_self)
    exact (h.attached cur).list_home t (by simp [hhome])
  next => cases ht

/-- The threads that an operation may wake are not to come. -/
theorem Tied.candidates_born (h : s.Tied) {op : IpcState.Op}
    (hborn : ∀ T, op.target = some T → T < s.kernel.nextTid.toNat) {t : Tid}
    (ht : t ∈ candidates (s.ipcView cur) op) : t < s.kernel.nextTid.toNat := by
  have hsender : t ∈ sender (s.ipcView cur) → t < s.kernel.nextTid.toNat := fun hmem =>
    h.born (by simp [h.sender_blocked hmem])
  cases op with
  | send T words | call T words =>
      obtain rfl := List.mem_singleton.mp ht
      exact hborn t rfl
  | recv => exact hsender ht
  | replyRecv words =>
      rcases List.mem_append.mp ht with hdest | hmem
      · -- the thread that a reply goes to is registered
        have hdest := Option.mem_toList.mp hdest
        simp only [IpcState.replyDest, Option.ite_none_right_eq_some, Option.some.injEq] at hdest
        obtain ⟨⟨-, hreg, -⟩, rfl⟩ := hdest
        obtain ⟨hlt, hreg⟩ := (Bool.and_eq_true _ _).mp hreg
        have hnext := h.lt_nextTid hreg
        rwa [BitVec.toNat_ofNat, Nat.mod_eq_of_lt (of_decide_eq_true hlt)] at hnext
      · exact hsender hmem
  | resume => cases ht

/-- A thread is woken if it was blocked and is ready. -/
theorem mem_woken {view ipc : IpcState} {op : IpcState.Op} {t : Tid} :
    t ∈ woken view op ipc ↔ t ∈ candidates view op ∧ (view.thread t).state = .blocked ∧
      (ipc.thread t).state = .ready := by
  rw [woken, List.mem_filter, List.mem_dedup, decide_eq_true_eq]

section Exec

variable {op : IpcState.Op} {ipc ipc₁ : IpcState}
  (hstirs : IpcState.Stirs (candidates (s.ipcView cur) op) (s.ipcView cur) ipc₁)
  (hend : ipc = ipc₁ ∨ ∃ f, ipc = ipc₁.schedBlock f)

include hstirs hend

/-- Blocking at the end is seen in the current thread only. -/
theorem exec_thread {t : Tid} (ht : t ≠ cur) : ipc.thread t = ipc₁.thread t := by
  have hcurrent : ipc₁.current = cur := hstirs.current
  rcases hend with rfl | ⟨f, rfl⟩
  · rfl
  · simp [IpcState.schedBlock, IpcState.modify_thread, hcurrent, ht]

/-- An operation of `ipc.c` links the caller only. -/
theorem exec_detached {t : Tid} (ht : t ≠ cur) (hdetached : s.ipc.Detached t) : ipc.Detached t := by
  have hdetached₁ := hstirs.detached t ht (detached_ipcView.mpr hdetached)
  have hthread := exec_thread hstirs hend ht
  rcases hend with rfl | ⟨f, rfl⟩
  · exact hdetached₁
  · exact ⟨hthread ▸ hdetached₁.epState, hdetached₁.list, hdetached₁.wait⟩

/-- The states after an operation are those that its calls of `sched_wakeup` lead to. -/
theorem exec_state {t : Tid} (ht : t ≠ cur) : (ipc.thread t).state =
    if t ∈ woken (s.ipcView cur) op ipc then .ready else (s.sched.thread t).state := by
  have hthread := exec_thread hstirs hend ht
  split
  next hwoken => exact (mem_woken.mp hwoken).2.2
  next hnot =>
    rcases hstirs.state t with hst | ⟨hb, hr, hmem, -⟩
    · rw [hthread]
      exact hst
    · exact absurd (mem_woken.mpr ⟨hmem, hb, by rw [hthread, hr]⟩) hnot

/-- What is left of the invariant when the scheduler has caught up with the operation. -/
theorem Inv.exec_tied (h : s.Inv) (hcur : s.sched.current = some cur) (hattached : ipc.Attached)
    (hborn : ∀ T, op.target = some T → T < s.kernel.nextTid.toNat) (sched : Sched)
    (hsched : ∀ t, (sched.thread t).state = (ipc.thread t).state) : Tied { s with ipc, sched } := by
  have hrunning := h.running hcur
  refine ⟨fun c => hattached.congr rfl (fun _ => rfl) fun t hb _ => (hsched t).trans hb,
    fun t ht => ?_, fun t ht => ?_⟩
  · obtain ⟨hb, hdetached⟩ := h.tied.waiting t ht
    have htc : t ≠ cur := by
      rintro rfl
      simp [hrunning] at hb
    refine ⟨?_, exec_detached hstirs hend htc hdetached⟩
    rw [hsched, exec_thread hstirs hend htc]
    -- a thread that waits for a futex is not woken by an operation
    rcases hstirs.state t with hst | ⟨-, -, -, hlinked⟩
    · exact hst.trans hb
    · exact absurd (detached_ipcView.mpr hdetached) hlinked
  · obtain ⟨hcreated, hep, hfree⟩ := h.tied.unborn t ht
    have htc : t ≠ cur := by
      rintro rfl
      simp [hrunning] at hcreated
    have hsame : ipc.thread t = (s.ipcView cur).thread t := by
      rw [exec_thread hstirs hend htc]
      exact hstirs.thread t htc fun hmem => (h.tied.candidates_born hborn hmem).not_ge ht
    have hstate := congrArg Thread.state hsame
    exact ⟨(hsched t).trans (hstate.trans hcreated),
      (congrArg Thread.epState hsame).trans hep, hfree⟩

end Exec

/-- An operation, when it is careful. -/
theorem ensures_ipcExec (h : s.Inv) (hcur : s.sched.current = some cur) {op : IpcState.Op}
    (hop : (s.ipcView cur).Careful op)
    (hborn : ∀ T, op.target = some T → T < s.kernel.nextTid.toNat)
    (hresume : op = .resume → (s.ipc.thread cur).frame ≠ none) :
    Ensures Unqueued (Ending.Keeps s.kernel) (s.ipcExec cur op) := by
  have hrunning := h.running hcur
  have hnot : (s.ipcView cur).cur.state ≠ .blocked := by
    change (s.sched.thread cur).state ≠ .blocked
    simp [hrunning]
  obtain ⟨ipc, events, hexec, hattached⟩ := (h.tied.attached cur).exec hnot hop hresume
  obtain ⟨ipc₁, hstirs, hend⟩ := IpcState.exec_stirs hnot hexec
  have hnotin : cur ∉ woken (s.ipcView cur) op ipc := fun hmem => hnot (mem_woken.mp hmem).2.1
  rw [ipcExec, hexec]
  apply ensures_lift_bind
  intro x hx
  cases hx
  refine (ensures_foldlM (s := { s with ipc }) (woken (s.ipcView cur) op ipc)
    ((List.nodup_dedup _).filter _) h.sched fun t ht => (mem_woken.mp ht).2.1).bind fun s₁ hs₁ => ?_
  obtain ⟨sched, rfl, hgood, hcurrent, hsched⟩ := hs₁
  have hothers : ∀ t, t ≠ cur → (sched.thread t).state = (ipc.thread t).state := by
    intro t ht
    rw [hsched, exec_state hstirs hend ht]
  split
  next hb =>
    refine ensures_leave (s := { s with ipc, sched }) .blocked hgood (hcurrent.trans hcur) (by simp)
      (by simp) (h.exec_tied hstirs hend hcur hattached hborn _ fun t => ?_)
    by_cases htc : t = cur
    · simp [htc, hb]
    · simp [htc, hothers t htc]
  next hb =>
    refine ensures_returned
      ⟨hgood, h.exec_tied hstirs hend hcur hattached hborn sched fun t => ?_⟩ _ _
    by_cases htc : t = cur
    · -- the current thread has not been blocked, and goes on running
      subst htc
      rw [hsched, if_neg hnotin]
      rcases hend with rfl | ⟨f, rfl⟩
      · rcases hstirs.state t with hst | ⟨hb', -⟩
        · exact hst.symm
        · exact absurd hb' hnot
      · have hcurrent₁ : ipc₁.current = t := hstirs.current
        simp [IpcState.schedBlock, IpcState.modify_thread, hcurrent₁] at hb
    · exact hothers t htc

/-- What `SYS_IPC` must not do, see `IpcState.Careful`. -/
def CarefulIpc (s : System σ) (cur : Tid) (packed : BitVec 64) : Prop :=
  let op := packed >>> 32
  let tid := packed &&& 0xFFFFFFFF#64
  (op = 0 → s.kernel.registered tid →
      ∀ words, (s.ipcView cur).Careful (.send tid.toNat words)) ∧
    (op = 2 → s.kernel.registered tid →
      ∀ words, (s.ipcView cur).Careful (.call tid.toNat words)) ∧
    (op = 3 → ∀ words, (s.ipcView cur).Careful (.replyRecv words))

/-- `SYS_IPC`, of a careful caller. -/
theorem ensures_sysIpc (h : s.Inv) (hcur : s.sched.current = some cur)
    {packed a2 a3 a4 a5 a6 : BitVec 64} (hop : s.CarefulIpc cur packed) :
    Ensures Unqueued (Ending.Keeps s.kernel) (s.sysIpc cur packed a2 a3 a4 a5 a6) := by
  obtain ⟨hsend, hcall, hreply⟩ := hop
  have hborn : s.kernel.registered (packed &&& 0xFFFFFFFF#64) = true →
      ∀ T, some (packed &&& 0xFFFFFFFF#64).toNat = some T → T < s.kernel.nextTid.toNat := by
    rintro hreg T ⟨⟩
    exact h.tied.lt_nextTid hreg
  rw [sysIpc]
  -- one case per operation; the tests make its condition
  split_ifs with hop₀ hreg hop₁ hop₂ hreg hop₃
  · exact ensures_returned h _ _
  · have hreg : s.kernel.registered (packed &&& 0xFFFFFFFF#64) = true := by simpa using hreg
    exact ensures_ipcExec h hcur (hsend hop₀ hreg _) (hborn hreg) (by simp)
  · exact ensures_ipcExec h hcur trivial (by simp [IpcState.Op.target]) (by simp)
  · exact ensures_returned h _ _
  · have hreg : s.kernel.registered (packed &&& 0xFFFFFFFF#64) = true := by simpa using hreg
    exact ensures_ipcExec h hcur (hcall hop₂ hreg _) (hborn hreg) (by simp)
  · exact ensures_ipcExec h hcur (hreply hop₃ _) (by simp [IpcState.Op.target]) (by simp)
  · exact ensures_returned h _ _

/-! ### Whole runs

What a step must not do, and that the contract of the scheduler is kept as long as no step does it.
-/

/-- What a step must not do for the contract of the scheduler to be kept:

* store into the kernel's own code or data, by `EXR_READ` or `TC_CREATE`;
* hand a thread the address of a pmap that is not there, by `TC_CREATE` or `TC_BIND_SPACE`;
* `EXR_DEACTIVATE` a thread that is blocked on a wait queue;
* `SYS_SCHEDULE` a thread that is ready or running to a level that there is not, or to a quantum of
  `0`;
* with `SYS_IPC`, hand something to a thread whose own request is still queued, or call while
  senders are queued at the caller's own endpoint. -/
def Meets [PageAllocator σ] (s : System σ) (cur : Tid) : Act → Prop
  | .syscall env c =>
      s.overwrites (.syscall env c) = false ∧
      (c.num = 0 → s.SpacesGiven cur env c.a1 c.a2 c.a3) ∧
      (c.num = 1 → c.a5 = 3 → s.kernel.registered c.a1 →
        (s.sched.thread c.a1.toNat).state = .blocked → ¬ s.Waits c.a1.toNat) ∧
      (c.num = 2 → s.CarefulIpc cur c.a1) ∧
      (c.num = 6 → s.kernel.registered c.a1 → s.sched.Active c.a1.toNat →
        (c.a2 ≠ -1 → (c.a2.setWidth 32 : BitVec 32).toNat < mlfqLevels) ∧
          (c.a3 ≠ -1 → (c.a3.setWidth 32 : BitVec 32) ≠ 0))
  | .resume | .tick => True

/-- What meets the condition does not overwrite the data of the kernel. -/
theorem Meets.spares [PageAllocator σ] {act : Act} (h : s.Meets cur act) :
    s.overwrites act = false := by
  cases act with
  | syscall env c => exact h.1
  | resume | tick => rfl

/-- The contract of the scheduler, in a state between two steps. -/
structure Contract (s : System σ) : Prop where
  /-- The levels of threads that are ready or running are those of run queues. -/
  level : ∀ t, s.sched.Active t → (s.sched.thread t).currentLevel.toNat < mlfqLevels
  /-- Where a level is used as an index, it is one. -/
  index : s.sched.schedTick.isSome ∧ s.sched.schedYield.isSome
  quantum : ∀ t, (s.sched.thread t).state = .running → (s.sched.thread t).timeQuantumLeft ≠ 0
  /-- A thread that is ready is on no wait queue. -/
  waits : ∀ t, (s.sched.thread t).state = .ready →
    (∀ T, .ipcList t ∉ s.ipc.queues.queue T ∧ .ipcWaitList t ∉ s.ipc.queues.queue T) ∧
      ∀ wq, t ∉ s.futex.waiters.queue wq

/-- The invariant is what `sched.c` asks of its callers. -/
theorem Inv.contract (h : s.Inv) : s.Contract where
  level t ht := (h.sched.queued.rule t ht).1
  index := by
    obtain ⟨sched, htick, -⟩ := h.sched.schedTick Sched.closed_bounded
    obtain ⟨sched', hyield, -⟩ := h.sched.schedYield Sched.closed_bounded
    rw [htick, hyield]
    exact ⟨rfl, rfl⟩
  quantum t ht := (h.sched.queued.rule t (Or.inr ht)).2
  waits t ht := by
    obtain ⟨hipc, hfutex⟩ := not_or.mp (h.tied.not_waits (t := t) (by simp [ht]))
    have hdetached := not_not.mp hipc
    exact ⟨fun T => ⟨ListStore.notMem_queue hdetached.list T,
      ListStore.notMem_queue hdetached.wait T⟩, ListStore.notMem_queue (not_not.mp hfutex)⟩

/-- A thread goes on in the kernel where it was interrupted. -/
theorem ensures_resume (h : s.Inv) (hcur : s.sched.current = some cur) (hmode : ¬ s.UserMode cur) :
    Ensures Unqueued (Ending.Keeps s.kernel) (s.resume cur) := by
  rw [resume]
  split
  next =>
    have hinv : Inv { s with kont := Function.update s.kont cur none } :=
      h.congr rfl rfl rfl (.refl _)
    exact ensures_returned hinv _ _
  -- the thread that was to be destroyed goes now, when its destroyer runs again
  next target _ =>
    have hinv : Inv { s with
        kont := Function.update s.kont cur none
        kernel := s.kernel.threadDestroy target } :=
      h.congr rfl rfl rfl (Kernel.later_update s.kernel target)
    exact ensures_returned hinv _ _
  next hkont =>
    exact ensures_ipcExec h hcur trivial (by simp [IpcState.Op.target]) fun _ hframe =>
      hmode ⟨hframe, hkont⟩

section PageAllocator

variable [PageAllocator σ]

/-- Every system call that meets the condition. -/
theorem ensures_doSyscall {env : Env} {c : Call} (h : s.Inv) (hcur : s.sched.current = some cur)
    (hmeets : s.Meets cur (.syscall env c)) :
    Ensures Unqueued (Ending.Keeps s.kernel) (s.doSyscall env cur c) := by
  obtain ⟨-, hspaces, hexr, hipc, hschedule⟩ := hmeets
  rw [doSyscall]
  split
  -- one lemma for each system call, under the part of the condition that is about it
  next hnum => exact ensures_sysThreadControl h hcur (hspaces (BitVec.eq_of_toNat_eq hnum))
  next hnum => exact ensures_sysExchangeRegisters h (hexr (BitVec.eq_of_toNat_eq hnum))
  next hnum => exact ensures_sysIpc h hcur (hipc (BitVec.eq_of_toNat_eq hnum))
  next => exact ensures_ofKernel h fun v k hk => Kernel.sysMap_sameSpaces hk
  next => exact ensures_ofKernel h fun v k hk => Kernel.sysGrant_sameSpaces hk
  next => exact ensures_ofKernel h fun v k hk => Kernel.sysUnmap_sameSpaces hk
  next hnum => exact ensures_pure (keeps_sysSchedule h (hschedule (BitVec.eq_of_toNat_eq hnum)))
  next => exact ensures_sysThreadSwitch h
  next => exact ensures_sysWrite h _ _ _
  next => exact ensures_sysFutex h hcur _ _ _
  all_goals exact ensures_returned h _ _

/-- Every step that meets the condition keeps the invariant. -/
theorem ensures_step {act : Act} (h : s.Inv) (hcur : s.sched.current = some cur)
    (henabled : s.Enabled cur act) (hmeets : s.Meets cur act) :
    Ensures Unqueued (Ending.Keeps s.kernel) (s.step cur act) := by
  cases act with
  | syscall env c => exact ensures_doSyscall h hcur hmeets
  | resume => exact ensures_resume h hcur henabled
  | tick =>
      refine ensures_lift_bind fun s₁ hs₁ => ensures_pure fun s' hs' => ?_
      cases hs'
      exact ⟨h.schedTick hs₁, schedTick_linked hs₁⟩

omit [PageAllocator σ] in
/-- The invariant holds after boot. -/
theorem Booted.inv (h : s.Booted) : s.Inv := by
  obtain ⟨⟨s₀, hbefore, hnext, hboot⟩, ⟨hqueues, hipc⟩, ⟨hwaiters, -⟩, -, hunborn⟩ := h
  have hdetached : ∀ t, s.ipc.Detached t := by
    intro t
    refine ⟨by simp [(hipc t).1], ?_, ?_⟩ <;> rw [hqueues] <;> rfl
  refine ⟨(hbefore.good hnext hboot).mono fun _ _ => Sched.bounded_of_levelled, fun c => ?_,
    fun t ht => ?_, fun t ht => ⟨(hunborn t ht).1, (hipc t).1, (hunborn t ht).2⟩⟩
  · have hep : ∀ t, ((s.ipcView c).thread t).epState = .inactive := fun t => (hipc t).1
    have hview : (s.ipcView c).queues = ListStore.empty := hqueues
    constructor <;> simp [hep, hview, ListStore.empty]
  · rw [hwaiters] at ht
    exact absurd rfl ht

/-- The program in user mode does not touch what the invariant is about. -/
theorem Run.intact {s₀ : System σ} (hboot : s₀.Booted) (hlinked : s₀.kernel.Linked)
    (hrun : Run Meets s₀ s) : s.Intact := by
  induction hrun with
  | init => exact ⟨hboot.inv, hlinked⟩
  | step _ hcur henabled hmeets hstep ih =>
      obtain ⟨ending, hending, hnext⟩ := hstep.result hmeets.spares fun _ => ih
      obtain ⟨hinv, hlinks⟩ := (ensures_step ih.inv hcur henabled hmeets).val _ hending _ hnext
      exact ⟨hinv, hlinks ih.linked⟩
  | user _ _ mem tf ih =>
      exact ⟨ih.inv.congr rfl rfl rfl (Kernel.later_of_eq rfl rfl), ih.linked⟩

end PageAllocator

/-- The two threads before `sched_boot`. -/
def twoEnqueued : Sched where
  thread t :=
    { state := if t = 1 ∨ t = 2 then .ready else .created
      currentLevel := 0
      timeQuantumLeft := 1
      totalCpuTime := 0 }
  runq := (ListStore.empty.snocAt 2 Sched.top rfl).snocAt 1 Sched.top rfl
  current := none
  ticks := 0

/-- Two threads have been enqueued before `sched_boot`. -/
theorem beforeBoot_twoEnqueued : Sched.BeforeBoot twoEnqueued := by
  let s₀ : Sched :=
    { thread := fun _ =>
        { state := .created, currentLevel := 0, timeQuantumLeft := 1, totalCpuTime := 0 }
      runq := ListStore.empty
      current := none
      ticks := 0 }
  let s₁ : Sched := { s₀.modify 2 fun th => { th with state := .ready } with
    runq := ListStore.empty.snocAt 2 Sched.top rfl }
  -- thread 2 and then thread 1, as the boot code makes them
  have h₀ : Sched.BeforeBoot s₀ := .init (fun _ => ⟨rfl, rfl⟩) rfl rfl
  have h₁ : Sched.BeforeBoot s₁ := .enqueue h₀ (t := 2) rfl rfl
  refine .enqueue h₁ (t := 1) rfl ?_
  rw [Sched.schedEnqueue, Sched.pushBack, Sched.modify_runq, ListStore.pushBack_eq_some 0 rfl]
  refine congrArg some ?_
  simp only [Sched.modify, twoEnqueued, s₁, s₀, Sched.mk.injEq, and_true]
  refine ⟨?_, rfl⟩
  funext t
  by_cases h1 : t = 1 <;> by_cases h2 : t = 2 <;> simp_all [quantumTicks]

/-- `sched_boot` runs the first of them. -/
theorem schedBoot_twoEnqueued : twoEnqueued.schedBoot = some twoThreads.sched := by
  have hnext : twoEnqueued.nextThread = some 2 := rfl
  have hhome : twoEnqueued.runq.home 2 = some 0 := rfl
  rw [Sched.schedBoot, Sched.schedPick, hnext]
  simp only [Sched.unlink, ListStore.unlink_eq_some hhome, Option.bind_eq_bind, Option.bind_some,
    Option.pure_def]
  apply congrArg some
  simp only [Sched.run, Sched.modify, twoEnqueued, twoThreads, Sched.mk.injEq, and_true]
  refine ⟨?_, ?_⟩
  · funext t
    by_cases h1 : t = 1 <;> by_cases h2 : t = 2 <;> simp_all
  · ext l : 2
    · by_cases hl : l = 0 <;> simp_all [ListStore.empty, Sched.top]
    · by_cases h1 : l = 1 <;> by_cases h2 : l = 2 <;> simp_all [ListStore.empty]

/-- The state after that is one after boot. -/
theorem twoThreads_booted : twoThreads.Booted where
  sched := ⟨twoEnqueued, beforeBoot_twoEnqueued, by decide, schedBoot_twoEnqueued⟩
  ipc := ⟨rfl, fun _ => ⟨rfl, rfl⟩⟩
  futex := ⟨rfl, rfl⟩
  kont _ := rfl
  unborn t ht := by
    have hne : ∀ k, k < 3 → t ≠ k := fun k hk => (hk.trans_le ht).ne'
    refine ⟨by simp [twoThreads, hne 1 (by decide), hne 2 (by decide)], fun hlt => ?_⟩
    have hofNat : ∀ k, k < 3 → BitVec.ofNat 64 t ≠ BitVec.ofNat 64 k := by
      intro k hk heq
      have hnat := congrArg BitVec.toNat heq
      rw [BitVec.toNat_ofNat, BitVec.toNat_ofNat, Nat.mod_eq_of_lt hlt,
        Nat.mod_eq_of_lt (hk.trans (by decide))] at hnat
      exact hne k hk hnat
    exact decide_eq_false (not_or.mpr ⟨hofNat 1 (by decide), hofNat 2 (by decide)⟩)

/-- Its threads have pagers and address spaces that exist. -/
theorem twoThreads_linked : twoThreads.kernel.Linked := fun _ _ => rfl

/-- `SYS_SCHEDULE` of thread 2 to a quantum of `0`. -/
def quantumCall : Call where
  num := 6
  a1 := 2
  a2 := -1
  a3 := 0
  a4 := 0
  a5 := 0
  a6 := 0

end System

end Koharu
