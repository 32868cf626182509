import Koharu.Task.SystemRuns
import Koharu.Task.KernelHalf
import Koharu.Task.SchedInvariant

/-!
# Control over other threads

What a system call does to a thread that is neither its caller, nor one the caller is the pager of,
nor the target of `SYS_EXCHANGE_REGISTERS` or `SYS_SCHEDULE`, which do not ask for the pager. Such a
thread keeps its registers, its address space and its place in the registry. The scheduler may wake
it, by IPC or a futex, and it may be the next to run; nothing else becomes of it.

The effects are collected from the bottom up. Functions on the tables and the grants leave all
threads alone (`SameThreads`, `SameSpaces`), the parts of `SYS_THREAD_CONTROL` change one thread
(`SameOthers`), and the scheduler wakes threads (`Woke`) or passes the CPU on (`Passed`). `Kept` is
what these come to for one thread in one call, and every system call has a lemma that ends in it. A
thread that gives up the CPU in the middle of a call finishes it later, when other threads have run:
what is left to do then is in `kont`, and `Kept` keeps track of it.
-/

namespace Koharu

namespace Kernel

variable {σ : Type} {s s' s'' : Kernel σ}

/-- The threads are the same. -/
structure SameThreads (s s' : Kernel σ) : Prop where
  thread : s'.thread = s.thread
  registered : s'.registered = s.registered
  nextTid : s'.nextTid = s.nextTid

/-- Nothing has happened to the threads. -/
theorem SameThreads.refl (s : Kernel σ) : s.SameThreads s := ⟨rfl, rfl, rfl⟩

/-- One step after the other. -/
theorem SameThreads.trans (h : s.SameThreads s') (h' : s'.SameThreads s'') : s.SameThreads s'' :=
  ⟨h'.thread.trans h.thread, h'.registered.trans h.registered, h'.nextTid.trans h.nextTid⟩

/-- The threads are the same, and there are pmaps at the same addresses. -/
structure SameSpaces (s s' : Kernel σ) : Prop extends s.SameThreads s' where
  pmaps : ∀ ptr, (s'.pmaps ptr).isSome = (s.pmaps ptr).isSome

/-- Nothing has happened to the threads and the address spaces. -/
theorem SameSpaces.refl (s : Kernel σ) : s.SameSpaces s := ⟨.refl s, fun _ => rfl⟩

/-- One step after the other. -/
theorem SameSpaces.trans (h : s.SameSpaces s') (h' : s'.SameSpaces s'') : s.SameSpaces s'' :=
  ⟨h.toSameThreads.trans h'.toSameThreads, fun ptr => (h'.pmaps ptr).trans (h.pmaps ptr)⟩

/-- Page tables and counters do not matter to where threads and pmaps are. -/
theorem sameSpaces_of_eq (hthread : s'.thread = s.thread)
    (hregistered : s'.registered = s.registered) (hnext : s'.nextTid = s.nextTid)
    (hpmaps : s'.pmaps = s.pmaps) : s.SameSpaces s' :=
  ⟨⟨hthread, hregistered, hnext⟩, fun ptr => by rw [hpmaps]⟩

/-- No pmap pointer dangles that did not before. -/
theorem SameSpaces.linked (h : s.SameSpaces s') (hs : s.Linked) : s'.Linked := by
  intro tid hne
  rw [h.thread] at hne ⊢
  rw [h.pmaps]
  exact hs tid hne

/-- A store through the active address space is to memory of users. -/
theorem putUserU64_sameSpaces {dst : Addr} {val : BitVec 64}
    (h : s.putUserU64 dst val = some s') : s.SameSpaces s' := by
  simp only [putUserU64, Option.bind_eq_bind, Option.bind_eq_some_iff] at h
  obtain ⟨bytes, -, hbytes⟩ := h
  split at hbytes
  · cases hbytes
  · cases hbytes
    exact sameSpaces_of_eq rfl rfl rfl rfl

/-- `grant_mapping_add` counts. -/
theorem grantMappingAdd_sameSpaces (s : Kernel σ) (pfn : BitVec 64) :
    s.SameSpaces (s.grantMappingAdd pfn) := by
  rw [grantMappingAdd]
  split <;> exact sameSpaces_of_eq rfl rfl rfl rfl

/-- `grant_mapping_remove` counts, too. -/
theorem grantMappingRemove_sameSpaces (s : Kernel σ) (pfn : BitVec 64) :
    s.SameSpaces (s.grantMappingRemove pfn) := by
  rw [grantMappingRemove]
  split <;> exact sameSpaces_of_eq rfl rfl rfl rfl

/-- So does the loop at the end of `SYS_MAP`. -/
theorem mapCount_sameSpaces {paEnd : Addr} (fuel : ℕ) {pa : Addr} {s : Kernel σ}
    (h : mapCount paEnd fuel pa s = some s') : s.SameSpaces s' := by
  induction fuel generalizing pa s with
  | zero => cases h
  | succ fuel ih =>
      rw [mapCount] at h
      split at h
      · exact (s.grantMappingAdd_sameSpaces _).trans (ih h)
      · cases h
        exact .refl _

/-- `grant_add` changes the lists of holders. -/
theorem grantAdd_sameSpaces {kmalloc ok : Bool} {pmap : Addr} {pfn : BitVec 64} {rights : BitVec 8}
    (h : s.grantAdd kmalloc pmap pfn rights = some (ok, s')) : s.SameSpaces s' := by
  rw [grantAdd] at h
  split at h
  · cases h
    exact .refl _
  · split at h
    · cases h
      exact .refl _
    · obtain ⟨p, hpmap, hp⟩ := Option.bind_eq_some_iff.mp h
      -- the pmap gets another list of grants and stays where it is
      have hset : s.SameSpaces (s.setGrants pmap p (addEntry pfn rights p.grants)) := by
        refine ⟨⟨rfl, rfl, rfl⟩, fun ptr => ?_⟩
        by_cases hptr : ptr = pmap
        · subst hptr
          simp [setGrants, hpmap]
        · simp [setGrants, hptr]
      split at hp
      · cases hp
        exact hset
      · cases hp
        exact hset.trans (sameSpaces_of_eq rfl rfl rfl rfl)

/-- `SYS_GRANT` is `grant_add`, after its checks. -/
theorem sysGrant_sameSpaces {kmalloc : Bool} {a1 a2 a3 v : BitVec 64}
    (h : s.sysGrant kmalloc a1 a2 a3 = some (v, s')) : s.SameSpaces s' := by
  rw [sysGrant] at h
  split at h
  · cases h
    exact .refl _
  · split at h
    · cases h
      exact .refl _
    -- the tests before this change nothing; only `grant_add` does, and it keeps the address spaces
    · obtain ⟨held, -, hheld⟩ := Option.bind_eq_some_iff.mp h
      split at hheld
      · cases hheld
        exact .refl _
      · obtain ⟨⟨ok, s₁⟩, hadd, hret⟩ := Option.bind_eq_some_iff.mp hheld
        cases hret
        exact grantAdd_sameSpaces hadd

/-- The threads other than `tid` are the same. -/
def SameOthers (tid : BitVec 64) (s s' : Kernel σ) : Prop :=
  ∀ T, T ≠ tid → s'.thread T = s.thread T ∧ s'.registered T = s.registered T

/-- If all threads are the same, all others are. -/
theorem SameThreads.sameOthers (h : s.SameThreads s') (tid : BitVec 64) : SameOthers tid s s' :=
  fun _ _ => ⟨by rw [h.thread], by rw [h.registered]⟩

/-- One step after the other. -/
theorem SameOthers.trans {tid : BitVec 64} (h : SameOthers tid s s') (h' : SameOthers tid s' s'') :
    SameOthers tid s s'' :=
  fun T hT => ⟨(h' T hT).1.trans (h T hT).1, (h' T hT).2.trans (h T hT).2⟩

/-- A new thread has the next tid. -/
theorem threadCreateChild_sameOthers {alloc : Alloc} {pmap : Addr} {o : Option (BitVec 64)}
    (h : s.threadCreateChild alloc pmap = (o, s')) :
    SameOthers (s.nextTid.setWidth 64) s s' ∧ (∀ tid, o = some tid → tid = s.nextTid.setWidth 64 ∧
      s'.nextTid = s.nextTid + 1) := by
  unfold threadCreateChild at h
  split_ifs at h
  · cases h
    exact ⟨fun _ _ => ⟨rfl, rfl⟩, fun tid ht => by cases ht⟩
  · cases h
    exact ⟨fun _ _ => ⟨rfl, rfl⟩, fun tid ht => by cases ht⟩
  · cases h
    refine ⟨fun T hT => ⟨Function.update_of_ne hT .., Function.update_of_ne hT ..⟩, ?_⟩
    rintro tid ⟨⟩
    exact ⟨rfl, rfl⟩

/-- The end of `TC_CONFIGURE` writes to the thread that it is called for. -/
theorem setUtcb_sameOthers {tid pager : BitVec 64} {utcb : Addr}
    (h : s.setUtcb tid pager utcb = some s') : SameOthers tid s s' ∧ s'.nextTid = s.nextTid := by
  unfold setUtcb at h
  dsimp only at h
  have hset : SameOthers tid s { s with
      thread := Function.update s.thread tid { s.thread tid with pagerTid := pager, utcb } } :=
    fun T hT => ⟨Function.update_of_ne hT .., rfl⟩
  split at h
  · cases h
    exact ⟨hset, rfl⟩
  · obtain ⟨s₁, hput, hput'⟩ := Option.bind_eq_some_iff.mp h
    have hsame := (putUserU64_sameSpaces hput).trans (putUserU64_sameSpaces hput')
    exact ⟨hset.trans (hsame.toSameThreads.sameOthers tid), hsame.nextTid⟩

section PageAllocator

variable [PageAllocator σ]

/-- `pmap_map` changes tables. -/
theorem pmapMap_sameSpaces {fuel : ℕ} {pmap virt phys size : Addr} {flags : BitVec 32} {ok : Bool}
    (h : s.pmapMap fuel pmap virt phys size flags = some (ok, s')) : s.SameSpaces s' := by
  rw [pmapMap] at h
  split at h
  · cases h
    exact .refl _
  · obtain ⟨p, -, hp⟩ := Option.bind_eq_some_iff.mp h
    obtain ⟨⟨ok', pm⟩, -, hret⟩ := Option.bind_eq_some_iff.mp hp
    cases hret
    exact sameSpaces_of_eq rfl rfl rfl rfl

/-- So does `pmap_unmap`. -/
theorem pmapUnmap_sameSpaces {fuel : ℕ} {pmap virt size : Addr}
    (h : s.pmapUnmap fuel pmap virt size = some s') : s.SameSpaces s' := by
  rw [pmapUnmap] at h
  split at h
  · cases h
    exact .refl _
  · obtain ⟨p, -, hp⟩ := Option.bind_eq_some_iff.mp h
    obtain ⟨pm, -, hret⟩ := Option.bind_eq_some_iff.mp hp
    cases hret
    exact sameSpaces_of_eq rfl rfl rfl rfl

/-- `pmap_create` makes an address space and leaves the threads alone. -/
theorem pmapCreate_sameThreads {ptr pmap : Addr} (h : s.pmapCreate ptr = some (pmap, s')) :
    s.SameThreads s' := by
  rw [pmapCreate] at h
  split at h
  · cases h
    exact .refl _
  · obtain ⟨p, -, hret⟩ := Option.bind_eq_some_iff.mp h
    cases hret
    exact ⟨rfl, rfl, rfl⟩

/-- `pmap_destroy` leaves them alone, too. -/
theorem pmapDestroy_sameThreads {pmap : Addr} (h : s.pmapDestroy pmap = some s') :
    s.SameThreads s' := by
  rw [pmapDestroy] at h
  split at h
  · cases h
    exact .refl _
  · obtain ⟨p, -, hret⟩ := Option.bind_eq_some_iff.mp h
    cases hret
    exact ⟨rfl, rfl, rfl⟩

/-- `SYS_MAP` changes tables and counters. -/
theorem sysMap_sameSpaces {fuel : ℕ} {a1 a2 a3 a4 a5 v : BitVec 64}
    (h : s.sysMap fuel a1 a2 a3 a4 a5 = some (v, s')) : s.SameSpaces s' := by
  unfold sysMap at h
  split_ifs at h
  -- the first four tests each return without a change
  iterate 4
    · cases h
      exact .refl _
  obtain ⟨held, -, hheld⟩ := Option.bind_eq_some_iff.mp h
  split at hheld
  · cases hheld
    exact .refl _
  · obtain ⟨⟨ok, s₁⟩, hmap, hok⟩ := Option.bind_eq_some_iff.mp hheld
    dsimp only at hok
    split at hok
    · cases hok
      exact pmapMap_sameSpaces hmap
    · obtain ⟨s₂, hcount, hret⟩ := Option.bind_eq_some_iff.mp hok
      cases hret
      exact (pmapMap_sameSpaces hmap).trans (mapCount_sameSpaces fuel hcount)

/-- Every page that the loop of `SYS_UNMAP` comes to is unmapped and counted. -/
theorem unmapPages_sameSpaces {pmap vaEnd : Addr} (fuel : ℕ) {va : Addr} {s : Kernel σ}
    (h : unmapPages pmap vaEnd fuel va s = some s') : s.SameSpaces s' := by
  induction fuel generalizing va s with
  | zero => cases h
  | succ fuel ih =>
      rw [unmapPages] at h
      split at h
      · obtain ⟨phys, -, hphys⟩ := Option.bind_eq_some_iff.mp h
        split at hphys
        · exact ih hphys
        · obtain ⟨s₁, hunmap, hrest⟩ := Option.bind_eq_some_iff.mp hphys
          exact ((pmapUnmap_sameSpaces hunmap).trans (s₁.grantMappingRemove_sameSpaces _)).trans
            (ih hrest)
      · cases h
        exact .refl _

/-- `SYS_UNMAP` is that loop, after its checks. -/
theorem sysUnmap_sameSpaces {fuel : ℕ} {a1 a2 a3 v : BitVec 64}
    (h : s.sysUnmap fuel a1 a2 a3 = some (v, s')) : s.SameSpaces s' := by
  unfold sysUnmap at h
  split_ifs at h
  iterate 3
    · cases h
      exact .refl _
  obtain ⟨s₁, hunmap, hret⟩ := Option.bind_eq_some_iff.mp h
  cases hret
  exact unmapPages_sameSpaces fuel hunmap

end PageAllocator

end Kernel

/-! ### The scheduler

What the functions of `sched.c` do to a thread that is not the current one: it may be put on a run
queue, moved between run queues, or taken off one to run. -/

namespace Sched

variable {s s' : Sched} {t u : Tid}

/-- What `sched_enqueue` does to a thread. -/
def awake (th : SchedThread) : SchedThread :=
  { toTop th with state := .ready }

/-- `sched_enqueue` changes the one thread. -/
theorem schedEnqueue_eq (h : s.schedEnqueue t = some s') :
    s.runq.home t = none ∧ s'.current = s.current ∧
      (∀ u, s'.thread u = if u = t then awake (s.thread t) else s.thread u) ∧
      ∀ u, s'.runq.home u = if u = t then some 0 else s.runq.home u := by
  obtain ⟨runq, hpush, hret⟩ := Option.bind_eq_some_iff.mp h
  rw [modify_runq] at hpush
  by_cases hhome : s.runq.home t = none
  · rw [ListStore.pushBack_eq_some 0 hhome] at hpush
    cases hpush
    cases hret
    exact ⟨hhome, rfl, fun u => Function.update_apply .., fun u => Function.update_apply ..⟩
  · rw [ListStore.pushBack_eq_none 0 hhome] at hpush
    cases hpush

/-- `sched_pick` takes a thread off a run queue. -/
theorem schedPick_eq {o : Option Tid} (h : s.schedPick = some (o, s')) :
    s'.thread = s.thread ∧ ∀ t, o = some t → (s.runq.home t).isSome := by
  rw [schedPick] at h
  split at h
  next =>
    cases h
    exact ⟨rfl, fun t ht => by cases ht⟩
  next t hnext =>
    -- the thread found heads its run queue, from which it is taken off
    obtain ⟨s₁, hunlink, hret⟩ := Option.bind_eq_some_iff.mp h
    obtain ⟨runq, -, hruns⟩ := Option.bind_eq_some_iff.mp hunlink
    cases hruns
    cases hret
    obtain ⟨l, -, hhead⟩ := List.exists_of_findSome?_eq_some hnext
    refine ⟨rfl, fun u hu => ?_⟩
    cases hu
    rw [ListStore.home_of_mem (List.mem_of_mem_head? hhead)]
    rfl

/-- A thread is left alone, or it is taken off a run queue to run. -/
def Passed (s s' : Sched) (u : Tid) : Prop :=
  s'.thread u = s.thread u ∨ (s.runq.home u).isSome ∧ s'.current = some u ∧
    s'.thread u = { s.thread u with state := .running }

/-- What the next thread to run finds is what any other one finds, as long as it was on a queue. -/
theorem passed_run {next : Tid} (hthread : s'.thread u = s.thread u)
    (hhome : (s.runq.home next).isSome ∨ u ≠ next) : s.Passed (s'.run next) u := by
  by_cases hu : u = next
  · subst hu
    refine Or.inr ⟨hhome.resolve_right (· rfl), rfl, ?_⟩
    simp [run, hthread]
  · left
    simp [run, hu, hthread]

/-- `sched_block` and `sched_exit` change the current thread and the one that runs next. -/
theorem leave_passed {st : ThreadState} (h : s.leave st = some (.runs s')) {c : Tid}
    (hc : s.current = some c) (hu : u ≠ c) : s.Passed s' u := by
  simp only [leave, hc, Option.bind_eq_bind, Option.bind_some] at h
  obtain ⟨⟨o, s₁⟩, hpick, hret⟩ := Option.bind_eq_some_iff.mp h
  obtain ⟨hthread, hhome⟩ := schedPick_eq hpick
  cases o with
  | none => cases hret
  | some next =>
      cases hret
      refine passed_run ?_ (Or.inl (hhome next rfl))
      rw [hthread, modify_thread, if_neg hu]

/-- `sched_yield` does, too. -/
theorem schedYield_passed (h : s.schedYield = some s') {c : Tid} (hc : s.current = some c)
    (hu : u ≠ c) : s.Passed s' u := by
  simp only [schedYield, hc, Option.bind_eq_bind, Option.bind_some] at h
  obtain ⟨l, -, hl⟩ := Option.bind_eq_some_iff.mp h
  obtain ⟨s₁, hpush, hrest⟩ := Option.bind_eq_some_iff.mp hl
  obtain ⟨⟨o, s₂⟩, hpick, hret⟩ := Option.bind_eq_some_iff.mp hrest
  obtain ⟨hthread, hhome⟩ := schedPick_eq hpick
  -- the caller has gone to its own run queue, the other threads are where they were
  obtain ⟨runq, hrunq, hs₁⟩ := Option.bind_eq_some_iff.mp hpush
  have hcn : s.runq.home c = none := by
    by_contra hne
    rw [modify_runq, ListStore.pushBack_eq_none l hne] at hrunq
    cases hrunq
  rw [modify_runq, ListStore.pushBack_eq_some l hcn] at hrunq
  cases hrunq
  cases hs₁
  have hsame : s₂.thread u = s.thread u := by
    rw [hthread]
    simp only [modify_thread, if_neg hu]
  cases o with
  | none =>
      cases hret
      exact passed_run hsame (Or.inr hu)
  | some next =>
      cases hret
      apply passed_run hsame
      by_cases hnext : next = c
      · exact Or.inr (hnext ▸ hu)
      · left
        have := hhome next rfl
        rwa [ListStore.snocAt_home, Function.update_of_ne hnext] at this

end Sched

/-! ### System calls

What a call may leave a thread with that it does not name, as one relation between the thread before
and after. The lemmas compose the relation over the parts of a call. -/

namespace System

open Traced

variable {σ : Type} {s s' : System σ} {cur : Tid} {T : BitVec 64} {ending : Ending σ}

/-- What a thread is left with: its registers, its address space, its place in the registry, and its
place in the scheduler unless it is woken or runs next. -/
structure Kept (wakes : Prop) (s s' : System σ) (T : BitVec 64) : Prop where
  tf : s'.tf T.toNat = s.tf T.toNat
  pmap : (s'.kernel.thread T).pmap = (s.kernel.thread T).pmap
  registered : s'.kernel.registered T = s.kernel.registered T
  /-- Nobody is about to destroy it who was not before. -/
  kont : ∀ t, s'.kont t = some (.destroys T) → s.kont t = some (.destroys T)
  /-- In between it may have been woken, and it may be the one that runs. -/
  sched : ∃ th, (th = s.sched.thread T.toNat ∨ wakes ∧ th = Sched.awake (s.sched.thread T.toNat)) ∧
    (s'.sched.thread T.toNat = th ∨
      ((s.sched.runq.home T.toNat).isSome ∨ wakes) ∧ s'.sched.current = some T.toNat ∧
        s'.sched.thread T.toNat = { th with state := .running })

/-- A call that leaves the scheduler alone. -/
theorem kept_of_sched_eq (hsched : s'.sched.thread T.toNat = s.sched.thread T.toNat)
    (htf : s'.tf T.toNat = s.tf T.toNat)
    (hthread : (s'.kernel.thread T).pmap = (s.kernel.thread T).pmap)
    (hregistered : s'.kernel.registered T = s.kernel.registered T)
    (hkont : ∀ t, s'.kont t = some (.destroys T) → s.kont t = some (.destroys T)) :
    Kept False s s' T :=
  ⟨htf, hthread, hregistered, hkont, _, Or.inl rfl, Or.inl hsched⟩

/-- A thread that nothing happens to is kept. -/
theorem Kept.refl (s : System σ) (T : BitVec 64) : Kept False s s T :=
  kept_of_sched_eq rfl rfl rfl rfl fun _ => id

/-- A weaker condition for its being woken. -/
theorem Kept.weaken {p q : Prop} (h : Kept p s s' T) (hpq : p → q) : Kept q s s' T := by
  obtain ⟨htf, hpmap, hregistered, hkont, th, hth, hsched⟩ := h
  refine ⟨htf, hpmap, hregistered, hkont, th, hth.imp_right fun h => ⟨hpq h.1, h.2⟩, ?_⟩
  exact hsched.imp_right fun h => ⟨h.1.imp_right hpq, h.2⟩

/-- A thread that is not woken is kept under any condition. -/
theorem Kept.mono {wakes : Prop} (h : Kept False s s' T) : Kept wakes s s' T :=
  h.weaken False.elim

/-- A call of the model of address spaces that leaves the threads alone. -/
theorem kept_of_sameThreads {k : Kernel σ} (h : s.kernel.SameThreads k) :
    Kept False s { s with kernel := k } T :=
  kept_of_sched_eq rfl rfl (by rw [h.thread]) (by rw [h.registered]) fun _ => id

/-- Leaving something else on a kernel stack than to destroy the thread. -/
theorem setKont_kont {kont : Kont} (hkont : kont ≠ .destroys T) (s : System σ) (t u : Tid)
    (h : (s.setKont t kont).kont u = some (.destroys T)) : s.kont u = some (.destroys T) := by
  change Function.update s.kont t (some kont) u = _ at h
  by_cases hu : u = t
  · subst hu
    rw [Function.update_self] at h
    exact absurd (Option.some.inj h) hkont
  · rwa [Function.update_of_ne hu] at h

/-- `switch_to` changes the address space that is active. -/
theorem switchTo_eq {sched : Sched} (h : s.switchTo sched = some s') :
    s'.sched = sched ∧ s'.tf = s.tf ∧ s'.kernel.thread = s.kernel.thread ∧
      s'.kernel.registered = s.kernel.registered ∧ s'.kernel.nextTid = s.kernel.nextTid ∧
      s'.ipc = s.ipc ∧ s'.futex = s.futex ∧ s'.kont = s.kont := by
  obtain ⟨next, -, hnext⟩ := Option.bind_eq_some_iff.mp h
  obtain ⟨p, -, hret⟩ := Option.bind_eq_some_iff.mp hnext
  cases hret
  exact ⟨rfl, rfl, rfl, rfl, rfl, rfl, rfl, rfl⟩

/-- A function that gives up the CPU. -/
theorem leave_eq {out : Option Sched.Outcome} (h : (s.leave out).val = some ending)
    (hnext : ending.next = some s') :
    ∃ sched, out = some (.runs sched) ∧ s.switchTo sched = some s' := by
  rw [leave, val_bind] at h
  obtain ⟨o, ho, hrest⟩ := Option.bind_eq_some_iff.mp h
  rw [lift_val] at ho
  -- a scheduler that halts leaves no next state
  cases o with
  | halts =>
      cases hrest
      cases hnext
  | runs sched =>
      rw [val_bind] at hrest
      obtain ⟨s₁, hs₁, hret⟩ := Option.bind_eq_some_iff.mp hrest
      cases hret
      cases hnext
      exact ⟨sched, ho, hs₁⟩

/-! #### Waking threads

Wakeups are the one effect that message passing and futexes have on other threads. A list of wakeups
is followed one by one. -/

/-- Some threads, all of which satisfy `P`, have been woken, and nothing else has happened to
threads. -/
structure Woke (P : Tid → Prop) (s s' : System σ) : Prop where
  kernel : s'.kernel = s.kernel
  tf : s'.tf = s.tf
  kont : s'.kont = s.kont
  ipc : s'.ipc = s.ipc
  current : s'.sched.current = s.sched.current
  sched : ∀ t, s'.sched.thread t = s.sched.thread t ∧ s'.sched.runq.home t = s.sched.runq.home t ∨
    P t ∧ s'.sched.thread t = Sched.awake (s.sched.thread t)

/-- No thread is woken. -/
theorem Woke.refl (P : Tid → Prop) (s : System σ) : Woke P s s :=
  ⟨rfl, rfl, rfl, rfl, rfl, fun _ => Or.inl ⟨rfl, rfl⟩⟩

/-- One wakeup after the other. -/
theorem Woke.trans {P : Tid → Prop} {s'' : System σ} (h : Woke P s s') (h' : Woke P s' s'') :
    Woke P s s'' := by
  refine ⟨h'.kernel.trans h.kernel, h'.tf.trans h.tf, h'.kont.trans h.kont, h'.ipc.trans h.ipc,
    h'.current.trans h.current, fun t => ?_⟩
  rcases h.sched t with ⟨hthread, hhome⟩ | ⟨hP, hthread⟩
  · rcases h'.sched t with ⟨hthread', hhome'⟩ | ⟨hP', hthread'⟩
    · exact Or.inl ⟨hthread'.trans hthread, hhome'.trans hhome⟩
    · exact Or.inr ⟨hP', by rw [hthread', hthread]⟩
  · right
    rcases h'.sched t with ⟨hthread', -⟩ | ⟨-, hthread'⟩
    · exact ⟨hP, hthread'.trans hthread⟩
    · exact ⟨hP, by rw [hthread', hthread]; rfl⟩

/-- What `sched_enqueue` leaves. -/
theorem schedEnqueue_val {t : Tid} (h : (s.schedEnqueue t).val = some s') :
    ∃ sched, s.sched.schedEnqueue t = some sched ∧ s' = { s with sched } := by
  simp only [schedEnqueue, val_bind, tell_val, Option.bind_some, lift_val] at h
  obtain ⟨sched, hsched, hret⟩ := Option.bind_eq_some_iff.mp h
  cases hret
  exact ⟨sched, hsched, rfl⟩

/-- `sched_wakeup` wakes one thread. -/
theorem woke_of_schedWakeup {P : Tid → Prop} {t : Tid} (ht : P t)
    (h : (s.schedWakeup t).val = some s') : Woke P s s' := by
  obtain ⟨sched, hsched, rfl⟩ := schedEnqueue_val h
  obtain ⟨-, hcurrent, hthread, hhome⟩ := Sched.schedEnqueue_eq hsched
  refine ⟨rfl, rfl, rfl, rfl, hcurrent, fun u => ?_⟩
  by_cases hu : u = t
  · subst hu
    exact Or.inr ⟨ht, by rw [hthread, if_pos rfl]⟩
  · exact Or.inl ⟨by rw [hthread, if_neg hu], by rw [hhome, if_neg hu]⟩

/-- A list of threads is woken one by one. -/
theorem woke_of_foldlM {P : Tid → Prop} (l : List Tid) (hl : ∀ t ∈ l, P t) {s : System σ}
    (h : (l.foldlM schedWakeup s).val = some s') : Woke P s s' := by
  induction l generalizing s with
  | nil =>
      cases h
      exact .refl P _
  | cons t l ih =>
      rw [List.foldlM_cons, val_bind] at h
      obtain ⟨s₁, hwake, hrest⟩ := Option.bind_eq_some_iff.mp h
      exact (woke_of_schedWakeup (hl t List.mem_cons_self) hwake).trans
        (ih (fun u hu => hl u (List.mem_cons_of_mem t hu)) hrest)

/-- Taking a thread off the queue of a futex, in a state with other queues for the rest. -/
theorem Woke.of_futex {P : Tid → Prop} {futex : Futex} (h : Woke P { s with futex } s') :
    Woke P s s' :=
  ⟨h.kernel, h.tf, h.kont, h.ipc, h.current, h.sched⟩

/-- `futex_wake` wakes waiters. -/
theorem woke_of_wakeLoop {P : Tid → Prop} {wq : Addr} {all : Bool} (fuel : ℕ) {n n' : BitVec 32}
    {s : System σ} (hP : ∀ t ∈ s.futex.waiters.queue wq, P t)
    (h : (wakeLoop wq all fuel n s).val = some (n', s')) : Woke P s s' := by
  induction fuel generalizing n s with
  | zero =>
      cases h
      exact .refl P _
  | succ fuel ih =>
      rw [wakeLoop] at h
      split at h
      next =>
        cases h
        exact .refl P _
      next t rest hqueue =>
        have ht : s.futex.waiters.home t = some wq :=
          ListStore.home_of_mem (hqueue ▸ List.mem_cons_self)
        simp only [val_bind, lift_val, ListStore.unlink_eq_some ht, Option.bind_some] at h
        obtain ⟨s₁, hwake, hrest⟩ := Option.bind_eq_some_iff.mp h
        -- the head of the queue is woken; what is left in the queue was in it before
        have hwoke := woke_of_schedWakeup (hP t (hqueue ▸ List.mem_cons_self)) hwake
        split at hrest
        · refine hwoke.of_futex.trans (ih (fun u hu => hP u ?_) hrest)
          obtain ⟨sched, -, rfl⟩ := schedEnqueue_val hwake
          rw [ListStore.eraseAt_queue, Function.update_self] at hu
          exact List.mem_of_mem_erase hu
        · cases hrest
          exact hwoke.of_futex

/-- A thread that may be woken is kept, up to that. -/
theorem Woke.kept {P : Tid → Prop} {wakes : Prop} (h : Woke P s s') (hP : P T.toNat → wakes) :
    Kept wakes s s' T := by
  refine ⟨by rw [h.tf], by rw [h.kernel], by rw [h.kernel], by rw [h.kont]; exact fun _ => id,
    s'.sched.thread T.toNat, ?_, Or.inl rfl⟩
  rcases h.sched T.toNat with ⟨hthread, -⟩ | ⟨ht, hthread⟩
  · exact Or.inl hthread
  · exact Or.inr ⟨hP ht, hthread⟩

/-- Waking threads, and then letting another thread run. What the caller leaves behind on its own
stack does not matter. -/
theorem Woke.kept_leave {P : Tid → Prop} {wakes : Prop} {s₁ s₂ : System σ} (h : Woke P s s₁)
    (hP : P T.toNat → wakes) {sched : Sched} (hpassed : s₁.sched.Passed sched T.toNat)
    (hswitch : s₂.switchTo sched = some s') (hkernel : s₂.kernel = s₁.kernel)
    (htf : s₂.tf = s₁.tf)
    (hkont : ∀ t, s₂.kont t = some (.destroys T) → s₁.kont t = some (.destroys T)) :
    Kept wakes s s' T := by
  obtain ⟨rfl, htf', hthread, hregistered, -, -, -, hkont'⟩ := switchTo_eq hswitch
  refine ⟨by rw [htf', htf, h.tf], by rw [hthread, hkernel, h.kernel],
    by rw [hregistered, hkernel, h.kernel], by rw [hkont', ← h.kont]; exact hkont,
    s₁.sched.thread T.toNat, ?_, ?_⟩
  -- what the operation before left of `T`: its own scheduling data, or those of a woken thread
  · rcases h.sched T.toNat with ⟨hth, -⟩ | ⟨ht, hth⟩
    · exact Or.inl hth
    · exact Or.inr ⟨hP ht, hth⟩
  · refine hpassed.imp_right fun ⟨hhome, hpick⟩ => ⟨?_, hpick⟩
    rcases h.sched T.toNat with ⟨-, hsame⟩ | ⟨ht, -⟩
    · exact Or.inl (hsame ▸ hhome)
    · exact Or.inr (hP ht)

/-! #### One call after the other

Each system call keeps all threads but those that it names or may wake. -/

/-- A thread that may be woken: by a message, by having its message accepted, or by a futex. -/
def Wakes (s : System σ) (cur : Tid) (c : Call) (t : Tid) : Prop :=
  c.num = 2 ∧ (s.sched.thread t).state = .blocked ∧
      ((c.a1 &&& 0xFFFFFFFF#64).toNat = t ∨ (s.ipcView cur).replyDest = some t ∨
        t ∈ sender (s.ipcView cur)) ∨
    c.num = 9 ∧ c.a2 = 1 ∧ ∃ phys wq, s.kernel.pmapExtract (s.pmapOf cur) c.a1 = some phys ∧
      s.futex.futexFind phys = some wq ∧ t ∈ s.futex.waiters.queue wq

/-- Giving up the CPU for good or until something happens. -/
theorem kept_of_leave (hcur : s.sched.current = some cur) (hT : T.toNat ≠ cur) {st : ThreadState}
    {s₁ : System σ} (h : (s₁.leave (s.sched.leave st)).val = some ending)
    (hnext : ending.next = some s') (hkernel : s₁.kernel = s.kernel) (htf : s₁.tf = s.tf)
    (hkont : ∀ t, s₁.kont t = some (.destroys T) → s.kont t = some (.destroys T)) :
    Kept False s s' T := by
  obtain ⟨sched, hout, hswitch⟩ := leave_eq h hnext
  exact (Woke.refl (fun _ => False) s).kept_leave id (Sched.leave_passed hout hcur hT) hswitch
    hkernel htf hkont

/-- `SYS_THREAD_SWITCH` puts the caller at the end of its queue. -/
theorem sysThreadSwitch_kept (hcur : s.sched.current = some cur) (hT : T.toNat ≠ cur)
    (h : (s.sysThreadSwitch cur).val = some ending) (hnext : ending.next = some s') :
    Kept False s s' T := by
  rw [sysThreadSwitch, val_bind] at h
  obtain ⟨sched, hyield, hrest⟩ := Option.bind_eq_some_iff.mp h
  have hpassed := Sched.schedYield_passed hyield hcur hT
  split at hrest
  -- the yield picks the caller again, or it switches to another thread
  next hsame =>
    cases hrest
    cases hnext
    refine kept_of_sched_eq (hpassed.resolve_right fun hpick => ?_) rfl rfl rfl fun _ => id
    exact hT (Option.some.inj (hpick.2.1.symm.trans hsame))
  next =>
    rw [val_bind] at hrest
    obtain ⟨s₁, hswitch, hret⟩ := Option.bind_eq_some_iff.mp hrest
    cases hret
    cases hnext
    exact (Woke.refl (fun _ => False) s).kept_leave id hpassed hswitch rfl rfl
      (setKont_kont (by simp) s cur)

/-- An operation of `ipc.c` touches the caller and the threads that it may wake. -/
theorem ipcExec_kept (hcur : s.sched.current = some cur) (hT : T.toNat ≠ cur) {op : IpcState.Op}
    (h : (s.ipcExec cur op).val = some ending) (hnext : ending.next = some s') :
    Kept ((s.sched.thread T.toNat).state = .blocked ∧ T.toNat ∈ candidates (s.ipcView cur) op)
      s s' T := by
  rw [ipcExec, val_bind] at h
  obtain ⟨⟨ipc, events⟩, -, hrest⟩ := Option.bind_eq_some_iff.mp h
  rw [val_bind] at hrest
  obtain ⟨s₁, hwake, hrest⟩ := Option.bind_eq_some_iff.mp hrest
  have hwoke : Woke (fun t => (s.sched.thread t).state = .blocked ∧
      t ∈ candidates (s.ipcView cur) op) { s with ipc } s₁ := by
    refine woke_of_foldlM _ (fun t ht => ?_) hwake
    obtain ⟨hmem, hstate⟩ := List.mem_filter.mp ht
    exact ⟨(of_decide_eq_true hstate).1, List.mem_dedup.mp hmem⟩
  -- seen from the state before, the endpoints have changed, which does not matter here
  have hback : ∀ {s₂ : System σ} {wakes : Prop}, Kept wakes { s with ipc } s₂ T →
    Kept wakes s s₂ T :=
    fun hkept => ⟨hkept.tf, hkept.pmap, hkept.registered, hkept.kont, hkept.sched⟩
  split at hrest
  next =>
    obtain ⟨sched, hout, hswitch⟩ := leave_eq hrest hnext
    have hpassed := Sched.leave_passed hout (hwoke.current.trans hcur) hT
    exact hback (hwoke.kept_leave id hpassed hswitch rfl rfl fun _ => id)
  next =>
    cases hrest
    cases hnext
    exact hback (hwoke.kept id)

/-- `SYS_IPC` is one of these operations. -/
theorem sysIpc_kept (hcur : s.sched.current = some cur) (hT : T.toNat ≠ cur) (c : Call)
    (hnum : c.num = 2) (h : (s.sysIpc cur c.a1 c.a2 c.a3 c.a4 c.a5 c.a6).val = some ending)
    (hnext : ending.next = some s') : Kept (Wakes s cur c T.toNat) s s' T := by
  rw [sysIpc] at h
  -- one case per operation; each says which threads it may wake
  split_ifs at h
  · cases h
    cases hnext
    exact (Kept.refl _ T).mono
  · refine (ipcExec_kept hcur hT h hnext).weaken fun hwakes => Or.inl ⟨hnum, hwakes.1, ?_⟩
    exact Or.inl (List.mem_singleton.mp hwakes.2).symm
  · exact (ipcExec_kept hcur hT h hnext).weaken fun hwakes =>
      Or.inl ⟨hnum, hwakes.1, Or.inr (Or.inr hwakes.2)⟩
  · cases h
    cases hnext
    exact (Kept.refl _ T).mono
  · refine (ipcExec_kept hcur hT h hnext).weaken fun hwakes => Or.inl ⟨hnum, hwakes.1, ?_⟩
    exact Or.inl (List.mem_singleton.mp hwakes.2).symm
  · refine (ipcExec_kept hcur hT h hnext).weaken fun hwakes => Or.inl ⟨hnum, hwakes.1, Or.inr ?_⟩
    exact (List.mem_append.mp hwakes.2).imp_left Option.mem_toList.mp
  · cases h
    cases hnext
    exact (Kept.refl _ T).mono

/-- `SYS_WRITE` reads memory. -/
theorem writeLoop_kept {a2 a3 : BitVec 64} (fuel : ℕ) {off : BitVec 64} {s : System σ}
    (h : (writeLoop cur a2 a3 fuel off s).val = some ending) (hnext : ending.next = some s') :
    Kept False s s' T := by
  induction fuel generalizing off s with
  | zero => cases h
  | succ fuel ih =>
      rw [writeLoop] at h
      split at h
      · rw [val_bind] at h
        obtain ⟨phys, -, hrest⟩ := Option.bind_eq_some_iff.mp h
        split at hrest
        · cases hrest
          cases hnext
          exact .refl _ T
        · simp only [val_bind, tell_val, Option.bind_some] at hrest
          -- a byte printed changes nothing but the output
          have hkept := ih hrest
          exact ⟨hkept.tf, hkept.pmap, hkept.registered, hkept.kont, hkept.sched⟩
      · cases h
        cases hnext
        exact .refl _ T

/-- `SYS_FUTEX` blocks the caller or wakes threads that wait. -/
theorem sysFutex_kept (hcur : s.sched.current = some cur) (hT : T.toNat ≠ cur) {env : Env}
    (c : Call) (hnum : c.num = 9) (h : (s.sysFutex env cur c.a1 c.a2 c.a3).val = some ending)
    (hnext : ending.next = some s') : Kept (Wakes s cur c T.toNat) s s' T := by
  unfold sysFutex at h
  split_ifs at h with hwait hwake
  · -- `futex_wait`
    rw [futexWait] at h
    split at h
    · cases h
      cases hnext
      exact (Kept.refl _ T).mono
    · rw [val_bind] at h
      obtain ⟨phys, -, h⟩ := Option.bind_eq_some_iff.mp h
      split at h
      · cases h
        cases hnext
        exact (Kept.refl _ T).mono
      · simp only [val_bind, tell_val, Option.bind_some] at h
        split at h
        · cases h
          cases hnext
          exact (Kept.refl _ T).mono
        · rw [val_bind] at h
          obtain ⟨joined, -, h⟩ := Option.bind_eq_some_iff.mp h
          split at h
          · cases h
            cases hnext
            exact (Kept.refl _ T).mono
          · exact (kept_of_leave hcur hT h hnext rfl rfl (setKont_kont (by simp) _ cur)).mono
  · -- `futex_wake`
    rw [futexWake] at h
    split at h
    · cases h
      cases hnext
      exact (Kept.refl _ T).mono
    · rw [val_bind] at h
      obtain ⟨phys, hphys, h⟩ := Option.bind_eq_some_iff.mp h
      split at h
      · cases h
        cases hnext
        exact (Kept.refl _ T).mono
      · split at h
        next =>
          cases h
          cases hnext
          exact (Kept.refl _ T).mono
        next wq hfind =>
          rw [val_bind] at h
          obtain ⟨⟨woken, s₁⟩, hloop, h⟩ := Option.bind_eq_some_iff.mp h
          rw [val_bind] at h
          obtain ⟨futex, -, h⟩ := Option.bind_eq_some_iff.mp h
          cases h
          cases hnext
          have hkept := (woke_of_wakeLoop (P := (· ∈ s.futex.waiters.queue wq)) _
            (fun _ ht => ht) hloop).kept (T := T)
            fun ht => (Or.inr ⟨hnum, hwake, phys, wq, hphys, hfind, ht⟩ : Wakes s cur c T.toNat)
          exact ⟨hkept.tf, hkept.pmap, hkept.registered, hkept.kont, hkept.sched⟩
  · cases h
    cases hnext
    exact (Kept.refl _ T).mono

/-- The thread that `SYS_EXCHANGE_REGISTERS` and `SYS_SCHEDULE` change, whoever calls. `EXR_READ`
changes none. -/
def Named (c : Call) (T : BitVec 64) : Prop :=
  c.a1 = T ∧ (c.num = 1 ∧ c.a5 ≠ 0 ∨ c.num = 6)

/-- A register is stored to memory of users. -/
theorem putReg_sameSpaces {k k' : Kernel σ} {ptr : Addr} {val : BitVec 64}
    (h : putReg k ptr val = some k') : k.SameSpaces k' := by
  rw [putReg] at h
  split at h
  · cases h
    exact .refl _
  · exact Kernel.putUserU64_sameSpaces h

/-- Setting the registers of another thread. -/
theorem kept_setTf {t : Tid} (ht : T.toNat ≠ t) (tf : Trapframe) : Kept False s (s.setTf t tf) T :=
  kept_of_sched_eq rfl (Function.update_of_ne ht ..) rfl rfl fun _ => id

/-- `SYS_EXCHANGE_REGISTERS` changes registers of its target only. -/
theorem sysExchangeRegisters_kept {target ip sp flags op : BitVec 64}
    (hT : target = T → op = 0)
    (h : (s.sysExchangeRegisters target ip sp flags op).val = some ending)
    (hnext : ending.next = some s') : Kept False s s' T := by
  have hne : op ≠ 0 → T.toNat ≠ target.toNat := fun hop heq =>
    hop (hT (BitVec.eq_of_toNat_eq heq.symm))
  unfold sysExchangeRegisters at h
  split_ifs at h with hreg hread hwrite hactivate hdeactivate hentry
  · cases h
    cases hnext
    exact .refl _ T
  · -- `EXR_READ`
    simp only [exrRead, val_bind, tell_val, Option.bind_some, lift_val] at h
    obtain ⟨k₁, h₁, h⟩ := Option.bind_eq_some_iff.mp h
    obtain ⟨k₂, h₂, h⟩ := Option.bind_eq_some_iff.mp h
    obtain ⟨k₃, h₃, h⟩ := Option.bind_eq_some_iff.mp h
    cases h
    cases hnext
    exact kept_of_sameThreads (((putReg_sameSpaces h₁).trans (putReg_sameSpaces h₂)).trans
      (putReg_sameSpaces h₃)).toSameThreads
  · -- `EXR_WRITE`
    simp only [exrWrite, val_bind, tell_val, Option.bind_some, lift_val] at h
    obtain ⟨rip, -, h⟩ := Option.bind_eq_some_iff.mp h
    obtain ⟨rsp, -, h⟩ := Option.bind_eq_some_iff.mp h
    obtain ⟨rflags, -, h⟩ := Option.bind_eq_some_iff.mp h
    cases h
    cases hnext
    exact kept_setTf (hne hread) _
  · -- `EXR_ACTIVATE`
    rw [exrActivate] at h
    split at h
    · cases h
      cases hnext
      exact .refl _ T
    · rw [val_bind] at h
      obtain ⟨s₁, henqueue, hret⟩ := Option.bind_eq_some_iff.mp h
      cases hret
      cases hnext
      obtain ⟨sched, hsched, rfl⟩ := schedEnqueue_val henqueue
      obtain ⟨-, -, hthread, -⟩ := Sched.schedEnqueue_eq hsched
      refine kept_of_sched_eq ?_ rfl rfl rfl fun _ => id
      rw [hthread, if_neg (hne hread)]
  · -- `EXR_DEACTIVATE`
    rw [exrDeactivate] at h
    split at h
    · cases h
      cases hnext
      exact .refl _ T
    · rw [val_bind] at h
      obtain ⟨sched, hsched, hret⟩ := Option.bind_eq_some_iff.mp h
      cases hret
      cases hnext
      refine kept_of_sched_eq ?_ rfl rfl rfl fun _ => id
      have hsame : sched.thread = s.sched.thread := by
        rw [lift_val] at hsched
        split at hsched
        · obtain ⟨runq, -, hrunq⟩ := Option.bind_eq_some_iff.mp hsched
          cases hrunq
          rfl
        · cases hsched
          rfl
      rw [Sched.modify_thread, if_neg (hne hread), hsame]
  · -- `EXR_SET_ENTRY`
    cases h
    cases hnext
    exact kept_setTf (hne hread) _
  · cases h
    cases hnext
    exact .refl _ T

/-- `SYS_SCHEDULE` changes its target only. -/
theorem sysSchedule_kept {a1 a2 a3 : BitVec 64} (hT : a1 ≠ T)
    (hnext : (s.sysSchedule a1 a2 a3).next = some s') : Kept False s s' T := by
  rw [sysSchedule] at hnext
  split at hnext
  · cases hnext
    exact .refl _ T
  · cases hnext
    refine kept_of_sched_eq ?_ rfl rfl rfl fun _ => id
    rw [Sched.modify_thread, if_neg fun heq => hT (BitVec.eq_of_toNat_eq heq.symm)]

/-- `TC_DESTROY` is for pagers. -/
theorem tcDestroy_kept (hcur : s.sched.current = some cur) (hT : T.toNat ≠ cur) {a2 : BitVec 64}
    (hpager : (s.kernel.thread T).pagerTid ≠ BitVec.ofNat 64 cur)
    (h : (s.tcDestroy cur a2).val = some ending) (hnext : ending.next = some s') :
    Kept False s s' T := by
  have hview : ((s.kernelView cur).thread a2).pagerTid = (s.kernel.thread a2).pagerTid := rfl
  rw [tcDestroy, Kernel.tcDestroy] at h
  split_ifs at h with hreg howner hstate
  · cases h
    cases hnext
    exact kept_of_sched_eq rfl rfl rfl rfl fun _ => id
  · cases h
    cases hnext
    exact kept_of_sched_eq rfl rfl rfl rfl fun _ => id
  · -- the caller is bound to destroy the target, which is not `T`
    have hne : Kont.destroys a2 ≠ Kont.destroys T := by
      rintro ⟨⟩
      exact hpager (not_not.mp howner)
    exact kept_of_leave hcur hT h hnext rfl rfl (setKont_kont hne _ cur)
  · cases h
    cases hnext
    refine kept_of_sched_eq rfl rfl rfl (Function.update_of_ne ?_ ..) fun _ => id
    rintro rfl
    exact hpager (not_not.mp howner)

/-- So is `TC_BIND_SPACE`. -/
theorem tcBindSpace_kept {a2 a3 : BitVec 64}
    (hpager : (s.kernel.thread T).pagerTid ≠ BitVec.ofNat 64 cur)
    (h : (s.tcBindSpace cur a2 a3).val = some ending) (hnext : ending.next = some s') :
    Kept False s s' T := by
  unfold tcBindSpace at h
  split_ifs at h with hreg howner hzero
  · cases h
    cases hnext
    exact .refl _ T
  · cases h
    cases hnext
    exact .refl _ T
  · cases h
    cases hnext
    exact .refl _ T
  · cases h
    cases hnext
    refine kept_of_sched_eq rfl rfl ?_ rfl fun _ => id
    -- the call was made by the pager of the thread it names, which `T` has not got
    have hne : T ≠ a2 := by
      rintro rfl
      exact hpager (not_not.mp howner)
    exact congrArg KThread.pmap (Function.update_of_ne hne ..)

/-- A call that does not touch the scheduler keeps the threads that it does not write to. -/
theorem kept_ofKernel {out : Option (BitVec 64 × Kernel σ)}
    (hout : ∀ v k, out = some (v, k) → (s.kernelView cur).SameThreads k)
    (h : (s.ofKernel out).val = some ending) (hnext : ending.next = some s') :
    Kept False s s' T := by
  rw [ofKernel, val_bind] at h
  obtain ⟨⟨v, k⟩, hk, hret⟩ := Option.bind_eq_some_iff.mp h
  cases hret
  cases hnext
  -- the kernel's part of a call keeps the threads, and the rest of the system is not touched
  have hsame := hout v k hk
  refine kept_of_sched_eq rfl rfl ?_ ?_ fun _ => id
  · show (k.thread T).pmap = _
    rw [hsame.thread]
    rfl
  · show k.registered T = _
    rw [hsame.registered]
    rfl

section PageAllocator

variable [PageAllocator σ]

/-- `TC_CREATE` makes a thread with a number of its own. -/
theorem tcCreate_kept {env : Env} {a3 a4 a5 : BitVec 64}
    (hT : T.toNat < s.kernel.nextTid.toNat) (h : (s.tcCreate env a3 a4 a5).val = some ending)
    (hnext : ending.next = some s') : Kept False s s' T := by
  rw [tcCreate, val_bind] at h
  obtain ⟨⟨pmap, k⟩, hk, h⟩ := Option.bind_eq_some_iff.mp h
  have hsame : s.kernel.SameThreads k := by
    rw [lift_val] at hk
    split at hk
    · cases hk
      exact .refl _
    · exact Kernel.pmapCreate_sameThreads hk
  -- the new tid is not that of a thread there is
  have hne : T ≠ k.nextTid.setWidth 64 := by
    rintro rfl
    rw [hsame.nextTid, BitVec.toNat_setWidth, Nat.mod_eq_of_lt (by omega)] at hT
    exact lt_irrefl _ hT
  dsimp only at h
  split at h
  · cases h
    cases hnext
    exact kept_of_sameThreads hsame
  · split at h
    next k₁ hcreate =>
      obtain ⟨hothers, -⟩ := Kernel.threadCreateChild_sameOthers hcreate
      rw [val_bind] at h
      obtain ⟨k₂, hk₂, hret⟩ := Option.bind_eq_some_iff.mp h
      split at hret
      · cases hret
      cases hret
      cases hnext
      have hsame₂ : k₁.SameThreads k₂ := by
        rw [lift_val] at hk₂
        split at hk₂
        · exact Kernel.pmapDestroy_sameThreads hk₂
        · cases hk₂
          exact .refl _
      obtain ⟨hthread, hregistered⟩ :=
        ((hsame.sameOthers _).trans (hothers.trans (hsame₂.sameOthers _))) T hne
      exact kept_of_sched_eq rfl rfl (congrArg KThread.pmap hthread) hregistered fun _ => id
    next tid k₁ hcreate =>
      obtain ⟨hothers, htid⟩ := Kernel.threadCreateChild_sameOthers hcreate
      obtain ⟨rfl, -⟩ := htid tid rfl
      simp only [val_bind, tell_val, Option.bind_some, lift_val] at h
      obtain ⟨k₂, hutcb, hret⟩ := Option.bind_eq_some_iff.mp h
      split at hret
      · cases hret
      · cases hret
        cases hnext
        obtain ⟨hthread, hregistered⟩ := ((hsame.sameOthers _).trans
          (hothers.trans (Kernel.setUtcb_sameOthers hutcb).1)) T hne
        have hnat : T.toNat ≠ (k.nextTid.setWidth 64 : BitVec 64).toNat :=
          fun heq => hne (BitVec.eq_of_toNat_eq heq)
        refine kept_of_sched_eq ?_ (Function.update_of_ne hnat ..)
          (congrArg KThread.pmap hthread) hregistered fun t ht => ?_
        · exact Function.update_of_ne hnat ..
        · change Function.update s.kont _ none t = _ at ht
          by_cases hnew : t = (k.nextTid.setWidth 64 : BitVec 64).toNat
          · rw [hnew, Function.update_self] at ht
            cases ht
          · rwa [Function.update_of_ne hnew] at ht

end PageAllocator

/-! ### Two threads

A state in which a thread is run by another one that is not its pager, which is why the scheduler
has to be left out of what is kept. -/

/-- Thread 2 runs, and thread 1, which another thread is the pager of, is ready. -/
def twoThreads : System BumpAllocator where
  kernel := Kernel.small
  sched :=
    { thread := fun t =>
        { state := if t = 2 then .running else if t = 1 then .ready else .created
          currentLevel := 0
          timeQuantumLeft := 1
          totalCpuTime := 0 }
      runq := ListStore.empty.snocAt 1 Sched.top rfl
      current := some 2
      ticks := 0 }
  ipc := IpcState.boot
  futex := .init
  tf _ := { rip := 0, rsp := userStackTop, rflags := 0x202, rdi := 0, rsi := 0 }
  kont _ := none
  output := []

/-- A system call without memory for anything. -/
def noMemory : Env where
  fuel := 1
  alloc := { pmapPtr := 0, thread := false, register := false }
  kmalloc := false
  waitq := 0

/-- `SYS_THREAD_SWITCH`. -/
def switchCall : Call where
  num := 7
  a1 := 0
  a2 := 0
  a3 := 0
  a4 := 0
  a5 := 0
  a6 := 0

end System

end Koharu
