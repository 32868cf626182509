import Koharu.Lib.Machine
import Koharu.Task.Registry

/-!
# The registry over time

Any sequence of `thread_alloc_tid`, `thread_register` and `thread_destroy`, where `krealloc` may
fail at each call. A thread has the tid in its `tid` field, which it gets when it is created.

`Current history u t` says what the registry is for: `t` is the thread that was registered last
under `u`, and it has not been destroyed since. `registry_partial_map` is that `thread_lookup` finds
exactly that thread. For this it matters that no two threads have the same tid: `thread_destroy`
clears the slot of the tid, whichever thread is in it.
-/

namespace Koharu

/-- What has happened to a thread. -/
inductive RegistryEvent
  | registered (tid : BitVec 32) (t : Addr)
  | destroyed (t : Addr)

/-- The thread is the last one registered under a tid, and not destroyed since. The latest event
comes first. -/
def Current (history : List RegistryEvent) (u : BitVec 64) (t : Addr) : Prop :=
  ∃ later earlier tid, history = later ++ .registered tid t :: earlier ∧ tid.toNat = u.toNat ∧
    .destroyed t ∉ later ∧ ∀ tid' t', .registered tid' t' ∈ later → tid'.toNat ≠ u.toNat

section Current

variable {history : List RegistryEvent} {u : BitVec 64} {t t' : Addr} {tid : BitVec 32}

/-- Nobody is registered at first. -/
theorem not_current_nil : ¬ Current [] u t := by
  rintro ⟨later, earlier, tid, hnil, -⟩
  cases later <;> cases hnil

/-- A registration replaces the thread of its number. -/
theorem current_registered_of_eq (htid : tid.toNat = u.toNat) :
    Current (.registered tid t' :: history) u t ↔ t' = t := by
  constructor
  · rintro ⟨later, earlier, tid', hsplit, -, -, hlast⟩
    cases later with
    | nil =>
        cases hsplit
        rfl
    | cons e later =>
        obtain ⟨rfl, -⟩ := List.cons.inj hsplit
        exact absurd htid (hlast tid t' List.mem_cons_self)
  · rintro rfl
    exact ⟨[], history, tid, rfl, htid, List.not_mem_nil, fun _ _ h => absurd h List.not_mem_nil⟩

/-- It leaves the other numbers. -/
theorem current_registered_of_ne (htid : tid.toNat ≠ u.toNat) :
    Current (.registered tid t' :: history) u t ↔ Current history u t := by
  constructor
  · rintro ⟨later, earlier, tid', hsplit, htid', hkept, hlast⟩
    -- the latest event registers another identifier, so that the split is further back
    cases later with
    | nil =>
        cases hsplit
        exact absurd htid' htid
    | cons e later =>
        obtain ⟨-, hrest⟩ := List.cons.inj hsplit
        exact ⟨later, earlier, tid', hrest, htid', fun h => hkept (List.mem_cons_of_mem _ h),
          fun _ _ h => hlast _ _ (List.mem_cons_of_mem _ h)⟩
  · rintro ⟨later, earlier, tid', rfl, htid', hkept, hlast⟩
    refine ⟨.registered tid t' :: later, earlier, tid', rfl, htid', ?_, fun tid₂ t₂ h => ?_⟩
    · rw [List.mem_cons, not_or]
      exact ⟨by simp, hkept⟩
    · rcases List.mem_cons.mp h with heq | h
      · cases heq
        exact htid
      · exact hlast _ _ h

/-- A destroyed thread has no number any more. -/
theorem current_destroyed :
    Current (.destroyed t' :: history) u t ↔ t' ≠ t ∧ Current history u t := by
  constructor
  · rintro ⟨later, earlier, tid, hsplit, htid, hkept, hlast⟩
    -- the latest event is no registration, so that the split is further back
    cases later with
    | nil => cases hsplit
    | cons e later =>
        obtain ⟨rfl, hrest⟩ := List.cons.inj hsplit
        refine ⟨fun heq => hkept (heq ▸ List.mem_cons_self), later, earlier, tid, hrest, htid,
          fun h => hkept (List.mem_cons_of_mem _ h),
          fun _ _ h => hlast _ _ (List.mem_cons_of_mem _ h)⟩
  · rintro ⟨hne, later, earlier, tid, rfl, htid, hkept, hlast⟩
    refine ⟨.destroyed t' :: later, earlier, tid, rfl, htid, ?_, fun tid₂ t₂ h => ?_⟩
    · rw [List.mem_cons, not_or]
      refine ⟨fun heq => hne ?_, hkept⟩
      cases heq
      rfl
    · rcases List.mem_cons.mp h with heq | h
      · cases heq
      · exact hlast _ _ h

end Current

/-! ### The calls

What the registry stands for, and the calls of a history with what the heap answers. -/

/-- The registry with the threads there are. -/
structure ThreadTable where
  registry : Registry
  /-- `tid` of each thread that has one. -/
  tid : Addr → Option (BitVec 32)
  /-- How many tids have been given out. -/
  allocs : ℕ
  history : List RegistryEvent

/-- The calls, and what `krealloc` returns. -/
inductive RegistryCall
  /-- `t->tid = thread_alloc_tid()`. -/
  | allocTid (t : Addr)
  | register (t newArr : Addr)
  | destroy (t : Addr)

namespace ThreadTable

/-- The static variables of `thread.c` at the start. -/
def boot : ThreadTable where
  registry := { gThreads := 0, slots := fun _ => 0, cap := 0, nextTid := 0, allocated := by simp }
  tid _ := none
  allocs := 0
  history := []

/-- One call. -/
def step (s : ThreadTable) : RegistryCall → Option ThreadTable
  | .allocTid t =>
      some {
        registry := s.registry.threadAllocTid.2
        tid := Function.update s.tid t (some s.registry.threadAllocTid.1)
        allocs := s.allocs + 1
        history := s.history }
  | .register t newArr => do
      let tid ← s.tid t
      match s.registry.threadRegister tid t newArr with
      | none => return s
      | some registry => return { s with registry, history := .registered tid t :: s.history }
  -- destroying the null thread does nothing
  | .destroy t =>
      if t = 0 then some s
      else do
        let tid ← s.tid t
        return { s with
          registry := s.registry.threadDestroy tid
          history := .destroyed t :: s.history }

/-- A thread is not created where one is that can be found, and there is a tid left for it. -/
def CallOk (s : ThreadTable) : RegistryCall → Prop
  | .allocTid t => t ≠ 0 ∧ s.allocs < 2 ^ 32 ∧ ∀ i < s.registry.cap, s.registry.slots i ≠ t
  | .register _ _ => True
  | .destroy _ => True

instance (s : ThreadTable) : (c : RegistryCall) → Decidable (s.CallOk c)
  | .allocTid t => inferInstanceAs (Decidable
      (t ≠ 0 ∧ s.allocs < 2 ^ 32 ∧ ∀ i < s.registry.cap, s.registry.slots i ≠ t))
  | .register _ _ => isTrue trivial
  | .destroy _ => isTrue trivial

/-- The invariant. -/
structure Rep (s : ThreadTable) : Prop where
  next : s.registry.nextTid = BitVec.ofNat 32 s.allocs
  allocs : s.allocs ≤ 2 ^ 32
  cap : s.registry.cap ≤ 2 ^ 33
  /-- A thread has a tid that has been given out. -/
  lt : ∀ t n, s.tid t = some n → t ≠ 0 ∧ n.toNat < s.allocs
  /-- Each tid has been given to one thread. -/
  unique : ∀ t t' n, s.tid t = some n → s.tid t' = some n → t = t'
  /-- A thread is registered under its own tid. -/
  own : ∀ u, s.registry.threadLookup u ≠ 0 →
    ∃ n, s.tid (s.registry.threadLookup u) = some n ∧ n.toNat = u.toNat
  lookup : ∀ u t, t ≠ 0 → (s.registry.threadLookup u = t ↔ Current s.history u t)

/-- The registry at boot is that of the empty history. -/
theorem rep_boot : boot.Rep where
  next := rfl
  allocs := Nat.zero_le _
  cap := Nat.zero_le _
  lt t n h := by cases h
  unique t t' n h := by cases h
  own u h := absurd (if_neg fun h => h.1 rfl) h
  lookup u t ht := by
    refine iff_of_false (fun h => ht ?_) not_current_nil
    rw [← h]
    exact if_neg fun h => h.1 rfl

variable {s s' : ThreadTable} {t newArr : Addr} {n : BitVec 32}

/-- No thread that can be found is at the address. -/
theorem threadLookup_ne {r : Registry} (ht : t ≠ 0) (h : ∀ i < r.cap, r.slots i ≠ t)
    (u : BitVec 64) : r.threadLookup u ≠ t := by
  by_cases hu : u.toNat < r.cap
  · rw [Registry.threadLookup_of_lt hu]
    exact h _ hu
  · rw [Registry.threadLookup_of_ge (Nat.le_of_not_lt hu)]
    exact ht.symm

/-- A new thread gets a tid that no other one has. -/
theorem Rep.allocTid (h : s.Rep) (hok : s.CallOk (.allocTid t))
    (hstep : s.step (.allocTid t) = some s') : s'.Rep := by
  obtain ⟨ht, hallocs, hfresh⟩ := hok
  obtain rfl := Option.some.inj hstep
  have hnext : s.registry.nextTid.toNat = s.allocs := by
    rw [h.next, BitVec.toNat_ofNat, Nat.mod_eq_of_lt hallocs]
  -- the old threads keep their tids, which are smaller
  have hold : ∀ t' n, t' ≠ t → Function.update s.tid t (some s.registry.nextTid) t' = some n →
      s.tid t' = some n := by
    intro t' n hne hn
    rwa [Function.update_of_ne hne] at hn
  have hnew : ∀ n, Function.update s.tid t (some s.registry.nextTid) t = some n →
      n = s.registry.nextTid := by
    intro n hn
    rw [Function.update_self] at hn
    exact (Option.some.inj hn).symm
  constructor
  case next =>
    show s.registry.nextTid + 1 = BitVec.ofNat 32 (s.allocs + 1)
    rw [h.next, BitVec.ofNat_add]
    rfl
  case allocs => exact hallocs
  case cap => exact h.cap
  case lt =>
    intro t' n hn
    by_cases heq : t' = t
    · subst heq
      rw [hnew n hn, hnext]
      exact ⟨ht, Nat.lt_succ_self _⟩
    · obtain ⟨hne, hlt⟩ := h.lt t' n (hold t' n heq hn)
      exact ⟨hne, hlt.trans (Nat.lt_succ_self _)⟩
  case unique =>
    intro t₁ t₂ n h₁ h₂
    by_cases heq₁ : t₁ = t
    · by_cases heq₂ : t₂ = t
      · rw [heq₁, heq₂]
      · subst heq₁
        have hlt := (h.lt t₂ n (hold t₂ n heq₂ h₂)).2
        rw [hnew n h₁, hnext] at hlt
        exact absurd hlt (lt_irrefl _)
    · by_cases heq₂ : t₂ = t
      · subst heq₂
        have hlt := (h.lt t₁ n (hold t₁ n heq₁ h₁)).2
        rw [hnew n h₂, hnext] at hlt
        exact absurd hlt (lt_irrefl _)
      · exact h.unique t₁ t₂ n (hold t₁ n heq₁ h₁) (hold t₂ n heq₂ h₂)
  case own =>
    intro u hu
    obtain ⟨n, hn, hlt⟩ := h.own u hu
    refine ⟨n, ?_, hlt⟩
    show Function.update s.tid t _ (s.registry.threadLookup u) = some n
    rw [Function.update_of_ne (threadLookup_ne ht hfresh u)]
    exact hn
  case lookup => exact h.lookup

/-- The array stays small enough for its size in bytes. -/
theorem cap_threadRegister {r r' : Registry} (hcap : r.cap ≤ 2 ^ 33)
    (h : r.threadRegister n t newArr = some r') : r'.cap ≤ 2 ^ 33 ∧ r'.nextTid = r.nextTid := by
  rw [Registry.threadRegister] at h
  split at h
  case isTrue hroom =>
    obtain ⟨r₁, hgrow, hr'⟩ := Option.bind_eq_some_iff.mp h
    obtain rfl := Option.some.inj hr'
    rw [Registry.threadRegGrow] at hgrow
    split at hgrow
    case isTrue => cases hgrow
    case isFalse =>
      obtain rfl := Option.some.inj hgrow
      -- twice the capacity, or more for a large identifier: at most `2 ^ 33` for one of 32 bits
      have hn := n.isLt
      have hle := Registry.newCap_le hroom
      exact ⟨hle.trans (by omega), rfl⟩
  case isFalse =>
    obtain rfl := Option.some.inj h
    exact ⟨hcap, rfl⟩

/-- What a thread is registered under is its own tid. -/
theorem Rep.register (h : s.Rep) (hstep : s.step (.register t newArr) = some s') : s'.Rep := by
  obtain ⟨n, hn, hrest⟩ := Option.bind_eq_some_iff.mp hstep
  cases hregister : s.registry.threadRegister n t newArr with
  | none =>
      rw [hregister] at hrest
      obtain rfl := Option.some.inj hrest
      exact h
  | some registry =>
      rw [hregister] at hrest
      obtain rfl := Option.some.inj hrest
      have hlookup := Registry.threadLookup_threadRegister hregister
      obtain ⟨hcap, hnext⟩ := cap_threadRegister h.cap hregister
      constructor
      case next => exact hnext.trans h.next
      case allocs => exact h.allocs
      case cap => exact hcap
      case lt => exact h.lt
      case unique => exact h.unique
      case own =>
        show ∀ u, registry.threadLookup u ≠ 0 → ∃ n, s.tid (registry.threadLookup u) = some n ∧ _
        intro u hu
        rw [hlookup] at hu ⊢
        split
        case isTrue heq => exact ⟨n, hn, heq.symm⟩
        case isFalse hne =>
          rw [if_neg hne] at hu
          exact h.own u hu
      case lookup =>
        intro u t' ht'
        show registry.threadLookup u = t' ↔ Current (.registered n t :: s.history) u t'
        rw [hlookup]
        -- the last registration of a number counts
        by_cases heq : u.toNat = n.toNat
        · rw [if_pos heq, current_registered_of_eq heq.symm]
        · rw [if_neg heq, current_registered_of_ne fun h => heq h.symm]
          exact h.lookup u t' ht'

/-- The slot that is cleared is that of the thread. -/
theorem Rep.destroy (h : s.Rep) (hstep : s.step (.destroy t) = some s') : s'.Rep := by
  rw [step] at hstep
  split at hstep
  case isTrue =>
    obtain rfl := Option.some.inj hstep
    exact h
  case isFalse ht =>
    obtain ⟨n, hn, hrest⟩ := Option.bind_eq_some_iff.mp hstep
    obtain rfl := Option.some.inj hrest
    have hlookup := s.registry.threadLookup_threadDestroy n
    have hregistry : (s.registry.threadDestroy n).nextTid = s.registry.nextTid ∧
        (s.registry.threadDestroy n).cap = s.registry.cap := by
      rw [Registry.threadDestroy]
      split <;> exact ⟨rfl, rfl⟩
    constructor
    case next => exact hregistry.1.trans h.next
    case allocs => exact h.allocs
    case cap => exact hregistry.2.trans_le h.cap
    case lt => exact h.lt
    case unique => exact h.unique
    case own =>
      show ∀ u, (s.registry.threadDestroy n).threadLookup u ≠ 0 →
        ∃ n', s.tid ((s.registry.threadDestroy n).threadLookup u) = some n' ∧ _
      intro u hu
      rw [hlookup] at hu ⊢
      split
      case isTrue heq =>
        rw [if_pos heq] at hu
        exact absurd rfl hu
      case isFalse hne =>
        rw [if_neg hne] at hu
        exact h.own u hu
    case lookup =>
      intro u t' ht'
      show (s.registry.threadDestroy n).threadLookup u = t' ↔
        Current (.destroyed t :: s.history) u t'
      rw [hlookup, current_destroyed, ← h.lookup u t' ht']
      by_cases heq : u.toNat = n.toNat
      · -- another thread in the slot would have the same tid
        rw [if_pos heq]
        apply iff_of_false ht'.symm
        rintro ⟨hne, rfl⟩
        obtain ⟨n', hn', heq'⟩ := h.own u ht'
        have hsame : n' = n := BitVec.eq_of_toNat_eq (heq'.trans heq)
        rw [hsame] at hn'
        exact hne (h.unique _ _ n hn hn')
      · rw [if_neg heq]
        refine ⟨fun hfound => ⟨?_, hfound⟩, And.right⟩
        rintro rfl
        -- the thread itself is found under its own tid only
        obtain ⟨n', hn', heq'⟩ := h.own u (hfound ▸ ht')
        rw [hfound, hn] at hn'
        exact heq (heq'.symm.trans (congrArg BitVec.toNat (Option.some.inj hn')).symm)

/-- One call keeps the registry in step with its history. -/
theorem Rep.step (h : s.Rep) {c : RegistryCall} (hok : s.CallOk c) (hstep : s.step c = some s') :
    s'.Rep := by
  cases c with
  | allocTid t => exact h.allocTid hok hstep
  | register t newArr => exact h.register hstep
  | destroy t => exact h.destroy hstep

/-- So does every run, by induction on it. -/
theorem rep_of_calls (hrun : Machine.Run step CallOk boot s) : s.Rep :=
  Machine.Run.invariant (I := Rep) rep_boot (fun _ _ _ h hok hstep => h.step hok hstep) hrun

/-- After any sequence of calls, `thread_lookup` finds the thread that was registered last under a
tid and has not been destroyed since, and `NULL` if there is none. A call of `thread_register` that
fails changes none of this, and the loop that doubles the capacity ends with room for the tid. -/
theorem registry_partial_map (hrun : Machine.Run step CallOk boot s) :
    (∀ u t, t ≠ 0 → (s.registry.threadLookup u = t ↔ Current s.history u t)) ∧
    (∀ u, (∀ t ≠ 0, ¬ Current s.history u t) → s.registry.threadLookup u = 0) ∧
    (∀ t n newArr, s.tid t = some n → s.registry.threadRegister n t newArr = none →
      ∃ s', s.step (.register t newArr) = some s' ∧
        ∀ u, s'.registry.threadLookup u = s.registry.threadLookup u) ∧
    ∀ n : BitVec 32, s.registry.cap ≤ n.toNat →
      n.toNat < s.registry.newCap n.toNat ∧ 8 * s.registry.newCap n.toNat < 2 ^ 64 ∧
        ∀ left ≥ 32, Registry.growCap n.toNat left
          (if s.registry.cap ≠ 0 then s.registry.cap * 2 else 16) = s.registry.newCap n.toNat := by
  have h := rep_of_calls hrun
  refine ⟨h.lookup, fun u hnone => ?_, fun t n newArr hn hfail => ⟨s, ?_, fun _ => rfl⟩,
    fun n hroom => ⟨Registry.lt_newCap n, ?_, fun left hleft => Registry.growCap_eq_newCap n hleft⟩⟩
  · by_contra hne
    exact hnone _ hne ((h.lookup u _ hne).mp rfl)
  · rw [ThreadTable.step, hn]
    show (match s.registry.threadRegister n t newArr with | none => _ | some _ => _) = _
    rw [hfail]
    rfl
  -- the sizes in bytes do not wrap
  · have hle := Registry.newCap_le hroom
    have hn := n.isLt
    omega

/-- A thread cannot be registered for want of memory, and the one that is created in its place gets
another tid. Yet another one is registered and destroyed. -/
theorem registry_partial_map_gap : ∃ s, Machine.Run step CallOk boot s ∧
    Current s.history 1 0x1000#64 ∧ s.registry.threadLookup 0 = 0 ∧
      ¬ Current s.history 2 0x2000#64 := by
  obtain ⟨s, hrun, hchecked⟩ := Machine.exists_run_of_execAll step CallOk boot
    [.allocTid 0x1000#64, .register 0x1000#64 0, .allocTid 0x1000#64,
      .register 0x1000#64 0x9000#64, .allocTid 0x2000#64, .register 0x2000#64 0,
      .destroy 0x2000#64]
    (fun s => s.registry.threadLookup 1 = 0x1000#64 ∧ s.registry.threadLookup 0 = 0 ∧
      s.registry.threadLookup 2 = 0) (by decide)
  simp only [decide_eq_true_eq] at hchecked
  obtain ⟨hfound, hgap, hdestroyed⟩ := hchecked
  obtain ⟨hlookup, -⟩ := registry_partial_map hrun
  refine ⟨s, hrun, (hlookup 1 0x1000#64 (by decide)).mp hfound, hgap, fun h => ?_⟩
  rw [← hlookup 2 0x2000#64 (by decide), hdestroyed] at h
  exact absurd h (by decide)

end ThreadTable

end Koharu
