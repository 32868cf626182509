import Koharu.Lib.Machine
import Mathlib.Data.BitVec
import Mathlib.Data.Fintype.Card
import Mathlib.Data.List.Nodup

/-!
# The ticket lock

`kernel/misc/lock.c` between CPUs. A CPU is at one of a few points of the three functions, and each
action is one access to the lock: the `__sync_fetch_and_add` and the repeated read of `spin_lock`,
the two reads and the compare-and-swap of `spin_trylock`, and the load and the store of
`lock->now_serving++` in `spin_unlock`, which only the CPU that holds the lock executes. Nobody
reads `holder_cpu`.

Next to the two counters of 32 bits the state has a history: the tickets taken, and the order in
which `spin_lock` has drawn tickets and has let CPUs in. No step looks at it.

The invariant is about the line of CPUs that have a ticket and have not given it back. The first in
line has the ticket that is served, and the others those that follow, modulo `2 ^ 32`. As there are
fewer CPUs than tickets, a ticket in the line is served only when it is the first.
-/

namespace Koharu

/-- Where a CPU is. -/
inductive LockPc
  /-- Outside of the three functions, without the lock. -/
  | outside
  /-- In `spin_lock`, with a ticket. -/
  | spins (ticket : BitVec 32)
  /-- In `spin_trylock`, with the value of `now_serving`. -/
  | tries (serving : BitVec 32)
  /-- In `spin_trylock`, after `next_ticket` was found to be the same. -/
  | swaps (serving : BitVec 32)
  /-- Outside of the three functions, with the lock. -/
  | inside
  /-- In `spin_unlock`, with the value of `now_serving`. -/
  | unlocks (serving : BitVec 32)
  deriving DecidableEq

namespace LockPc

/-- Between a successful acquire and its release. -/
def Inside : LockPc → Prop
  | .inside | .unlocks _ => True
  | .outside | .spins _ | .tries _ | .swaps _ => False

/-- Waiting in `spin_lock`. -/
def isSpinning : LockPc → Bool
  | .spins _ => true
  | .outside | .tries _ | .swaps _ | .inside | .unlocks _ => false

end LockPc

/-- `spinlock_t`, where the CPUs are, and what has happened. -/
structure SpinLock (C : Type*) where
  nowServing : BitVec 32
  nextTicket : BitVec 32
  pc : C → LockPc
  /-- The CPUs that have drawn a ticket in `spin_lock`, in order. -/
  drawn : List C
  /-- The CPUs that have come out of `spin_lock`, in order. -/
  entered : List C
  /-- The number of tickets taken, by `spin_lock` or `spin_trylock`. -/
  tickets : ℕ
  /-- That number when a CPU last started with `spin_trylock`. -/
  readAt : C → ℕ

namespace SpinLock

variable {C : Type*}

/-- The state after `spin_lock_init`. -/
def init : SpinLock C where
  nowServing := 0
  nextTicket := 0
  pc _ := .outside
  drawn := []
  entered := []
  tickets := 0
  readAt _ := 0

/-- One access to the lock by a CPU. -/
inductive Act (C : Type*)
  /-- `spin_lock`: `__sync_fetch_and_add(&lock->next_ticket, 1)`. -/
  | draw (c : C)
  /-- `spin_lock`: `lock->now_serving != ticket`. -/
  | poll (c : C)
  /-- `spin_trylock`: `serving = lock->now_serving`. -/
  | tryServing (c : C)
  /-- `spin_trylock`: `lock->next_ticket != serving`. -/
  | tryNext (c : C)
  /-- `spin_trylock`: `__sync_bool_compare_and_swap(&lock->next_ticket, serving, serving + 1)`. -/
  | trySwap (c : C)
  /-- `spin_unlock`: the load of `lock->now_serving++`. -/
  | loadServing (c : C)
  /-- `spin_unlock`: the store of `lock->now_serving++`. -/
  | storeServing (c : C)

section Step

variable [DecidableEq C]

/-- Move a CPU. -/
def setPc (s : SpinLock C) (c : C) (p : LockPc) : SpinLock C :=
  { s with pc := Function.update s.pc c p }

/-- One access, by a CPU that has come to it. -/
def step (s : SpinLock C) : Act C → Option (SpinLock C)
  -- `spin_lock`
  | .draw c =>
      match s.pc c with
      | .outside =>
          some ({ s with
            nextTicket := s.nextTicket + 1
            tickets := s.tickets + 1
            drawn := s.drawn ++ [c] }.setPc c (.spins s.nextTicket))
      | _ => none
  | .poll c =>
      match s.pc c with
      | .spins ticket =>
          some (if s.nowServing ≠ ticket then s
            else { s with entered := s.entered ++ [c] }.setPc c .inside)
      | _ => none
  -- `spin_trylock`
  | .tryServing c =>
      match s.pc c with
      | .outside =>
          some ({ s with readAt := Function.update s.readAt c s.tickets }.setPc c
            (.tries s.nowServing))
      | _ => none
  | .tryNext c =>
      match s.pc c with
      | .tries serving =>
          some (s.setPc c (if s.nextTicket ≠ serving then .outside else .swaps serving))
      | _ => none
  | .trySwap c =>
      match s.pc c with
      | .swaps serving =>
          some (if s.nextTicket = serving then
              { s with
                nextTicket := serving + 1
                tickets := s.tickets + 1 }.setPc c .inside
            else s.setPc c .outside)
      | _ => none
  -- `spin_unlock`
  | .loadServing c =>
      match s.pc c with
      | .inside => some (s.setPc c (.unlocks s.nowServing))
      | _ => none
  | .storeServing c =>
      match s.pc c with
      | .unlocks serving => some ({ s with nowServing := serving + 1 }.setPc c .outside)
      | _ => none

end Step

/-- Fewer than `2 ^ 31` tickets are taken between the first read of a `spin_trylock` and its
compare-and-swap. -/
def FewTickets (s : SpinLock C) : Act C → Prop
  | .trySwap c => s.tickets - s.readAt c < 2 ^ 31
  | _ => True

/-! ### The line

The invariant is a queue that the source does not have: the processors with a ticket, in the order
in which they drew them. The counters have 32 bits and wrap, so that tickets are compared by their
distance, for which fewer than `2 ^ 31` must be out. -/

/-- Where a CPU can be, given the CPUs with a ticket in the order of their tickets, and the numbers
of tickets that have been given back, that have been taken, and that had been taken when the CPU
last started with `spin_trylock`. -/
def Placed (cpus : List C) (released tickets readAt : ℕ) (c : C) : LockPc → Prop
  | .outside => c ∉ cpus
  | .spins ticket => ∃ i, cpus[i]? = some c ∧ ticket = BitVec.ofNat 32 (released + i)
  -- there were not many CPUs in line then
  | .tries serving | .swaps serving => c ∉ cpus ∧ ∃ r ≤ released, serving = BitVec.ofNat 32 r ∧
      r ≤ readAt ∧ readAt < r + 2 ^ 31 ∧ readAt ≤ tickets
  | .inside => cpus.head? = some c
  | .unlocks serving => cpus.head? = some c ∧ serving = BitVec.ofNat 32 released

/-- The CPUs in line that wait in `spin_lock`. -/
def waiting (s : SpinLock C) (line : List C) : List C :=
  line.filter fun c => (s.pc c).isSpinning

/-- `line` are the CPUs with a ticket, in the order of their tickets, and `released` tickets have
been given back. -/
structure Inv (s : SpinLock C) (line : List C) (released : ℕ) : Prop where
  nodup : line.Nodup
  tickets_eq : s.tickets = released + line.length
  serving : s.nowServing = BitVec.ofNat 32 released
  next : s.nextTicket = BitVec.ofNat 32 s.tickets
  placed : ∀ c, Placed line released s.tickets (s.readAt c) c (s.pc c)
  /-- The CPUs that wait are those that have drawn a ticket and have not come in since. -/
  order : s.drawn = s.entered ++ s.waiting line

theorem inv_init : (init : SpinLock C).Inv [] 0 where
  nodup := List.nodup_nil
  tickets_eq := rfl
  serving := rfl
  next := rfl
  placed _ := List.not_mem_nil
  order := rfl

/-- Numbers that are close together are the same if they are the same modulo `2 ^ 32`. -/
theorem eq_of_ofNat_eq {a b : ℕ} (h : BitVec.ofNat 32 a = BitVec.ofNat 32 b) (hle : a ≤ b)
    (hlt : b < a + 2 ^ 32) : a = b := by
  have hmod := congrArg BitVec.toNat h
  rw [BitVec.toNat_ofNat, BitVec.toNat_ofNat] at hmod
  omega

section Placed

variable {line rest : List C} {released tickets readAt : ℕ} {c d : C} {p : LockPc}

/-- Another CPU gets the next ticket. -/
theorem Placed.join (h : Placed line released tickets readAt d p) (hd : d ≠ c) :
    Placed (line ++ [c]) released (tickets + 1) readAt d p := by
  have hnot : d ∉ line → d ∉ line ++ [c] := by simp [hd]
  have hhead : line.head? = some d → (line ++ [c]).head? = some d := by
    intro hhead
    rw [List.head?_append, hhead]
    rfl
  have hattempt : ∀ {serving : BitVec 32}, (∃ r ≤ released, serving = BitVec.ofNat 32 r ∧
      r ≤ readAt ∧ readAt < r + 2 ^ 31 ∧ readAt ≤ tickets) → ∃ r ≤ released,
      serving = BitVec.ofNat 32 r ∧ r ≤ readAt ∧ readAt < r + 2 ^ 31 ∧ readAt ≤ tickets + 1 := by
    rintro serving ⟨r, hr, hserving, hle, hlt, htickets⟩
    exact ⟨r, hr, hserving, hle, hlt, Nat.le_succ_of_le htickets⟩
  -- a newcomer stands behind: no other processor's place changes, and one more ticket is out
  cases p with
  | outside => exact hnot h
  | spins ticket =>
      obtain ⟨i, hi, hticket⟩ := h
      refine ⟨i, ?_, hticket⟩
      rw [List.getElem?_append_left (List.getElem?_eq_some_iff.mp hi).1]
      exact hi
  | tries serving => exact ⟨hnot h.1, hattempt h.2⟩
  | swaps serving => exact ⟨hnot h.1, hattempt h.2⟩
  | inside => exact hhead h
  | unlocks serving => exact ⟨hhead h.1, h.2⟩

/-- The first in line leaves, and the others move up. -/
theorem Placed.leave (h : Placed (c :: rest) released tickets readAt d p) (hd : d ≠ c) :
    Placed rest (released + 1) tickets readAt d p := by
  have hhead : (c :: rest).head? ≠ some d := fun heq => hd (Option.some.inj heq).symm
  have hnot : d ∉ c :: rest → d ∉ rest := fun hmem hrest => hmem (List.mem_cons_of_mem c hrest)
  have hattempt : ∀ {serving : BitVec 32}, (∃ r ≤ released, serving = BitVec.ofNat 32 r ∧
      r ≤ readAt ∧ readAt < r + 2 ^ 31 ∧ readAt ≤ tickets) → ∃ r ≤ released + 1,
      serving = BitVec.ofNat 32 r ∧ r ≤ readAt ∧ readAt < r + 2 ^ 31 ∧ readAt ≤ tickets := by
    rintro serving ⟨r, hr, hrest⟩
    exact ⟨r, Nat.le_succ_of_le hr, hrest⟩
  -- the head leaves: all others move up one, and one more ticket has been served
  cases p with
  | outside => exact hnot h
  | spins ticket =>
      obtain ⟨i, hi, hticket⟩ := h
      cases i with
      | zero => exact absurd hi hhead
      | succ i => exact ⟨i, hi, by rw [hticket, Nat.add_right_comm, Nat.add_assoc]⟩
  | tries serving => exact ⟨hnot h.1, hattempt h.2⟩
  | swaps serving => exact ⟨hnot h.1, hattempt h.2⟩
  | inside => exact absurd h hhead
  | unlocks serving => exact absurd h.1 hhead

/-- Only the first in line has the lock. -/
theorem Placed.head (h : Placed line released tickets readAt c p) (hp : p.Inside) :
    line.head? = some c := by
  cases p with
  | inside => exact h
  | unlocks serving => exact h.1
  | outside => exact hp.elim
  | spins ticket => exact hp.elim
  | tries serving => exact hp.elim
  | swaps serving => exact hp.elim

end Placed

section Served

variable {s : SpinLock C} {line : List C} {released : ℕ} {c : C}

/-- A CPU whose ticket is served is the first in line. -/
theorem Inv.served (h : s.Inv line released) (hlength : line.length < 2 ^ 31) {ticket : BitVec 32}
    (hc : s.pc c = .spins ticket) (hserved : s.nowServing = ticket) :
    ∃ rest, line = c :: rest := by
  have hplaced := h.placed c
  rw [hc] at hplaced
  obtain ⟨i, hi, hticket⟩ := hplaced
  -- the tickets in line are different
  have hi0 : 0 = i := by
    have hlt : i < line.length := (List.getElem?_eq_some_iff.mp hi).1
    have heq := eq_of_ofNat_eq ((h.serving.symm.trans hserved).trans hticket) (Nat.le_add_right ..)
      (by omega)
    omega
  subst hi0
  cases line with
  | nil => cases hi
  | cons d rest => exact ⟨rest, by rw [Option.some.inj hi]⟩

/-- The compare-and-swap succeeds only if nobody is in line. -/
theorem Inv.free (h : s.Inv line released) {serving : BitVec 32} (hc : s.pc c = .swaps serving)
    (hfew : s.tickets - s.readAt c < 2 ^ 31) (hnext : s.nextTicket = serving) : line = [] := by
  have hplaced := h.placed c
  rw [hc] at hplaced
  obtain ⟨-, r, hr, hserving, hle, hlt, htickets⟩ := hplaced
  have heq : r = s.tickets :=
    eq_of_ofNat_eq ((hserving.symm.trans hnext.symm).trans h.next) (hle.trans htickets) (by omega)
  have hlength := h.tickets_eq
  rw [← List.length_eq_zero_iff]
  omega

end Served

/-! ### What each access does to the line

One lemma for each kind of access. A processor between its two accesses is where the invariant says
that it is, whatever the others have done in the meantime. -/

section Keep

variable [DecidableEq C] {s s' : SpinLock C} {line rest : List C} {released : ℕ} {c : C}

/-- Another CPU is where it was. -/
theorem setPc_of_ne (s : SpinLock C) {c d : C} (p : LockPc) (h : d ≠ c) :
    (s.setPc c p).pc d = s.pc d :=
  Function.update_of_ne h ..

@[simp]
theorem setPc_self (s : SpinLock C) (c : C) (p : LockPc) : (s.setPc c p).pc c = p :=
  Function.update_self ..

/-- A CPU that is not in line may move without a change to those that wait. -/
theorem waiting_setPc (hc : c ∉ line) (p : LockPc) :
    (s.setPc c p).waiting line = s.waiting line := by
  apply List.filter_congr
  intro d hd
  have hdc : d ≠ c := fun heq => hc (heq ▸ hd)
  rw [setPc_of_ne _ _ hdc]

/-- A CPU moves without taking a ticket or giving one back. -/
theorem Inv.move (h : s.Inv line released) {p : LockPc} {readAt : C → ℕ}
    (hread : ∀ d ≠ c, readAt d = s.readAt d)
    (hp : Placed line released s.tickets (readAt c) c p)
    (hwaiting : (s.setPc c p).waiting line = s.waiting line) :
    ({ s with readAt }.setPc c p).Inv line released := by
  refine ⟨h.nodup, h.tickets_eq, h.serving, h.next, fun d => ?_, h.order.trans ?_⟩
  · by_cases hdc : d = c
    · subst hdc
      rw [setPc_self]
      exact hp
    · rw [setPc_of_ne _ _ hdc]
      show Placed line released s.tickets (readAt d) d (s.pc d)
      rw [hread d hdc]
      exact h.placed d
  · exact congrArg (s.entered ++ ·) hwaiting.symm

/-- A CPU that was not in line gets the next ticket. -/
theorem Inv.join (h : s.Inv line released) (hc : c ∉ line) {p : LockPc} {drawn : List C}
    (hp : Placed (line ++ [c]) released (s.tickets + 1) (s.readAt c) c p)
    (hdrawn : drawn = s.drawn ++ [c].filter fun _ => p.isSpinning) :
    ({ s with
      nextTicket := s.nextTicket + 1
      tickets := s.tickets + 1
      drawn }.setPc c p).Inv (line ++ [c]) released := by
  refine ⟨?_, ?_, h.serving, ?_, fun d => ?_, ?_⟩
  · rw [List.nodup_append]
    refine ⟨h.nodup, List.nodup_singleton c, fun d hd e he => ?_⟩
    obtain rfl := List.mem_singleton.mp he
    exact fun heq => hc (heq ▸ hd)
  · show s.tickets + 1 = _
    rw [h.tickets_eq, List.length_append, List.length_singleton, Nat.add_assoc]
  · show s.nextTicket + 1 = BitVec.ofNat 32 (s.tickets + 1)
    rw [h.next, BitVec.ofNat_add]
    rfl
  · by_cases hdc : d = c
    · subst hdc
      rw [setPc_self]
      exact hp
    · rw [setPc_of_ne _ _ hdc]
      exact (h.placed d).join hdc
  · -- it is the last of those that wait, if it does
    show drawn = s.entered ++ (s.setPc c p).waiting (line ++ [c])
    have hlast : (s.setPc c p).waiting [c] = [c].filter fun _ => p.isSpinning := by
      apply List.filter_congr
      intro d hd
      rw [List.mem_singleton.mp hd, setPc_self]
    have hsplit : (s.setPc c p).waiting (line ++ [c]) =
        (s.setPc c p).waiting line ++ (s.setPc c p).waiting [c] := List.filter_append ..
    rw [hsplit, waiting_setPc hc, hlast, ← List.append_assoc, ← h.order, hdrawn]

/-- The first in line comes in from `spin_lock`. -/
theorem Inv.enter (h : s.Inv (c :: rest) released) {ticket : BitVec 32}
    (hc : s.pc c = .spins ticket) :
    ({ s with entered := s.entered ++ [c] }.setPc c .inside).Inv (c :: rest) released := by
  have hnot : c ∉ rest := (List.nodup_cons.mp h.nodup).1
  refine ⟨h.nodup, h.tickets_eq, h.serving, h.next, fun d => ?_, ?_⟩
  · by_cases hdc : d = c
    · subst hdc
      rw [setPc_self]
      rfl
    · rw [setPc_of_ne _ _ hdc]
      exact h.placed d
  · -- it was the first of those that wait
    show s.drawn = (s.entered ++ [c]) ++ (s.setPc c .inside).waiting (c :: rest)
    have hbefore : s.waiting (c :: rest) = c :: s.waiting rest :=
      List.filter_cons_of_pos (by rw [hc]; rfl)
    have hafter : (s.setPc c .inside).waiting (c :: rest) = (s.setPc c .inside).waiting rest :=
      List.filter_cons_of_neg (by rw [setPc_self]; exact Bool.false_ne_true)
    rw [hafter, waiting_setPc hnot, List.append_assoc, List.singleton_append, ← hbefore]
    exact h.order

/-- The CPU that has the lock gives its ticket back. -/
theorem Inv.leave (h : s.Inv line released) {serving : BitVec 32} (hc : s.pc c = .unlocks serving) :
    ∃ rest, ({ s with nowServing := serving + 1 }.setPc c .outside).Inv rest (released + 1) := by
  have hplaced := h.placed c
  rw [hc] at hplaced
  obtain ⟨hhead, hserving⟩ := hplaced
  -- the CPU that holds the lock is the head of the line
  cases line with
  | nil => cases hhead
  | cons d rest =>
      obtain rfl := Option.some.inj hhead
      have hnot : d ∉ rest := (List.nodup_cons.mp h.nodup).1
      refine ⟨rest, (List.nodup_cons.mp h.nodup).2, ?_, ?_, h.next, fun e => ?_, ?_⟩
      · show s.tickets = _
        rw [h.tickets_eq, List.length_cons, Nat.add_right_comm, Nat.add_assoc]
      · show serving + 1 = _
        rw [hserving, BitVec.ofNat_add]
        rfl
      · by_cases hed : e = d
        · subst hed
          rw [setPc_self]
          exact hnot
        · rw [setPc_of_ne _ _ hed]
          exact (h.placed e).leave hed
      · show s.drawn = s.entered ++ (s.setPc d .outside).waiting rest
        have hbefore : s.waiting (d :: rest) = s.waiting rest :=
          List.filter_cons_of_neg (by rw [hc]; exact Bool.false_ne_true)
        rw [waiting_setPc hnot, ← hbefore]
        exact h.order

variable [Fintype C]

/-- Every access keeps the line in order. -/
theorem Inv.step (hcard : Fintype.card C < 2 ^ 31) (h : s.Inv line released) {a : Act C}
    (hfew : s.FewTickets a) (hstep : s.step a = some s') :
    ∃ line' released', s'.Inv line' released' := by
  have hlength : line.length < 2 ^ 31 := h.nodup.length_le_card.trans_lt hcard
  cases a with
  | draw c =>
      rw [SpinLock.step] at hstep
      split at hstep
      next hc =>
        obtain rfl := Option.some.inj hstep
        have hnot := h.placed c
        rw [hc] at hnot
        refine ⟨line ++ [c], released, h.join hnot ⟨line.length, by simp, ?_⟩ rfl⟩
        rw [h.next, h.tickets_eq]
      next => cases hstep
  | poll c =>
      rw [SpinLock.step] at hstep
      split at hstep
      next ticket hc =>
        obtain rfl := Option.some.inj hstep
        split
        next => exact ⟨line, released, h⟩
        next hserved =>
          obtain ⟨rest, rfl⟩ := h.served hlength hc (not_not.mp hserved)
          exact ⟨c :: rest, released, h.enter hc⟩
      next => cases hstep
  | tryServing c =>
      rw [SpinLock.step] at hstep
      split at hstep
      next hc =>
        obtain rfl := Option.some.inj hstep
        have hnot := h.placed c
        rw [hc] at hnot
        have htickets := h.tickets_eq
        -- as many tickets are out as there are CPUs in line
        have hattempt : Placed line released s.tickets s.tickets c (.tries s.nowServing) :=
          ⟨hnot, released, le_rfl, h.serving, by omega, by omega, le_rfl⟩
        refine ⟨line, released, h.move (fun d hd => Function.update_of_ne hd ..) ?_
          (waiting_setPc hnot _)⟩
        rw [Function.update_self]
        exact hattempt
      next => cases hstep
  | tryNext c =>
      rw [SpinLock.step] at hstep
      split at hstep
      next serving hc =>
        obtain rfl := Option.some.inj hstep
        have hplaced := h.placed c
        rw [hc] at hplaced
        refine ⟨line, released, h.move (fun _ _ => rfl) ?_ (waiting_setPc hplaced.1 _)⟩
        split
        next => exact hplaced.1
        next => exact hplaced
      next => cases hstep
  | trySwap c =>
      rw [SpinLock.step] at hstep
      split at hstep
      next serving hc =>
        obtain rfl := Option.some.inj hstep
        have hplaced := h.placed c
        rw [hc] at hplaced
        split
        next hnext =>
          obtain rfl := h.free hc hfew hnext
          subst hnext
          exact ⟨[] ++ [c], released, h.join List.not_mem_nil rfl (by simp [LockPc.isSpinning])⟩
        next =>
          exact ⟨line, released, h.move (fun _ _ => rfl) hplaced.1 (waiting_setPc hplaced.1 _)⟩
      next => cases hstep
  | loadServing c =>
      rw [SpinLock.step] at hstep
      split at hstep
      next hc =>
        obtain rfl := Option.some.inj hstep
        have hhead := h.placed c
        rw [hc] at hhead
        refine ⟨line, released, h.move (fun _ _ => rfl) ⟨hhead, h.serving⟩
          (List.filter_congr fun d _ => ?_)⟩
        by_cases hdc : d = c
        · subst hdc
          rw [setPc_self, hc]
          rfl
        · rw [setPc_of_ne _ _ hdc]
      next => cases hstep
  | storeServing c =>
      rw [SpinLock.step] at hstep
      split at hstep
      next serving hc =>
        obtain rfl := Option.some.inj hstep
        obtain ⟨rest, hrest⟩ := h.leave hc
        exact ⟨rest, released + 1, hrest⟩
      next => cases hstep

/-- However the accesses of the CPUs interleave, at most one CPU has the lock, and `spin_lock` lets
CPUs in in the order in which they have drawn their tickets. -/
theorem exclusive_in_order (hcard : Fintype.card C < 2 ^ 31)
    (hrun : Machine.Run SpinLock.step FewTickets init s) :
    (∀ c d, (s.pc c).Inside → (s.pc d).Inside → c = d) ∧ s.entered <+: s.drawn := by
  obtain ⟨line, released, h⟩ :=
    hrun.invariant (I := fun s : SpinLock C => ∃ line released, s.Inv line released)
    ⟨[], 0, inv_init⟩ (by
      rintro s s' a ⟨line, released, h⟩ hfew hstep
      exact h.step hcard hfew hstep)
  refine ⟨fun c d hc hd => ?_, ?_⟩
  · have hhead := (h.placed c).head hc
    rw [(h.placed d).head hd] at hhead
    exact (Option.some.inj hhead).symm
  · rw [h.order]
    exact List.prefix_append ..

end Keep

instance (s : SpinLock C) (a : Act C) : Decidable (s.FewTickets a) :=
  match a with
  | .trySwap _ => inferInstanceAs (Decidable (_ < _))
  | .draw _ | .poll _ | .tryServing _ | .tryNext _ | .loadServing _ | .storeServing _ =>
      inferInstanceAs (Decidable True)

/-- CPU 0 gets the lock by `spin_trylock`, while CPU 1 and then CPU 2 wait for it; CPU 0 gives it
back, and CPU 1 comes in. -/
theorem exclusive_in_order_three : ∃ s : SpinLock (Fin 3),
    Machine.Run SpinLock.step FewTickets init s ∧ (s.pc 1).Inside ∧ s.drawn = [1, 2] ∧
      s.entered = [1] ∧ (∀ c d, (s.pc c).Inside → (s.pc d).Inside → c = d) ∧
      s.entered <+: s.drawn := by
  obtain ⟨s, hrun, hcheck⟩ := Machine.exists_run_of_execAll SpinLock.step FewTickets
    (init : SpinLock (Fin 3))
    [.tryServing 0, .tryNext 0, .trySwap 0, .draw 1, .poll 1, .draw 2, .loadServing 0,
      .storeServing 0, .poll 2, .poll 1]
    (fun s => s.pc 1 = .inside ∧ s.drawn = [1, 2] ∧ s.entered = [1]) (by decide +kernel)
  obtain ⟨hpc, hdrawn, hentered⟩ := of_decide_eq_true hcheck
  exact ⟨s, hrun, by rw [hpc]; trivial, hdrawn, hentered, exclusive_in_order (by decide) hrun⟩

end SpinLock

end Koharu
