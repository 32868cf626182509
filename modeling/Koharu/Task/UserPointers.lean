import Koharu.Lib.Word
import Koharu.Task.ControlAuthority

/-!
# Addresses from user mode

The system calls take addresses as arguments and follow them. `System.Checked` says that they follow
none that the caller may not use itself: it is in the user half and mapped for user mode in the
caller's pmap, and it is writable when it is stored to; and that a call which finds an address not
to be mapped fails and changes nothing.

The kernel does not make sure of that. `checked_iff` is the exact condition on the arguments, call
by call; `exrRead_kernel_address` is a call that stores to an address of the kernel.
-/

namespace Koharu

/-- `e & PTE_USER`. -/
def Entry.user (e : Entry) : Bool := e &&& pteUser != 0

/-- The entries by which the hardware translates an address. -/
def walk (mem : Addr → BitVec 9 → Entry) (root va : Addr) : Option (List Entry) :=
  let e4 := mem root (pml4Index va)
  let e3 := mem e4.addr (pdptIndex va)
  let e2 := mem e3.addr (pdIndex va)
  let e1 := mem e2.addr (ptIndex va)
  if !e4.present || !e3.present then none
  else if e3.huge then some [e4, e3]
  else if !e2.present then none
  else if e2.huge then some [e4, e3, e2]
  else if !e1.present then none
  else some [e4, e3, e2, e1]

/-- Whether user mode may load from an address, or store to it. -/
def userAccess (mem : Addr → BitVec 9 → Entry) (root va : Addr) (write : Bool) : Bool :=
  va < 0x0000800000000000#64 &&
    (walk mem root va).any fun es => es.all fun e => e.user && (!write || e.writable)

namespace System

open Traced

variable {σ : Type} {s : System σ} {cur : Tid}

/-- The caller may use `n` bytes at `va` itself. -/
def UserMapped (s : System σ) (cur : Tid) (va : Addr) (n : ℕ) (write : Bool) : Prop :=
  ∃ p, s.kernel.pmaps (s.pmapOf cur) = some p ∧
    ∀ k < n, userAccess s.kernel.pm.mem p.rootPhys (va + BitVec.ofNat 64 k) write = true

/-- A pmap that `pmap_create` has returned. -/
def UserSpace (s : System σ) (pmap : Addr) : Prop :=
  (s.kernel.pmaps pmap).isSome ∧ pmap ≠ s.kernel.kernelPmap

/-- What a call may rely on. -/
def Trusted (s : System σ) (cur : Tid) : Note → Prop
  | .load va n => s.UserMapped cur va n false
  | .store va n => s.UserMapped cur va n true
  | .space pmap => s.UserSpace pmap
  | .refused _ | .enqueue _ _ => True

/-- A call relies only on what it may rely on, and if it refuses an address it fails and changes
nothing. -/
def CheckedBy (s : System σ) (cur : Tid) (x : Traced Note (Ending σ)) : Prop :=
  (∀ e ∈ x.log, s.Trusted cur e) ∧ ((∃ va, .refused va ∈ x.log) →
    ∃ value : BitVec 64, value.toInt < 0 ∧ x.val = some (.returned value none s))

/-! ### The condition

Which addresses a call is given, and when they are the caller's to use. -/

/-- Where `SYS_WRITE` looks up an address: at the beginning of its buffer, and of every page. -/
def ChunkStart (va : Addr) (off : BitVec 64) : Prop := off = 0 ∨ (va + off) &&& 0xFFF#64 = 0

/-- `TC_CREATE` gets the memory it needs. -/
def Creates (env : Env) (s : System σ) (a3 : BitVec 64) : Prop :=
  env.alloc.thread ∧ env.alloc.register ∧
    (a3 ≠ 0 ∨ env.alloc.pmapPtr ≠ 0 ∧ (s.kernel.pmaps s.kernel.kernelPmap).isSome)

/-- The condition on the arguments of `TC_CREATE`. -/
def CreateArgs (env : Env) (s : System σ) (cur : Tid) (a3 a5 : BitVec 64) : Prop :=
  Creates env s a3 → (a3 ≠ 0 → s.UserSpace a3) ∧ (a5 ≠ 0 → s.UserMapped cur a5 16 true)

/-- The condition on the arguments of `TC_BIND_SPACE`. -/
def BindArgs (s : System σ) (cur : Tid) (a2 a3 : BitVec 64) : Prop :=
  s.kernel.registered a2 → (s.kernel.thread a2).pagerTid = BitVec.ofNat 64 cur → a3 ≠ 0 →
    s.UserSpace a3

/-- The condition on the arguments of `SYS_EXCHANGE_REGISTERS`. -/
def RegisterArgs (s : System σ) (cur : Tid) (target ip sp flags op : BitVec 64) : Prop :=
  s.kernel.registered target → (op = 0 ∨ op = 1) →
    ∀ ptr ∈ pointers [ip, sp, flags], s.UserMapped cur ptr 8 (op = 0)

/-- The condition on the arguments of `SYS_WRITE`: either the first byte is not mapped, or the whole
buffer is mapped for user mode. -/
def WriteArgs (s : System σ) (cur : Tid) (a1 a2 a3 : BitVec 64) : Prop :=
  a1 = 1 ∨ a1 = 2 → s.kernel.pmapExtract (s.pmapOf cur) a2 = some 0 ∨
    ∀ off < a3, ChunkStart a2 off →
      ∀ phys, s.kernel.pmapExtract (s.pmapOf cur) (a2 + off) = some phys →
        phys ≠ 0 ∧ s.UserMapped cur (a2 + off) (chunk (a2 + off) (a3 - off)).toNat false

/-- The condition on the arguments of `SYS_FUTEX`. -/
def FutexArgs (s : System σ) (cur : Tid) (a1 a2 : BitVec 64) : Prop :=
  a2 = 0 → a1 &&& 0x3#64 = 0 →
    ∀ phys, s.kernel.pmapExtract (s.pmapOf cur) a1 = some phys → phys ≠ 0 →
      s.UserMapped cur a1 4 false

/-- The condition on the arguments of a call. -/
def Args (env : Env) (s : System σ) (cur : Tid) (c : Call) : Prop :=
  match c.num.toNat with
  | 0 => (c.a1 = 0 → CreateArgs env s cur c.a3 c.a5) ∧ (c.a1 = 2 → BindArgs s cur c.a2 c.a3)
  | 1 => RegisterArgs s cur c.a1 c.a2 c.a3 c.a4 c.a5
  | 8 => WriteArgs s cur c.a1 c.a2 c.a3
  | 9 => FutexArgs s cur c.a1 c.a2
  | _ => True

/-! ### Calls that follow no address

These put nothing on record, so that there is nothing to check. -/

/-- Nothing but calls of the scheduler is on record. -/
def Quiet {α : Type} (x : Traced Note α) : Prop := ∀ e ∈ x.log, ∃ t queued, e = .enqueue t queued

section Quiet

variable {α β : Type}

/-- A result alone dereferences nothing. -/
theorem quiet_pure (a : α) : Quiet (pure a : Traced Note α) := by simp [Quiet]

/-- Nor does a step that only may fail. -/
theorem quiet_lift (x : Option α) : Quiet (lift x : Traced Note α) := by simp [Quiet]

/-- Two quiet steps one after the other are quiet. -/
theorem Quiet.bind {x : Traced Note α} (hx : Quiet x) {f : α → Traced Note β}
    (hf : ∀ a, Quiet (f a)) : Quiet (x >>= f) :=
  forall_log_bind.mpr ⟨hx, fun a _ => hf a⟩

/-- A computation that records nothing before another one. -/
theorem quiet_lift_bind (x : Option α) {f : α → Traced Note β} (hf : ∀ a, Quiet (f a)) :
    Quiet (lift x >>= f) :=
  (quiet_lift x).bind hf

/-- A call that dereferences nothing is checked. -/
theorem Quiet.checked {x : Traced Note (Ending σ)} (h : Quiet x) : CheckedBy s cur x := by
  refine ⟨fun e he => ?_, ?_⟩
  · obtain ⟨t, queued, rfl⟩ := h e he
    trivial
  · rintro ⟨va, hva⟩
    obtain ⟨t, queued, heq⟩ := h _ hva
    cases heq

/-- `sched_enqueue` dereferences no address of the user's. -/
theorem schedEnqueue_quiet (s : System σ) (t : Tid) : Quiet (s.schedEnqueue t) := by
  refine Quiet.bind (fun e he => ?_) fun _ => quiet_lift_bind _ fun _ => quiet_pure _
  exact ⟨t, _, List.mem_singleton.mp he⟩

/-- Nor does waking a list of threads. -/
theorem foldlM_quiet (l : List Tid) (s : System σ) : Quiet (l.foldlM schedWakeup s) := by
  induction l generalizing s with
  | nil => exact quiet_pure s
  | cons t l ih =>
      rw [List.foldlM_cons]
      exact (schedEnqueue_quiet s t).bind ih

/-- Nor does what the scheduler does on the way out. -/
theorem leave_quiet (s : System σ) (out : Option Sched.Outcome) : Quiet (s.leave out) := by
  apply quiet_lift_bind _
  intro o
  cases o with
  | halts => exact quiet_pure _
  | runs sched => exact quiet_lift_bind _ fun _ => quiet_pure _

/-- `SYS_THREAD_SWITCH` dereferences no address of the user's. -/
theorem sysThreadSwitch_quiet (s : System σ) (cur : Tid) : Quiet (s.sysThreadSwitch cur) := by
  apply quiet_lift_bind _
  intro sched
  split
  · exact quiet_pure _
  · exact quiet_lift_bind _ fun _ => quiet_pure _

/-- Nor does an operation of ipc.c, whose messages travel in registers. -/
theorem ipcExec_quiet (s : System σ) (cur : Tid) (op : IpcState.Op) :
    Quiet (s.ipcExec cur op) := by
  refine quiet_lift_bind _ fun ⟨ipc, events⟩ => (foldlM_quiet _ _).bind fun s' => ?_
  split
  · exact leave_quiet _ _
  · exact quiet_pure _

/-- `SYS_IPC` dereferences no address of the user's. -/
theorem sysIpc_quiet (s : System σ) (cur : Tid) (packed a2 a3 a4 a5 a6 : BitVec 64) :
    Quiet (s.sysIpc cur packed a2 a3 a4 a5 a6) := by
  rw [sysIpc]
  split_ifs
  all_goals first
    | exact quiet_pure _
    | exact ipcExec_quiet _ _ _

/-- Nor does a call that works on the address spaces alone. -/
theorem ofKernel_quiet (s : System σ) (out : Option (BitVec 64 × Kernel σ)) :
    Quiet (s.ofKernel out) :=
  quiet_lift_bind _ fun _ => quiet_pure _

/-- Nor does the loop of `waitqueue_wake`: it is over threads, by induction on the fuel. -/
theorem wakeLoop_quiet (wq : Addr) (all : Bool) (fuel : ℕ) (n : BitVec 32) (s : System σ) :
    Quiet (wakeLoop wq all fuel n s) := by
  induction fuel generalizing n s with
  | zero => exact quiet_pure _
  | succ fuel ih =>
      rw [wakeLoop]
      split
      · exact quiet_pure _
      · refine quiet_lift_bind _ fun waiters => (schedEnqueue_quiet _ _).bind fun s' => ?_
        split
        · exact ih _ _
        · exact quiet_pure _

/-- Nor does `TC_DESTROY`. -/
theorem tcDestroy_quiet (s : System σ) (cur : Tid) (a2 : BitVec 64) :
    Quiet (s.tcDestroy cur a2) := by
  rw [tcDestroy]
  split
  · exact quiet_pure _
  · exact leave_quiet _ _

end Quiet

/-! ### Calls that follow addresses

What is on record is compared with the addresses among the arguments. -/

/-- The addresses that a branch of a call follows are put on record at its beginning. -/
theorem tell_checked_iff {l : List Note} (hl : ∀ va, Note.refused va ∉ l)
    {f : Unit → Traced Note (Ending σ)} (hf : Quiet (f ())) :
    CheckedBy s cur (tell l >>= f) ↔ ∀ e ∈ l, s.Trusted cur e := by
  have hchecked : CheckedBy s cur (f ()) := hf.checked
  have htrusted := hchecked.1
  constructor
  · intro h e he
    exact h.1 e (mem_log_bind.mpr (Or.inl he))
  · intro h
    refine ⟨forall_log_bind.mpr ⟨h, fun _ _ => htrusted⟩, ?_⟩
    rintro ⟨va, hva⟩
    rcases mem_log_bind.mp hva with hmem | ⟨u, -, hmem⟩
    · exact absurd hmem (hl va)
    · obtain ⟨t, queued, heq⟩ := hf _ hmem
      cases heq

/-- A step that succeeds is its value. -/
theorem lift_some_bind {α β : Type} (a : α) (f : α → Traced Note β) :
    (lift (some a) >>= f) = f a := rfl

/-- `SYS_EXCHANGE_REGISTERS` is checked exactly when its pointers lie in memory of the caller's. -/
theorem sysExchangeRegisters_checked_iff {target ip sp flags op : BitVec 64} :
    CheckedBy s cur (s.sysExchangeRegisters target ip sp flags op) ↔
      RegisterArgs s cur target ip sp flags op := by
  have hnotes : ∀ (note : Addr → Note) va, (∀ ptr, note ptr ≠ .refused va) →
      Note.refused va ∉ (pointers [ip, sp, flags]).map note := by
    intro note va hnote hmem
    obtain ⟨ptr, -, hptr⟩ := List.mem_map.mp hmem
    exact hnote ptr hptr
  rw [sysExchangeRegisters, RegisterArgs]
  dsimp only
  split_ifs with hreg hread hwrite hactivate hdeactivate hentry
  · exact iff_of_true (quiet_pure _).checked fun h => absurd h (by simpa using hreg)
  · -- `EXR_READ`
    subst hread
    rw [exrRead, tell_checked_iff (fun va => hnotes _ va (by simp)) (quiet_lift_bind _ fun _ =>
      quiet_lift_bind _ fun _ => quiet_lift_bind _ fun _ => quiet_pure _)]
    have hreg' : s.kernel.registered target = true := by simpa using hreg
    simp [hreg', Trusted]
  · -- `EXR_WRITE`
    subst hwrite
    rw [exrWrite, tell_checked_iff (fun va => hnotes _ va (by simp)) (quiet_lift_bind _ fun _ =>
      quiet_lift_bind _ fun _ => quiet_lift_bind _ fun _ => quiet_pure _)]
    have hreg' : s.kernel.registered target = true := by simpa using hreg
    simp [hreg', Trusted]
  · refine iff_of_true ?_ fun _ h => absurd h (not_or.mpr ⟨hread, hwrite⟩)
    rw [exrActivate]
    split
    · exact (quiet_pure _).checked
    · exact ((schedEnqueue_quiet _ _).bind fun _ => quiet_pure _).checked
  · refine iff_of_true ?_ fun _ h => absurd h (not_or.mpr ⟨hread, hwrite⟩)
    rw [exrDeactivate]
    split
    · exact (quiet_pure _).checked
    · exact (quiet_lift_bind _ fun _ => quiet_pure _).checked
  · exact iff_of_true (quiet_pure _).checked fun _ h => absurd h (not_or.mpr ⟨hread, hwrite⟩)
  · exact iff_of_true (quiet_pure _).checked fun _ h => absurd h (not_or.mpr ⟨hread, hwrite⟩)

/-- `TC_BIND_SPACE` is checked exactly when the pmap that it is given is one of the user's. -/
theorem tcBindSpace_checked_iff {a2 a3 : BitVec 64} :
    CheckedBy s cur (s.tcBindSpace cur a2 a3) ↔ BindArgs s cur a2 a3 := by
  rw [tcBindSpace, BindArgs]
  split_ifs with hreg hpager hzero
  · exact iff_of_true (quiet_pure _).checked fun h => absurd h (by simpa using hreg)
  · exact iff_of_true (quiet_pure _).checked fun _ h => absurd h hpager
  · exact iff_of_true (quiet_pure _).checked fun _ _ h => absurd hzero h
  · rw [tell_checked_iff (by simp) (quiet_pure _)]
    have hreg' : s.kernel.registered a2 = true := by simpa using hreg
    simp only [List.mem_singleton, forall_eq, Trusted]
    exact ⟨fun h _ _ _ => h, fun h => h hreg' (not_not.mp hpager) hzero⟩

/-- `TC_CREATE` from where it has a pmap. -/
def tcCreateOn [PageAllocator σ] (env : Env) (s : System σ) (a3 a4 a5 pmap : BitVec 64)
    (k : Kernel σ) : Traced Note (Ending σ) :=
  match k.threadCreateChild env.alloc pmap with
  | (none, k) => do
      let k ← lift (if a3 = 0 then k.pmapDestroy pmap else some k)
      if s.lastTid then lift none else return s.done (-1) k
  | (some tid, k) => do
      tell ((pointers [a3]).map .space ++ (pointers [a5]).map (.store · 16))
      let k ← lift (k.setUtcb tid a4 a5)
      if s.lastTid then lift none
      else return .returned tid none ({ s with kernel := k }.initThread tid a5)

/-- `TC_CREATE` is checked exactly when its pmap and its output pointer are the user's, if it gets
to create the thread. -/
theorem tcCreate_checked_iff [PageAllocator σ] {env : Env} {a3 a4 a5 : BitVec 64} :
    CheckedBy s cur (s.tcCreate env a3 a4 a5) ↔ CreateArgs env s cur a3 a5 := by
  -- the two ways to a pmap; after that, only a thread that has been made matters
  have hrest : ∀ (pmap : Addr) (k : Kernel σ), pmap ≠ 0 → (a3 ≠ 0 ∨ env.alloc.pmapPtr ≠ 0 ∧
      (s.kernel.pmaps s.kernel.kernelPmap).isSome) →
      (CheckedBy s cur (s.tcCreateOn env a3 a4 a5 pmap k) ↔ CreateArgs env s cur a3 a5) := by
    intro pmap k hpmap hspace
    have hlast : ∀ ending : Ending σ,
        Quiet (if s.lastTid then lift none else pure ending : Traced Note (Ending σ)) := by
      intro ending
      split
      · exact quiet_lift _
      · exact quiet_pure _
    rw [tcCreateOn, Kernel.threadCreateChild, CreateArgs, Creates]
    cases hthread : env.alloc.thread with
    | false =>
        refine iff_of_true ?_ fun h => absurd h.1 (by simp)
        exact (quiet_lift_bind _ fun _ => hlast _).checked
    | true =>
        cases hregister : env.alloc.register with
        | false =>
            refine iff_of_true ?_ fun h => absurd h.2.1 (by simp)
            exact (quiet_lift_bind _ fun _ => hlast _).checked
        | true =>
            simp only [Bool.not_true, Bool.false_eq_true, if_false]
            rw [tell_checked_iff (by simp [pointers]) (quiet_lift_bind _ fun _ => hlast _)]
            by_cases ha3 : a3 = 0 <;> by_cases ha5 : a5 = 0 <;>
              simp_all [pointers, Trusted]
  unfold tcCreate
  by_cases ha3 : a3 = 0
  · subst ha3
    simp only [ne_eq, not_true_eq_false, if_false]
    rw [Kernel.pmapCreate]
    split
    next hptr =>
      refine iff_of_true (quiet_pure _).checked fun h => absurd h.2.2 (by simp [hptr])
    next hptr =>
      cases hk : s.kernel.pmaps s.kernel.kernelPmap with
      | none =>
          refine iff_of_true (quiet_lift _).checked fun h => absurd h.2.2 (by simp [hk])
      | some p =>
          rw [Option.bind_eq_bind, Option.bind_some]
          dsimp only
          rw [Option.pure_def, lift_some_bind]
          dsimp only
          rw [if_neg hptr]
          exact hrest env.alloc.pmapPtr _ hptr (Or.inr ⟨hptr, by simp [hk]⟩)
  · rw [if_pos ha3, lift_some_bind]
    dsimp only
    rw [if_neg ha3]
    exact hrest a3 s.kernel ha3 (Or.inl ha3)

/-- `FUTEX_WAIT` is checked exactly when an aligned word that it can translate is mapped for the
user.
-/
theorem futexWait_checked_iff {env : Env} {uaddr : Addr} {expected : BitVec 32} :
    CheckedBy s cur (s.futexWait env cur uaddr expected) ↔ (uaddr &&& 0x3#64 = 0 →
      ∀ phys, s.kernel.pmapExtract (s.pmapOf cur) uaddr = some phys → phys ≠ 0 →
        s.UserMapped cur uaddr 4 false) := by
  rw [futexWait]
  split
  next haligned => exact iff_of_true (quiet_pure _).checked fun h => absurd h haligned
  next haligned =>
    cases hextract : s.kernel.pmapExtract (s.pmapOf cur) uaddr with
    | none => exact iff_of_true (quiet_lift _).checked fun _ phys hphys => by cases hphys
    | some phys =>
        rw [lift_some_bind]
        split
        next hphys =>
          -- the address is not mapped: `-EFAULT`, and nothing has changed
          refine iff_of_true ⟨fun e he => ?_, fun _ => ⟨-14, by decide, rfl⟩⟩ ?_
          · obtain rfl := List.mem_singleton.mp he
            trivial
          · rintro - phys' ⟨⟩ hne
            exact absurd hphys hne
        next hphys =>
          rw [tell_checked_iff (by simp) ?_]
          · simp only [List.mem_singleton, forall_eq, Trusted]
            refine ⟨fun h _ _ _ _ => h, fun h => h (not_not.mp haligned) phys rfl hphys⟩
          · split
            · exact quiet_pure _
            · apply quiet_lift_bind _
              intro joined
              cases joined with
              | none => exact quiet_pure _
              | some futex => exact leave_quiet _ _

/-- `FUTEX_WAKE` uses the translation of the address as a key only. -/
theorem futexWake_checked {uaddr : Addr} {all : BitVec 32} :
    CheckedBy s cur (s.futexWake cur uaddr all) := by
  rw [futexWake]
  split
  · exact (quiet_pure _).checked
  · cases s.kernel.pmapExtract (s.pmapOf cur) uaddr with
    | none => exact (quiet_lift _).checked
    | some phys =>
        rw [lift_some_bind]
        split
        -- the one access that is refused gives -EFAULT
        · refine ⟨fun e he => ?_, fun _ => ⟨-14, by decide, rfl⟩⟩
          obtain rfl := List.mem_singleton.mp he
          trivial
        · split
          · exact (quiet_pure _).checked
          · exact ((wakeLoop_quiet _ _ _ _ _).bind fun _ =>
              quiet_lift_bind _ fun _ => quiet_pure _).checked

/-! ### `SYS_WRITE`

The buffer is read in chunks that cross no page, each of which is looked up once. -/

/-- The chunks of a copy begin at its first byte and at the bytes that begin a page. -/
theorem chunkStart_iff {va : Addr} {off : BitVec 64} :
    ChunkStart va off ↔ off = 0 ∨ (va.toNat + off.toNat) % 4096 = 0 := by
  rw [ChunkStart, ← BitVec.toNat_inj (x := (va + off) &&& 0xFFF#64),
    Word.toNat_and_low (w := 12) (by decide), BitVec.toNat_add]
  simp

/-- A chunk ends where the buffer ends or where a page does, and crosses no page. -/
theorem chunk_spec (va : Addr) {left : BitVec 64} (hleft : 0 < left.toNat) :
    0 < (chunk va left).toNat ∧ (chunk va left).toNat ≤ left.toNat ∧
      va.toNat % 4096 + (chunk va left).toNat ≤ 4096 ∧
      ((chunk va left).toNat = left.toNat ∨ (va.toNat + (chunk va left).toNat) % 4096 = 0) := by
  have hlow : (va &&& 0xFFF#64).toNat = va.toNat % 4096 :=
    Word.toNat_and_low (w := 12) (by decide) va
  -- what is left of the page; the chunk is the smaller of it and what is left of the buffer
  have hroom : (pageSize - (va &&& 0xFFF#64)).toNat = 4096 - va.toNat % 4096 := by
    rw [BitVec.toNat_sub_of_le, hlow]
    · rfl
    · rw [BitVec.le_def, hlow]
      show va.toNat % 4096 ≤ 4096
      omega
  rw [chunk]
  split
  next hlt =>
    rw [BitVec.lt_def, hroom] at hlt
    refine ⟨hleft, le_rfl, ?_, Or.inl rfl⟩
    omega
  next hnot =>
    rw [BitVec.lt_def, hroom] at hnot
    rw [hroom]
    omega

/-- A chunk that is mapped for user mode. -/
def ChunkMapped (s : System σ) (cur : Tid) (ext : Addr → Addr) (a2 a3 off : BitVec 64) : Prop :=
  ext (a2 + off) ≠ 0 ∧ s.UserMapped cur (a2 + off) (chunk (a2 + off) (a3 - off)).toNat false

/-- The loop looks up every chunk from where it is, as long as none is refused. -/
theorem writeLoop_log_iff {ext : Addr → Addr} {a2 a3 : BitVec 64}
    (hext : ∀ va, s.kernel.pmapExtract (s.pmapOf cur) va = some (ext va)) (fuel : ℕ)
    {off : BitVec 64} {s₁ : System σ} (hkernel : s₁.kernel = s.kernel)
    (hfuel : a3.toNat - off.toNat < fuel) (hoff : off = a3 ∨ ChunkStart a2 off) :
    (∀ e ∈ (writeLoop cur a2 a3 fuel off s₁).log, s.Trusted cur e ∧ ∀ va, e ≠ .refused va) ↔
      ∀ i, off ≤ i → i < a3 → ChunkStart a2 i → s.ChunkMapped cur ext a2 a3 i := by
  induction fuel generalizing off s₁ with
  | zero => omega
  | succ fuel ih =>
      unfold writeLoop
      by_cases hlt : off < a3
      · have hltn : off.toNat < a3.toNat := BitVec.lt_def.mp hlt
        have hstart : ChunkStart a2 off := hoff.resolve_left fun heq => by
          rw [heq] at hltn
          exact lt_irrefl _ hltn
        have hextract : s₁.kernel.pmapExtract (s₁.pmapOf cur)
          (a2 + off) = some (ext (a2 + off)) := by
          rw [pmapOf, hkernel]
          exact hext _
        rw [if_pos hlt]
        dsimp only
        rw [hextract, lift_some_bind]
        by_cases hzero : ext (a2 + off) = 0
        · rw [if_pos hzero]
          refine iff_of_false (fun h => ?_) fun h => ?_
          · exact (h (.refused (a2 + off)) List.mem_cons_self).2 _ rfl
          · exact (h off (BitVec.le_refl _) hlt hstart).1 hzero
        · rw [if_neg hzero]
          -- the chunk in arithmetic
          have hleft : (a3 - off).toNat = a3.toNat - off.toNat :=
            BitVec.toNat_sub_of_le (BitVec.le_def.mpr hltn.le)
          obtain ⟨hpos, hle, hpage, hend⟩ :=
            chunk_spec (a2 + off) (by omega : 0 < (a3 - off).toNat)
          have hmapped : s.ChunkMapped cur ext a2 a3 off ↔
              s.UserMapped cur (a2 + off) (chunk (a2 + off) (a3 - off)).toNat false :=
            and_iff_right hzero
          generalize hn : chunk (a2 + off) (a3 - off) = n at hpos hle hpage hend hmapped ⊢
          have hva : (a2 + off).toNat = (a2.toNat + off.toNat) % 2 ^ 64 := BitVec.toNat_add ..
          have hnext : (off + n).toNat = off.toNat + n.toNat := by
            rw [BitVec.toNat_add, Nat.mod_eq_of_lt]
            have := a3.isLt
            omega
          have hstart' : off + n = a3 ∨ ChunkStart a2 (off + n) := by
            rw [chunkStart_iff, ← BitVec.toNat_inj, hnext]
            omega
          have hrest : ∀ s₂ : System σ, s₂.kernel = s.kernel → _ := fun s₂ h₂ =>
            ih h₂ (by omega : a3.toNat - (off + n).toNat < fuel) hstart'
          rw [forall_log_bind]
          simp only [tell_log, List.mem_singleton, forall_eq, tell_val]
          constructor
          · rintro ⟨⟨hload, -⟩, hloop⟩ i hi hia3 hi'
            -- the next chunk starts where this one ends
            by_cases hieq : i = off
            · rw [hieq]
              exact hmapped.mpr hload
            · refine (hrest _ ?_).mp (hloop () trivial) i ?_ hia3 hi'
              · exact hkernel
              rw [chunkStart_iff] at hi'
              rw [BitVec.le_def] at hi ⊢
              have hne : i.toNat ≠ off.toNat := fun heq => hieq (BitVec.eq_of_toNat_eq heq)
              have hi0 : i ≠ 0 := by
                rintro rfl
                simp at hi hne
                omega
              have := hi'.resolve_left hi0
              rw [hnext]
              omega
          · intro h
            refine ⟨⟨hmapped.mp (h off (BitVec.le_refl _) hlt hstart), by simp⟩, fun _ _ => ?_⟩
            refine (hrest _ ?_).mpr fun i hi => h i ?_
            · exact hkernel
            rw [BitVec.le_def] at hi ⊢
            omega
      · rw [if_neg hlt]
        apply iff_of_true (by simp)
        intro i hi hia3
        rw [BitVec.le_def] at hi
        rw [BitVec.lt_def] at hia3 hlt
        omega

/-- When the loop refuses an address it fails, after what it has printed so far. -/
theorem writeLoop_refused {a2 a3 : BitVec 64} (fuel : ℕ) {off : BitVec 64} {s₁ : System σ}
    {va : Addr} (h : .refused va ∈ (writeLoop cur a2 a3 fuel off s₁).log) :
    ∃ s₂, (writeLoop cur a2 a3 fuel off s₁).val = some (.returned (-1) none s₂) ∧
      s₁.output.length ≤ s₂.output.length := by
  induction fuel generalizing off s₁ with
  | zero => cases h
  | succ fuel ih =>
      rw [writeLoop] at h ⊢
      split at h
      next hlt =>
        rw [if_pos hlt]
        dsimp only at h ⊢
        -- the walk through the tables has no result for a space that is not there
        cases hextract : s₁.kernel.pmapExtract (s₁.pmapOf cur) (a2 + off) with
        | none =>
            rw [hextract] at h
            cases h
        | some phys =>
            rw [hextract, lift_some_bind] at h
            rw [lift_some_bind]
            split at h
            next hphys =>
              rw [if_pos hphys]
              exact ⟨s₁, rfl, le_rfl⟩
            next hphys =>
              rw [if_neg hphys]
              -- the byte was read, so the refusal comes later
              rcases mem_log_bind.mp h with hload | ⟨-, -, hloop⟩
              · cases List.mem_singleton.mp hload
              · obtain ⟨s₂, hs₂, hlength⟩ := ih hloop
                refine ⟨s₂, hs₂, le_trans ?_ hlength⟩
                simp
      next => cases h

/-- `n` bytes are read. -/
theorem loadBytes_length (k : Kernel σ) (phys : Addr) (n : ℕ) :
    (k.loadBytes phys n).length = n := by
  simp [Kernel.loadBytes]

/-- `pmap_extract` is defined everywhere or nowhere. -/
theorem pmapExtract_cases (k : Kernel σ) (pmap : Addr) :
    (∀ va, k.pmapExtract pmap va = none) ∨ ∃ ext : Addr → Addr, ∀ va,
      k.pmapExtract pmap va = some (ext va) := by
  -- a null pmap translates nothing, an unknown pointer leads nowhere
  by_cases hpmap : pmap = 0
  · exact Or.inr ⟨fun _ => 0, fun va => if_pos hpmap⟩
  · cases hp : k.pmaps pmap with
    | none =>
        left
        intro va
        rw [Kernel.pmapExtract, if_neg hpmap, hp]
        rfl
    | some p =>
        right
        refine ⟨k.pm.pmapExtract p.rootPhys, fun va => ?_⟩
        rw [Kernel.pmapExtract, if_neg hpmap, hp]
        rfl

section FirstChunk

variable {ext : Addr → Addr} {a2 a3 : BitVec 64}
  (hext : ∀ va, s.kernel.pmapExtract (s.pmapOf cur) va = some (ext va)) (ha3 : a3 ≠ 0)

include hext ha3

/-- The loop when the first address is not mapped. -/
theorem writeLoop_refuses (fuel : ℕ) (hzero : ext a2 = 0) :
    writeLoop cur a2 a3 (fuel + 1) 0 s = Traced.tell [Note.refused a2] >>= fun _ =>
      pure s.fails := by
  have hpos : (0 : BitVec 64) < a3 :=
    BitVec.lt_def.mpr (Nat.pos_of_ne_zero fun h => ha3 (BitVec.eq_of_toNat_eq h))
  rw [writeLoop, if_pos hpos]
  dsimp only
  rw [hext, lift_some_bind, if_pos (by simpa using hzero)]
  simp only [BitVec.ofNat_eq_ofNat, BitVec.add_zero]

/-- When an address after the first is not mapped, something has been printed. -/
theorem writeLoop_prints {fuel : ℕ} {va : Addr} (hzero : ext a2 ≠ 0)
    (h : .refused va ∈ (writeLoop cur a2 a3 (fuel + 1) 0 s).log) :
    ∃ s₂, (writeLoop cur a2 a3 (fuel + 1) 0 s).val = some (.returned (-1) none s₂) ∧
      s.output.length < s₂.output.length := by
  have hpos : (0 : BitVec 64) < a3 :=
    BitVec.lt_def.mpr (Nat.pos_of_ne_zero fun h => ha3 (BitVec.eq_of_toNat_eq h))
  rw [writeLoop, if_pos hpos] at h ⊢
  dsimp only at h ⊢
  rw [hext, lift_some_bind, if_neg (by simpa using hzero)] at h
  rw [hext, lift_some_bind, if_neg (by simpa using hzero)]
  -- the first chunk is mapped and printed, so that the refusal comes later
  rcases mem_log_bind.mp h with hload | ⟨-, -, hloop⟩
  · cases List.mem_singleton.mp hload
  · obtain ⟨s₂, hs₂, hlength⟩ := writeLoop_refused fuel hloop
    refine ⟨s₂, hs₂, lt_of_lt_of_le ?_ hlength⟩
    have hleft : 0 < (a3 - 0).toNat := by
      simpa [BitVec.lt_def] using hpos
    simpa [loadBytes_length] using (chunk_spec (a2 + 0) hleft).1

end FirstChunk

/-- `SYS_WRITE` is checked exactly when its buffer is memory of the caller's. -/
theorem sysWrite_checked_iff {a1 a2 a3 : BitVec 64} :
    CheckedBy s cur (s.sysWrite cur a1 a2 a3) ↔ WriteArgs s cur a1 a2 a3 := by
  rw [sysWrite, WriteArgs]
  split_ifs with hfd ha3
  · apply iff_of_true (quiet_pure _).checked
    intro h
    rcases h with h | h
    · exact absurd h hfd.1
    · exact absurd h hfd.2
  · subst ha3
    refine iff_of_true (quiet_pure _).checked fun _ => Or.inr fun off hoff => ?_
    exact absurd hoff (by simp)
  · have hfd' : a1 = 1 ∨ a1 = 2 := by
      by_contra hne
      exact hfd (not_or.mp hne)
    rw [forall_prop_of_true hfd']
    rcases pmapExtract_cases s.kernel (s.pmapOf cur) with hnone | ⟨ext, hext⟩
    · refine iff_of_true ?_ (Or.inr fun off _ _ phys hphys => ?_)
      · have hpos : (0 : BitVec 64) < a3 := by
          rw [BitVec.lt_def]
          exact Nat.pos_of_ne_zero fun h => ha3 (BitVec.eq_of_toNat_eq h)
        rw [writeLoop, if_pos hpos]
        dsimp only
        rw [hnone]
        exact (quiet_lift _).checked
      · rw [hnone] at hphys
        cases hphys
    · have hargs : (∀ off < a3, ChunkStart a2 off → ∀ phys,
          s.kernel.pmapExtract (s.pmapOf cur) (a2 + off) = some phys →
            phys ≠ 0 ∧ s.UserMapped cur (a2 + off) (chunk (a2 + off) (a3 - off)).toNat false) ↔
          ∀ i, 0 ≤ i → i < a3 → ChunkStart a2 i → s.ChunkMapped cur ext a2 a3 i := by
        constructor
        · intro h i _ hi hstart
          exact h i hi hstart _ (hext _)
        · intro h off hoff hstart phys hphys
          rw [hext] at hphys
          cases hphys
          exact h off (BitVec.le_def.mpr (Nat.zero_le _)) hoff hstart
      rw [hargs]
      by_cases hzero : ext a2 = 0
      · -- the first address is refused, before anything has been printed
        refine iff_of_true ?_ (Or.inl (by rw [hext, hzero]))
        rw [writeLoop_refuses hext ha3 a3.toNat hzero]
        refine ⟨fun e he => ?_, fun _ => ⟨-1, by decide, rfl⟩⟩
        obtain rfl := List.mem_singleton.mp he
        trivial
      · rw [or_iff_right (by rw [hext]; exact fun h => hzero (Option.some.inj h)),
          ← writeLoop_log_iff hext (a3.toNat + 1) rfl (by simp) (Or.inr (Or.inl rfl))]
        constructor
        · rintro ⟨htrusted, hrefused⟩ e he
          refine ⟨htrusted e he, fun va hva => ?_⟩
          subst hva
          -- a later address is refused after the first page has been printed
          obtain ⟨value, -, hval⟩ := hrefused ⟨va, he⟩
          obtain ⟨s₂, hs₂, hlength⟩ := writeLoop_prints hext ha3 hzero he
          rw [hs₂] at hval
          cases hval
          exact lt_irrefl _ hlength
        · intro h
          refine ⟨fun e he => (h e he).1, ?_⟩
          rintro ⟨va, hva⟩
          exact absurd rfl ((h _ hva).2 va)

/-! ### All calls

By cases on the number of the call. -/

/-- A call checks the addresses that it gets from user mode. -/
def Checked [PageAllocator σ] (env : Env) (s : System σ) (cur : Tid) (c : Call) : Prop :=
  CheckedBy s cur (s.doSyscall env cur c)

/-- A call relies only on addresses the caller may use, and refuses others without an effect, if and
only if its arguments are such that there is nothing to refuse. -/
theorem checked_iff [PageAllocator σ] (env : Env) (s : System σ) (cur : Tid) (c : Call) :
    s.Checked env cur c ↔ s.Args env cur c := by
  rw [Checked, doSyscall, Args]
  generalize c.num.toNat = n
  -- one case for each number, and one for those from 14 on
  obtain _ | _ | _ | _ | _ | _ | _ | _ | _ | _ | _ | _ | _ | _ | n := n
  · show CheckedBy s cur (s.sysThreadControl env cur c.a1 c.a2 c.a3 c.a4 c.a5) ↔ _ ∧ _
    unfold sysThreadControl
    split_ifs with hcreate hdestroy hbind
    · rw [tcCreate_checked_iff]
      simp [hcreate]
    · exact iff_of_true (tcDestroy_quiet _ _ _).checked (by simp [hdestroy])
    · rw [tcBindSpace_checked_iff]
      simp [hbind]
    · apply iff_of_true (quiet_pure _).checked
      exact ⟨fun h => absurd h hcreate, fun h => absurd h hbind⟩
  · exact sysExchangeRegisters_checked_iff
  · exact iff_of_true (sysIpc_quiet _ _ _ _ _ _ _ _).checked trivial
  · exact iff_of_true (ofKernel_quiet _ _).checked trivial
  · exact iff_of_true (ofKernel_quiet _ _).checked trivial
  · exact iff_of_true (ofKernel_quiet _ _).checked trivial
  · exact iff_of_true (quiet_pure _).checked trivial
  · exact iff_of_true (sysThreadSwitch_quiet _ _).checked trivial
  · exact sysWrite_checked_iff
  · show CheckedBy s cur (s.sysFutex env cur c.a1 c.a2 c.a3) ↔ FutexArgs s cur c.a1 c.a2
    rw [sysFutex, FutexArgs]
    split_ifs with hwait hwake
    · rw [futexWait_checked_iff]
      simp [hwait]
    · exact iff_of_true futexWake_checked fun h => absurd h hwait
    · exact iff_of_true (quiet_pure _).checked fun h => absurd h hwait
  all_goals exact iff_of_true (quiet_pure _).checked trivial

/-- `EXR_READ` of thread 2, with its stack pointer to go to an address in the kernel half. -/
def readCall : Call where
  num := 1
  a1 := 2
  a2 := 0
  a3 := 0xFFFF800000005000#64
  a4 := 0
  a5 := 0
  a6 := 0

/-- The call succeeds and has stored the stack pointer. -/
def storesTop : Ending BumpAllocator → Bool
  | .returned value none s => value = 0 ∧ s.kernel.pm.mem 0x5000#64 0 = userStackTop
  | _ => false

/-- The kernel stores the stack pointer at that address, which user mode may not use, and the call
succeeds. -/
theorem exrRead_kernel_address : ∃ s', ¬ twoThreads.Checked noMemory 2 readCall ∧
    (twoThreads.doSyscall noMemory 2 readCall).val = some (.returned 0 none s') ∧
    twoThreads.kernel.pm.mem 0x5000#64 0 = 0 ∧ s'.kernel.pm.mem 0x5000#64 0 = userStackTop := by
  have hcheck : ((twoThreads.doSyscall noMemory 2 readCall).val.any storesTop) = true := by
    decide +kernel
  obtain ⟨ending, hending, hcheck⟩ := (Option.any_eq_true _ _).mp hcheck
  rw [storesTop.eq_def] at hcheck
  split at hcheck
  next value s' =>
    obtain ⟨rfl, hmem⟩ := of_decide_eq_true hcheck
    refine ⟨s', fun h => ?_, hending, by decide +kernel, hmem⟩
    have hstore := h.1 (.store 0xFFFF800000005000#64 8) (by decide +kernel)
    obtain ⟨p, -, haccess⟩ := hstore
    -- the address is not one of the user's half
    have := haccess 0 (by decide)
    rw [userAccess, Bool.and_eq_true] at this
    exact absurd this.1 (by decide)
  next => cases hcheck

end System

end Koharu
