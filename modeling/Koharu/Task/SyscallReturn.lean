import Koharu.Task.IpcFrame
import Koharu.Task.ControlAuthority

/-!
# What `SYS_IPC` brings back to user mode

`syscall_dispatch` has a `struct syscall_ret` on its stack and copies the words in it to the user's
registers after every `SYS_IPC`. `sys_ipc` fills them from its own `out`, where an operation that
receives has stored its message, but it returns before that if there is no such thread or no such
operation, and after `ipc_send`. The words are what was on the stack then.

An operation may block. What it finds on its stack when it goes on is what it has left there.

* `ipc_reply_independent_iff`: for which calls the registers do not depend on the contents of the
  stack.
-/

namespace Koharu

/-- The registers of the user that `syscall_dispatch` reads and sets. -/
structure UserRegs where
  rax : BitVec 64
  rdi : BitVec 64
  rsi : BitVec 64
  rdx : BitVec 64
  r10 : BitVec 64
  r8 : BitVec 64
  r9 : BitVec 64
  deriving DecidableEq

/-- The local variables on the kernel stack that are not initialised. -/
structure Locals where
  /-- The words of `ret.extra` that `syscall_dispatch` copies. -/
  extra : Words
  /-- `out` of `sys_ipc`. -/
  out : Words

/-- The rest of the operation, after it has blocked, copies a message to `out`. -/
def Frame.copies : Frame → Bool
  | .recv | .call _ _ _ | .replyRecv => true
  | .send _ => false

namespace IpcState

variable {s s' : IpcState}

/-- An operation of user mode copies a message to `out` before it returns. -/
def Op.copies : Op → Bool
  | .recv | .call _ _ | .replyRecv _ => true
  | .send _ _ | .resume => false

/-! ### The operation a thread has blocked in

What a thread does when it runs again, which is the rest of the system call that it blocked in. -/

/-- The operation has returned, or the thread has blocked in it. -/
inductive Leaves (copies : Bool) (s' : IpcState) (t : Tid) (events : List Event) : Prop
  | returned (hframe : (s'.thread t).frame = none)
      (hanswer : (System.answer events).2.isSome = copies)
  | blocked (hstate : (s'.thread t).state = .blocked) {f : Frame}
      (hframe : (s'.thread t).frame = some f) (hcopies : f.copies = copies)

/-- A thread that blocks leaves with what its frame copies. -/
theorem schedBlock_leaves (s : IpcState) (f : Frame) (events : List Event) :
    Leaves f.copies (s.schedBlock f) s.current events := by
  refine .blocked ?_ ?_ rfl <;> rw [schedBlock, modify_thread, if_pos rfl]

/-- `ipc_send`. -/
theorem ipcSend_leaves {target : Tid} {words : Words} (hframe : s.cur.frame = none)
    (h : s.ipcSend target words = some s') :
    Leaves false s' s.current [.sent s.current target words] := by
  obtain ⟨⟨s₁, delivered⟩, hhand, h⟩ := Option.bind_eq_some_iff.mp h
  obtain rfl := Option.some.inj h
  obtain ⟨hcurrent, hframes⟩ := handOver_frame hhand
  cases delivered with
  | true => exact .returned ((hframes s.current).trans hframe) rfl
  | false =>
      rw [← hcurrent]
      exact schedBlock_leaves s₁ (.send target) _

/-- The end of `ipc_recv` and `ipc_reply_recv`. -/
theorem waitRequest_leaves {f : Frame} {events : List Event} (hf : f.copies = true)
    (hframe : s.cur.frame = none) (h : s.waitRequest f = some (s', events)) :
    Leaves true s' s.current events := by
  rw [waitRequest] at h
  split at h
  · obtain ⟨⟨x, s₁⟩, haccept, h⟩ := Option.bind_eq_some_iff.mp h
    obtain ⟨rfl, rfl⟩ := Prod.mk.inj (Option.some.inj h)
    exact .returned ((ipcAccept_frame haccept s.current).trans hframe) rfl
  · obtain ⟨queues, -, h⟩ := Option.bind_eq_some_iff.mp h
    obtain ⟨rfl, rfl⟩ := Prod.mk.inj (Option.some.inj h)
    rw [← hf]
    exact schedBlock_leaves _ f []

/-- An operation of a thread in user mode. -/
theorem exec_leaves {op : Op} {events : List Event} (hop : op ≠ .resume)
    (hframe : s.cur.frame = none) (h : s.exec op = some (s', events)) :
    Leaves op.copies s' s.current events := by
  cases op with
  | send target words =>
      obtain ⟨s₁, hsend, h⟩ := Option.bind_eq_some_iff.mp h
      obtain ⟨rfl, rfl⟩ := Prod.mk.inj (Option.some.inj h)
      exact ipcSend_leaves hframe hsend
  | recv => exact waitRequest_leaves rfl hframe h
  | call target words =>
      obtain ⟨s₁, hcall, h⟩ := Option.bind_eq_some_iff.mp h
      obtain ⟨rfl, rfl⟩ := Prod.mk.inj (Option.some.inj h)
      obtain ⟨s₂, hreserve, hcall⟩ := Option.bind_eq_some_iff.mp hcall
      obtain ⟨⟨s₃, delivered⟩, hhand, hcall⟩ := Option.bind_eq_some_iff.mp hcall
      obtain ⟨queues, -, hreserve⟩ := Option.bind_eq_some_iff.mp hreserve
      obtain rfl := Option.some.inj hreserve
      obtain rfl := Option.some.inj hcall
      have hcurrent : s₃.current = s.current := (handOver_frame hhand).1
      rw [← hcurrent]
      exact schedBlock_leaves s₃ (.call target _ _) _
  | replyRecv words =>
      obtain ⟨s₁, hreply, h⟩ := Option.bind_eq_some_iff.mp h
      obtain ⟨⟨s₂, events'⟩, hwait, h⟩ := Option.bind_eq_some_iff.mp h
      obtain ⟨rfl, rfl⟩ := Prod.mk.inj (Option.some.inj h)
      obtain ⟨hcurrent, hframes⟩ := reply_frame hreply
      have hframe₁ : s₁.cur.frame = none := by
        rw [cur, hcurrent]
        exact (hframes s.current).trans hframe
      have hleaves := waitRequest_leaves rfl hframe₁ hwait
      rw [hcurrent] at hleaves
      -- the event of the reply does not bring words back
      cases hleaves with
      | returned hframe hanswer => exact .returned hframe hanswer
      | blocked hstate hframe hcopies => exact .blocked hstate hframe hcopies
  | resume => exact absurd rfl hop

/-- The rest of an operation. -/
theorem exec_resume_answer {events : List Event} (h : s.exec .resume = some (s', events)) :
    ∃ f, s.cur.frame = some f ∧ (System.answer events).2.isSome = f.copies := by
  obtain ⟨f, hf, h⟩ := Option.map_eq_some_iff.mp h
  refine ⟨f, hf, ?_⟩
  cases f <;> cases h <;> rfl

end IpcState

/-- The arguments that `syscall_dispatch` passes to `do_syscall`. -/
def UserRegs.call (regs : UserRegs) : System.Call where
  num := regs.rax
  a1 := regs.rdi
  a2 := regs.rsi
  a3 := regs.rdx
  a4 := regs.r10
  a5 := regs.r8
  a6 := regs.r9

/-- The state in which another thread runs. -/
def Ending.switched? {σ : Type} : Ending σ → Option (System σ)
  | .switched s => some s
  | .returned _ _ _ | .halted => none

/-- What a call has returned. -/
def Ending.returned? {σ : Type} : Ending σ → Option (BitVec 64 × Option Words)
  | .returned value extra _ => some (value, extra)
  | .switched _ | .halted => none

namespace System

open Traced

variable {σ : Type} [PageAllocator σ]

/-- `ret->extra` when `sys_ipc` returns, if its operation has copied `copied` to `out`. -/
def extraOut (s : System σ) (packed : BitVec 64) (l : Locals) (copied : Option Words) : Words :=
  let op := packed >>> 32
  let tid := packed &&& 0xFFFFFFFF#64
  let out := copied.getD l.out
  if op = 0 then l.extra
  else if op = 1 then out
  else if op = 2 then if !s.kernel.registered tid then l.extra else out
  else if op = 3 then out
  else l.extra

/-- `syscall_dispatch`, where `s` is the state at its beginning and `do_syscall` has returned
`value`. -/
def syscallDispatch (s : System σ) (regs : UserRegs) (l : Locals) (value : BitVec 64)
    (copied : Option Words) : UserRegs :=
  let extra := s.extraOut regs.rdi l copied
  if regs.rax = 2 then
    { regs with
      rax := value
      rdi := extra.toList.getD 0 0
      rsi := extra.toList.getD 1 0
      rdx := extra.toList.getD 2 0
      r10 := extra.toList.getD 3 0
      r8 := extra.toList.getD 4 0 }
  else { regs with rax := value }

/-- The system call of the current thread returns `value`, and its operation has copied `copied` to
`out`. If the thread gives up the CPU, it goes on in any state in which its stack is as it was. -/
inductive Returns (env : Env) (s : System σ) (cur : Tid) (c : Call) (value : BitVec 64)
    (copied : Option Words) : Prop
  | atOnce {s' : System σ} (hcall : (s.doSyscall env cur c).val = some (.returned value copied s'))
  | later {s₁ s₂ s' : System σ} (hcall : (s.doSyscall env cur c).val = some (.switched s₁))
      (hframe : (s₂.ipc.thread cur).frame = (s₁.ipc.thread cur).frame)
      (hkont : s₂.kont cur = s₁.kont cur)
      (hresume : (s₂.resume cur).val = some (.returned value copied s'))

/-- The call receives a message, or makes a call to a thread that there is. -/
def Receives (s : System σ) (packed : BitVec 64) : Prop :=
  packed >>> 32 = 1 ∨ packed >>> 32 = 3 ∨
    packed >>> 32 = 2 ∧ s.kernel.registered (packed &&& 0xFFFFFFFF#64) = true

variable {s s' : System σ} {cur : Tid} {env : Env}

omit [PageAllocator σ] in
/-- A function that gives up the CPU does not return at once. -/
theorem leave_not_returned {out : Option Sched.Outcome} {value : BitVec 64} {extra : Option Words} :
    (s.leave out).val ≠ some (.returned value extra s') := by
  rw [leave, val_bind, lift_val]
  intro h
  obtain ⟨o, -, h⟩ := Option.bind_eq_some_iff.mp h
  cases o with
  | halts => cases h
  | runs sched =>
      dsimp only at h
      rw [val_bind] at h
      obtain ⟨s₁, -, h⟩ := Option.bind_eq_some_iff.mp h
      cases h

omit [PageAllocator σ] in
/-- An operation that returns at once. -/
theorem ipcExec_returned {op : IpcState.Op} {value : BitVec 64} {copied : Option Words}
    (h : (s.ipcExec cur op).val = some (.returned value copied s')) :
    ∃ ipc events, (s.ipcView cur).exec op = some (ipc, events) ∧
      (ipc.thread cur).state ≠ .blocked ∧ copied = (answer events).2 := by
  rw [ipcExec, val_bind, lift_val] at h
  obtain ⟨⟨ipc, events⟩, hexec, h⟩ := Option.bind_eq_some_iff.mp h
  rw [val_bind] at h
  obtain ⟨s₁, -, h⟩ := Option.bind_eq_some_iff.mp h
  split at h
  next => exact absurd h leave_not_returned
  next hblocked =>
    cases h
    exact ⟨ipc, events, hexec, hblocked, rfl⟩

omit [PageAllocator σ] in
/-- What an operation leaves on the stack when it gives up the CPU. -/
theorem ipcExec_switched {op : IpcState.Op} (h : (s.ipcExec cur op).val = some (.switched s')) :
    ∃ events, (s.ipcView cur).exec op = some (s'.ipc, events) ∧ s'.kont = s.kont := by
  rw [ipcExec, val_bind, lift_val] at h
  obtain ⟨⟨ipc, events⟩, hexec, h⟩ := Option.bind_eq_some_iff.mp h
  rw [val_bind] at h
  obtain ⟨s₁, hfold, h⟩ := Option.bind_eq_some_iff.mp h
  have hwoke := woke_of_foldlM (P := fun _ => True) _ (fun _ _ => trivial) hfold
  split at h
  next =>
    obtain ⟨sched, -, hswitch⟩ := leave_eq h rfl
    obtain ⟨-, -, -, -, -, hipc, -, hkont⟩ := switchTo_eq hswitch
    refine ⟨events, ?_, hkont.trans hwoke.kont⟩
    rw [hipc, hwoke.ipc]
    exact hexec
  next => cases h

/-- Whether a call that returns has copied a message, by its operation. -/
theorem Returns.isSome_copied {c : Call} {value : BitVec 64} {copied : Option Words}
    (hmode : s.UserMode cur) (h : Returns env s cur c value copied) {op : IpcState.Op}
    (hop : op ≠ .resume) (hcall : s.doSyscall env cur c = s.ipcExec cur op) :
    copied.isSome = op.copies := by
  have hframe : (s.ipcView cur).cur.frame = none := hmode.1
  cases h with
  | atOnce hret =>
      rw [hcall] at hret
      obtain ⟨ipc, events, hexec, hstate, rfl⟩ := ipcExec_returned hret
      cases IpcState.exec_leaves hop hframe hexec with
      | returned _ hanswer => exact hanswer
      | blocked hblocked => exact absurd hblocked hstate
  | @later s₁ s₂ s' hswitch hsame hkont hresume =>
      rw [hcall] at hswitch
      obtain ⟨events, hexec, hkont₁⟩ := ipcExec_switched hswitch
      rw [resume, hkont, hkont₁, hmode.2] at hresume
      obtain ⟨ipc, events', hexec', -, rfl⟩ := ipcExec_returned hresume
      obtain ⟨f, hf, hanswer⟩ := IpcState.exec_resume_answer hexec'
      have hf' : (s₁.ipc.thread cur).frame = some f := hsame.symm.trans hf
      cases IpcState.exec_leaves hop hframe hexec with
      | returned hnone =>
          -- then there would be nothing to go on with
          rw [show (s.ipcView cur).current = cur from rfl, hf'] at hnone
          cases hnone
      | @blocked _ g hg hcopies =>
          rw [show (s.ipcView cur).current = cur from rfl, hf'] at hg
          obtain rfl := Option.some.inj hg
          rw [hanswer, hcopies]

/-- System call 2 is `SYS_IPC`. -/
theorem doSyscall_ipc {regs : UserRegs} (hnum : regs.rax = 2) : s.doSyscall env cur regs.call =
    s.sysIpc cur regs.rdi regs.rsi regs.rdx regs.r10 regs.r8 regs.r9 := by
  have hnat : regs.call.num.toNat = 2 := by
    rw [UserRegs.call, hnum]
    rfl
  rw [doSyscall, hnat]
  rfl

/-- A call that receives goes to an operation that copies a message. -/
theorem Receives.isSome_copied {regs : UserRegs} {value : BitVec 64} {copied : Option Words}
    (hreceives : s.Receives regs.rdi) (hmode : s.UserMode cur) (hnum : regs.rax = 2)
    (h : Returns env s cur regs.call value copied) : copied.isSome = true := by
  have hcall : s.doSyscall env cur regs.call =
      s.sysIpc cur regs.rdi regs.rsi regs.rdx regs.r10 regs.r8 regs.r9 := s.doSyscall_ipc hnum
  unfold sysIpc at hcall
  rcases hreceives with hop | hop | ⟨hop, hfound⟩ <;> simp only [hop] at hcall
  · exact h.isSome_copied hmode (by simp) hcall
  · exact h.isSome_copied hmode (by simp) hcall
  · simp only [hfound] at hcall
    exact h.isSome_copied hmode (by simp) hcall

omit [PageAllocator σ] in
/-- A call that receives copies the words of the message out. -/
theorem extraOut_of_receives {packed : BitVec 64} (h : s.Receives packed) (l : Locals) (w : Words) :
    s.extraOut packed l (some w) = w := by
  unfold extraOut
  rcases h with hop | hop | ⟨hop, hfound⟩ <;> simp [hop]
  simp [hfound]

omit [PageAllocator σ] in
/-- A call that receives nothing leaves the locals as they are. -/
theorem extraOut_of_not_receives {packed : BitVec 64} (h : ¬ s.Receives packed) (l : Locals)
    (copied : Option Words) : s.extraOut packed l copied = l.extra := by
  simp only [Receives, not_or, not_and] at h
  obtain ⟨hrecv, hreply, hcall⟩ := h
  unfold extraOut
  simp only [hrecv, hreply, if_false]
  split
  · rfl
  · split
    next hop => simp [hcall hop]
    next => rfl

/-- The registers that `syscall_dispatch` sets after `SYS_IPC` do not depend on what was in `ret`
and `out` before, if and only if the call receives a message or makes a call to a thread that there
is. -/
theorem ipc_reply_independent_iff (hmode : s.UserMode cur) {regs : UserRegs} (hnum : regs.rax = 2)
    {value : BitVec 64} {copied : Option Words} (h : Returns env s cur regs.call value copied) :
    (∀ l l', s.syscallDispatch regs l value copied = s.syscallDispatch regs l' value copied) ↔
      s.Receives regs.rdi := by
  constructor
  · intro hsame
    by_contra hnot
    have hwords := hsame ⟨Vector.replicate _ 0, Vector.replicate _ 0⟩
      ⟨Vector.replicate _ 1, Vector.replicate _ 0⟩
    simp only [syscallDispatch, hnum, if_true, extraOut_of_not_receives hnot] at hwords
    have hrdi : (0 : BitVec 64) = 1 := congrArg UserRegs.rdi hwords
    exact absurd hrdi (by decide)
  · intro hreceives l l'
    obtain ⟨w, rfl⟩ := Option.isSome_iff_exists.mp (hreceives.isSome_copied hmode hnum h)
    simp only [syscallDispatch, extraOut_of_receives hreceives]

/-- The registers of a `SYS_IPC` with an empty message. -/
def ipcRegs (packed : BitVec 64) : UserRegs where
  rax := 2
  rdi := packed
  rsi := 0
  rdx := 0
  r10 := 0
  r8 := 0
  r9 := 0

/-- `IPC_RECV` blocks and goes on when its thread runs again. -/
theorem ipc_reply_independent_iff_recv : ∃ value copied,
    Returns noMemory twoThreads 2 (ipcRegs 0x100000000#64).call value copied ∧
      ∀ l l', twoThreads.syscallDispatch (ipcRegs 0x100000000#64) l value copied =
        twoThreads.syscallDispatch (ipcRegs 0x100000000#64) l' value copied := by
  have hcheck : ((twoThreads.doSyscall noMemory 2 (ipcRegs 0x100000000#64).call).val.any fun e =>
      e.switched?.any fun s₁ => (resume { s₁ with sched := twoThreads.sched } 2).val.any fun e' =>
        e'.returned?.isSome) = true := by
    decide +kernel
  obtain ⟨e, hcall, hcheck⟩ := (Option.any_eq_true _ _).mp hcheck
  obtain ⟨s₁, hs₁, hcheck⟩ := (Option.any_eq_true _ _).mp hcheck
  obtain ⟨e', hresume, hcheck⟩ := (Option.any_eq_true _ _).mp hcheck
  -- the caller blocks, and its call returns when it is switched to again
  cases e with
  | switched s₂ =>
      obtain rfl := Option.some.inj hs₁
      cases e' with
      | returned value copied s' =>
          have hreturns : Returns noMemory twoThreads 2
            (ipcRegs 0x100000000#64).call value copied :=
            @Returns.later _ _ _ _ _ _ _ _ s₂ { s₂ with sched := twoThreads.sched } s' hcall rfl rfl
              hresume
          exact ⟨value, copied, hreturns,
            (ipc_reply_independent_iff ⟨rfl, rfl⟩ rfl hreturns).mpr (Or.inl (by decide))⟩
      | switched _ | halted => cases hcheck
  | returned _ _ _ | halted => cases hs₁

/-- `IPC_SEND` to a thread that does not exist brings back what is on the stack. -/
theorem sysIpc_send_reveals : ∃ s', twoThreads.UserMode 2 ∧
    (twoThreads.doSyscall noMemory 2 (ipcRegs 9#64).call).val = some (.returned (-1) none s') ∧
      (twoThreads.syscallDispatch (ipcRegs 9#64) ⟨Vector.replicate _ 0, Vector.replicate _ 0⟩ (-1)
        none).rdi = 0 ∧
      (twoThreads.syscallDispatch (ipcRegs 9#64) ⟨Vector.replicate _ 0xFFFF800000123456#64,
        Vector.replicate _ 0⟩ (-1) none).rdi = 0xFFFF800000123456#64 :=
  ⟨twoThreads, ⟨rfl, rfl⟩, rfl, by decide +kernel, by decide +kernel⟩

end System

end Koharu
