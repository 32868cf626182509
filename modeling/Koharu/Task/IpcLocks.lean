import Koharu.Lib.Machine
import Koharu.Task.Ipc

/-!
# The locks of message passing

The functions of `kernel/task/ipc.c` once more, now instruction by instruction, so that the threads
of several CPUs interleave. `Prog` is what a thread still has to execute, and the functions build
such programs in the order of their statements, with the accesses to a wait queue and the copy of a
message as one instruction each. The memory is that of `IpcState`; a spinlock is the thread that
holds it.

Any thread that is not blocked may execute its next instruction, on whichever CPU it is.

`Locked.Guarded` is the comment at the head of `ipc.c`: what `ipc_ep.lock` protects is written under
this lock, a thread holds one lock at most, and none when it blocks. `guarded_of_run` says when it
is true. In `ipc_send` and `ipc_call`, a thread that has to queue up stores the message to its own
`ipc_msg` while it holds the lock of the other thread.
-/

namespace Koharu

/-- The stores. -/
inductive IpcStore
  /-- `t->ipc_ep.state = v`. -/
  | epState (t : Tid) (v : EpState)
  /-- `list_add_tail(node, &t->ipc_ep.ipc_waitqueue)`. -/
  | addTail (node : Node) (t : Tid)
  /-- `memcpy(t->ipc_msg, words, ..)`. -/
  | msg (t : Tid) (words : Words)
  /-- `t->ipc_sender = tid`. -/
  | sender (t tid : Tid)
  /-- `t->ipc_prev_seq = seq`. -/
  | prevSeq (t : Tid) (seq : BitVec 64)
  /-- `t->ipc_call_seq = seq`. -/
  | callSeq (t : Tid) (seq : BitVec 64)
  /-- `sched_wakeup(t)`. -/
  | wakeup (t : Tid)

/-- The thread whose `ipc_ep`, `ipc_msg` or `ipc_sender` is written. -/
def IpcStore.owner : IpcStore → Option Tid
  | .epState t _ | .addTail _ t | .msg t _ | .sender t _ => some t
  | .prevSeq _ _ | .callSeq _ _ | .wakeup _ => none

/-- The effect on the memory. -/
def IpcStore.apply (s : IpcState) : IpcStore → Option IpcState
  | .epState t v => some (s.modify t fun th => { th with epState := v })
  | .addTail node t => (s.queues.pushBack node t).map fun queues => { s with queues }
  | .msg t words => some (s.modify t fun th => { th with ipcMsg := words })
  | .sender t tid => some (s.modify t fun th => { th with ipcSender := tid })
  | .prevSeq t seq => some (s.modify t fun th => { th with ipcPrevSeq := seq })
  | .callSeq t seq => some (s.modify t fun th => { th with ipcCallSeq := seq })
  | .wakeup t => some (s.schedWakeup t)

/-- What a thread still has to execute in the kernel. -/
inductive Prog
  /-- `spin_lock(&t->ipc_ep.lock)`. -/
  | lock (t : Tid) (k : Prog)
  /-- `spin_unlock(&t->ipc_ep.lock)`. -/
  | unlock (t : Tid) (k : Prog)
  /-- Go on as the memory says. -/
  | load (k : IpcState → Prog)
  /-- The test of `ipc_send` and `ipc_call`, whether `target->ipc_ep.state` is
  `IPC_EP_WAIT_RECV`. -/
  | waits (target : Tid) (k : Bool → Prog)
  | store (w : IpcStore) (k : Prog)
  /-- Take the first node off the wait queue of `t`. -/
  | pop (t : Tid) (k : Node → Prog)
  /-- `sched_block()`. -/
  | block (k : Prog)
  /-- Back in user mode, with a sender and a message for the functions that return them. -/
  | done (result : Option (Tid × Words))
  /-- `container_of` on a node of the other kind. -/
  | undefined

namespace Prog

/-- `if (c) store`. -/
def storeIf (c : Prop) [Decidable c] (w : IpcStore) (k : Prog) : Prog := if c then .store w k else k

/-- `recv->ipc_prev_seq = prev_seq`, in `ipc_deliver_msg` only. -/
def storeSeq (recv : Tid) (prevSeq : Option (BitVec 64)) (k : Prog) : Prog :=
  match prevSeq with
  | some seq => .store (.prevSeq recv seq) k
  | none => k

/-- The common body of `ipc_deliver_msg` and `ipc_deliver_reply`. -/
def deliver (recv senderTid : Tid) (words : Words) (prevSeq : Option (BitVec 64)) (k : Prog) :
    Prog :=
  .pop recv fun _ =>
  .store (.msg recv words) <|
  .store (.sender recv senderTid) <|
  storeSeq recv prevSeq <|
  .load fun s => storeIf (s.queues.queue recv = []) (.epState recv .inactive) <|
  .load fun s => storeIf ((s.thread recv).state = .blocked) (.wakeup recv) k

/-- `ipc_deliver_msg`. -/
def ipcDeliverMsg (recv senderTid : Tid) (words : Words) (prevSeq : BitVec 64) (k : Prog) : Prog :=
  deliver recv senderTid words (some prevSeq) k

/-- `ipc_deliver_reply`. -/
def ipcDeliverReply (recv senderTid : Tid) (words : Words) (k : Prog) : Prog :=
  deliver recv senderTid words none k

/-- `ipc_accept`. -/
def ipcAccept (recv : Tid) (k : Tid → Words → Prog) : Prog :=
  .pop recv fun
    | .ipcList snd =>
        .load fun s => .store (.msg recv (s.thread snd).ipcMsg) <|
        .store (.sender recv snd) <|
        .load fun s => .store (.prevSeq recv
          (if (s.thread snd).epState = .waitRecv then (s.thread snd).ipcCallSeq else 0)) <|
        .load fun s => storeIf (s.queues.queue recv = []) (.epState recv .inactive) <|
        .load fun s => storeIf ((s.thread snd).epState ≠ .waitRecv ∧
          (s.thread snd).state = .blocked)
          (.wakeup snd) <|
        .load fun s => k snd (s.thread recv).ipcMsg
    | .ipcWaitList _ => .undefined

/-- The message of `ipc_send` and `ipc_call` is stored, and the thread queues up. -/
def queueUp (cur target : Tid) (words : Words) (k : Prog) : Prog :=
  .store (.msg cur words) <|
  .store (.epState target .waitSend) <|
  .store (.addTail (.ipcList cur) target) k

/-- `ipc_send`. -/
def ipcSend (cur target : Tid) (words : Words) : Prog :=
  .lock target <|
  .waits target fun
    | true => ipcDeliverMsg target cur words 0 <| .unlock target <| .done none
    | false => queueUp cur target words <| .unlock target <| .block <| .done none

/-- The end of `ipc_recv` and `ipc_reply_recv`: accept a pending message, or wait for one. -/
def waitRequest (cur : Tid) : Prog :=
  .lock cur <|
  .load fun s =>
    if (s.thread cur).epState = .waitSend then
      ipcAccept cur fun sender words => .unlock cur <| .done (some (sender, words))
    else
      .store (.epState cur .waitRecv) <|
      .store (.addTail (.ipcList cur) cur) <|
      .unlock cur <|
      .block <|
      .lock cur <|
      .load fun s => .unlock cur <| .done (some ((s.thread cur).ipcSender, (s.thread cur).ipcMsg))

/-- `ipc_recv`. -/
def ipcRecv (cur : Tid) : Prog := waitRequest cur

/-- The end of `ipc_call`, from the release of the target's lock on. -/
def callReturn (cur target savedSender : Tid) : Prog :=
  .unlock target <|
  .block <|
  .lock cur <|
  .load fun s => .store (.sender cur savedSender) <|
  .unlock cur <| .done (some ((s.thread cur).ipcSender, (s.thread cur).ipcMsg))

/-- `ipc_call`. -/
def ipcCall (cur target : Tid) (words : Words) : Prog :=
  .load fun s => .store (.callSeq cur ((s.thread cur).ipcCallSeq + 1)) <|
  .load fun s => let seq := (s.thread cur).ipcCallSeq
  .lock cur <|
  .load fun s => let savedSender := (s.thread cur).ipcSender
  .store (.epState cur .waitRecv) <|
  .store (.addTail (.ipcWaitList cur) cur) <|
  .unlock cur <|
  .lock target <|
  .waits target fun
    | true => ipcDeliverMsg target cur words seq <| callReturn cur target savedSender
    | false => queueUp cur target words <| callReturn cur target savedSender

/-- The reply of `ipc_reply_recv`, to the thread that the last message came from. -/
def reply (cur caller : Tid) (words : Words) (k : Prog) : Prog :=
  .load fun s =>
    if (s.thread cur).ipcPrevSeq ≠ 0 ∧ s.registered caller ∧ caller ≠ cur ∧
        (s.thread caller).ipcCallSeq = (s.thread cur).ipcPrevSeq then
      .lock caller <|
      .load fun s =>
        if (s.thread caller).epState = .waitRecv ∧ s.queues.queue caller ≠ [] then
          ipcDeliverReply caller cur words <| .unlock caller k
        else .unlock caller k
    else k

/-- `ipc_reply_recv`. -/
def ipcReplyRecv (cur : Tid) (words : Words) : Prog :=
  .lock cur <|
  .load fun s => .unlock cur <| reply cur (s.thread cur).ipcSender words <| waitRequest cur

/-- The program of an operation. -/
def ofOp (cur : Tid) : IpcState.Op → Option Prog
  | .send target words => some (ipcSend cur target words)
  | .recv => some (ipcRecv cur)
  | .call target words => some (ipcCall cur target words)
  | .replyRecv words => some (ipcReplyRecv cur words)
  | .resume => none

/-- The thread whose `ipc_ep`, `ipc_msg` or `ipc_sender` the next instruction writes. -/
def writes : Prog → Option Tid
  | .store w _ => w.owner
  | .pop t _ => some t
  | _ => none

/-- The thread that the next instruction hands a message over to. -/
def handsOver : Prog → Option Tid
  | .waits target _ => some target
  | _ => none

/-- The next instruction is `sched_block`. -/
def blocks : Prog → Bool
  | .block _ => true
  | _ => false

/-! ### Programs with their locks in order

A program is checked instruction by instruction, together with the lock that is held: each store has
to be made under the lock of its owner, and each lock is given back. -/

/-- The program of `t`, which holds the lock `held`, has its locks in order, unless `t` queues up at
another thread. -/
def Brackets (t : Tid) : Option Tid → Prog → Prop
  | held, .lock u k => held = none ∧ Brackets t (some u) k
  | held, .unlock u k => held = some u ∧ Brackets t none k
  | held, .load k => ∀ s, Brackets t held (k s)
  | held, .waits u k => held = some u ∧ Brackets t held (k true) ∧
      (u = t → Brackets t held (k false)) ∧ (k false).writes = some t
  | held, .store w k => (∀ u, w.owner = some u → held = some u) ∧ Brackets t held k
  | held, .pop u k => held = some u ∧ ∀ node, Brackets t held (k node)
  | held, .block k => held = none ∧ Brackets t none k
  | held, .done _ => held = none
  | _, .undefined => True

variable {t recv : Tid} {k : Prog}

/-- A store on one branch is bracketed when the lock of its owner is held. -/
theorem brackets_storeIf {held : Option Tid} {c : Prop} [Decidable c] {w : IpcStore}
    (hw : ∀ u, w.owner = some u → held = some u) (hk : k.Brackets t held) :
    (storeIf c w k).Brackets t held := by
  rw [storeIf]
  split
  · exact ⟨hw, hk⟩
  · exact hk

/-- A store to what the lock of `recv` protects. -/
theorem held_of_owner {w : IpcStore} (hw : w.owner = some recv) (u : Tid) (hu : w.owner = some u) :
    some recv = some u := hw.symm.trans hu

/-- A store that needs no lock. -/
theorem held_of_none {held : Option Tid} {w : IpcStore} (hw : w.owner = none) (u : Tid)
    (hu : w.owner = some u) : held = some u := by
  rw [hw] at hu
  cases hu

/-- Delivery writes to the receiver under the receiver's lock. -/
theorem brackets_deliver {senderTid : Tid} {words : Words} {prevSeq : Option (BitVec 64)}
    (hk : k.Brackets t (some recv)) :
    (deliver recv senderTid words prevSeq k).Brackets t (some recv) := by
  have hrest : (Prog.load fun s => storeIf (s.queues.queue recv = []) (.epState recv .inactive) <|
      .load fun s => storeIf ((s.thread recv).state = .blocked) (.wakeup recv) k).Brackets t
        (some recv) := by
    intro s
    apply brackets_storeIf (held_of_owner rfl)
    intro s'
    exact brackets_storeIf (held_of_none rfl) hk
  refine ⟨rfl, fun _ => ⟨held_of_owner rfl, held_of_owner rfl, ?_⟩⟩
  cases prevSeq with
  | none => exact hrest
  | some seq => exact ⟨held_of_none rfl, hrest⟩

/-- Taking a sender off the queue works under the lock of the queue. -/
theorem brackets_ipcAccept {k : Tid → Words → Prog}
    (hk : ∀ snd words, (k snd words).Brackets t (some recv)) :
    (ipcAccept recv k).Brackets t (some recv) := by
  refine ⟨rfl, fun node => ?_⟩
  cases node with
  | ipcList snd =>
      intro s₁
      refine ⟨held_of_owner rfl, held_of_owner rfl, fun s₂ => ⟨held_of_none rfl, fun s₃ => ?_⟩⟩
      apply brackets_storeIf (held_of_owner rfl)
      intro s₄
      apply brackets_storeIf (held_of_none rfl)
      intro s₅
      exact hk snd _
  | ipcWaitList _ => trivial

/-- A thread may queue up at itself. -/
theorem brackets_queueUp {words : Words} (hk : k.Brackets t (some t)) :
    (queueUp t t words k).Brackets t (some t) :=
  ⟨held_of_owner rfl, held_of_owner rfl, held_of_owner rfl, hk⟩

/-- `ipc_send` takes and releases the target's lock. -/
theorem brackets_ipcSend (t target : Tid) (words : Words) :
    (ipcSend t target words).Brackets t none := by
  refine ⟨rfl, rfl, brackets_deliver ⟨rfl, rfl⟩, ?_, rfl⟩
  rintro rfl
  exact brackets_queueUp ⟨rfl, rfl, rfl⟩

/-- Waiting for a request takes and releases the thread's own lock. -/
theorem brackets_waitRequest (t : Tid) : (waitRequest t).Brackets t none := by
  refine ⟨rfl, fun s => ?_⟩
  dsimp only
  split
  · exact brackets_ipcAccept fun _ _ => ⟨rfl, rfl⟩
  · exact ⟨held_of_owner rfl, held_of_owner rfl, rfl, rfl, rfl, fun _ => ⟨rfl, rfl⟩⟩

/-- The end of `ipc_call` releases the target's lock and takes its own again. -/
theorem brackets_callReturn (t target savedSender : Tid) :
    (callReturn t target savedSender).Brackets t (some target) :=
  ⟨rfl, rfl, rfl, fun _ => ⟨held_of_owner rfl, rfl, rfl⟩⟩

/-- `ipc_call` begins and ends without a lock. -/
theorem brackets_ipcCall (t target : Tid) (words : Words) :
    (ipcCall t target words).Brackets t none := by
  refine fun s₁ => ⟨held_of_none rfl, fun s₂ => ⟨rfl, fun s₃ => ?_⟩⟩
  refine ⟨held_of_owner rfl, held_of_owner rfl, rfl, rfl, rfl, ?_, ?_, rfl⟩
  · exact brackets_deliver (brackets_callReturn t target _)
  · rintro rfl
    exact brackets_queueUp (brackets_callReturn target target _)

/-- The reply is written under the caller's lock. -/
theorem brackets_reply {caller : Tid} {words : Words} (hk : k.Brackets t none) :
    (reply t caller words k).Brackets t none := by
  intro s
  dsimp only
  split
  · refine ⟨rfl, fun s' => ?_⟩
    dsimp only
    split
    · exact brackets_deliver ⟨rfl, hk⟩
    · exact ⟨rfl, hk⟩
  · exact hk

/-- `ipc_reply_recv` begins and ends without a lock. -/
theorem brackets_ipcReplyRecv (t : Tid) (words : Words) :
    (ipcReplyRecv t words).Brackets t none :=
  ⟨rfl, fun _ => ⟨rfl, brackets_reply (brackets_waitRequest t)⟩⟩

/-- The programs of all operations. -/
theorem brackets_ofOp {op : IpcState.Op} (hop : ofOp t op = some k) : k.Brackets t none := by
  cases op with
  | send target words =>
      obtain rfl := Option.some.inj hop
      exact brackets_ipcSend t target words
  | recv =>
      obtain rfl := Option.some.inj hop
      exact brackets_waitRequest t
  | call target words =>
      obtain rfl := Option.some.inj hop
      exact brackets_ipcCall t target words
  | replyRecv words =>
      obtain rfl := Option.some.inj hop
      exact brackets_ipcReplyRecv t words
  | resume => cases hop

end Prog

/-- The threads with their programs, and the locks. -/
structure Locked where
  mem : IpcState
  /-- The thread that holds the lock of an endpoint. -/
  owner : Tid → Option Tid
  prog : Tid → Prog

/-- What may happen next. -/
inductive LockedAct
  /-- `t` enters the kernel. -/
  | start (t : Tid) (op : IpcState.Op)
  /-- `t` executes one instruction. -/
  | run (t : Tid)

namespace Locked

/-- `t` goes on with `k`. -/
def goOn (s : Locked) (t : Tid) (k : Prog) : Locked := { s with prog := Function.update s.prog t k }

/-- One instruction of `t`. A lock that is held cannot be taken. -/
def instr (s : Locked) (t : Tid) : Option Locked :=
  match s.prog t with
  | .lock u k =>
      -- a lock that is taken makes the thread spin: no step until it is free
      if s.owner u = none then
        some { s.goOn t k with owner := Function.update s.owner u (some t) }
      else none
  | .unlock u k => some { s.goOn t k with owner := Function.update s.owner u none }
  | .load k => some (s.goOn t (k s.mem))
  | .waits u k => some (s.goOn t (k (decide ((s.mem.thread u).epState = .waitRecv))))
  | .store w k => (w.apply s.mem).map fun mem => { s.goOn t k with mem }
  | .pop u k => do
      let node ← (s.mem.queues.queue u).head?
      let queues ← s.mem.queues.unlink node
      return { s.goOn t (k node) with mem := { s.mem with queues } }
  | .block k =>
      some { s.goOn t k with mem := s.mem.modify t fun th => { th with state := .blocked } }
  | .done _ | .undefined => none

/-- One step: a thread in user mode enters the kernel, or one in the kernel that is not blocked
executes an instruction. -/
def step (s : Locked) : LockedAct → Option Locked
  | .start t op =>
      match s.prog t with
      | .done _ => (Prog.ofOp t op).map (s.goOn t)
      | _ => none
  | .run t => if (s.mem.thread t).state = .blocked then none else s.instr t

/-- All threads are in user mode, and no lock is held. -/
structure Idle (s : Locked) : Prop where
  owner_eq : ∀ u, s.owner u = none
  prog_eq : ∀ t, ∃ r, s.prog t = .done r

/-- The comment at the head of `ipc.c`. -/
structure Guarded (s : Locked) : Prop where
  /-- What the lock of `u` protects is written by the thread that holds it. -/
  write_held : ∀ t u, (s.prog t).writes = some u → s.owner u = some t
  one_lock : ∀ t u u', s.owner u = some t → s.owner u' = some t → u = u'
  block_free : ∀ t u, (s.prog t).blocks = true → s.owner u ≠ some t

/-- A message is handed over to a thread that waits, or to the sender itself. -/
def StepOk (s : Locked) : LockedAct → Prop
  | .start _ _ => True
  | .run t => ∀ u ∈ (s.prog t).handsOver, u = t ∨ (s.mem.thread u).epState = .waitRecv

instance (s : Locked) : (a : LockedAct) → Decidable (s.StepOk a)
  | .start _ _ => inferInstanceAs (Decidable True)
  | .run t => inferInstanceAs (Decidable
      (∀ u ∈ (s.prog t).handsOver, u = t ∨ (s.mem.thread u).epState = .waitRecv))

/-! ### Runs

The invariant says that a lock has one holder and that the rest of every program is in order. It is
kept by each instruction of any thread. -/

/-- The invariant: `held t` is the lock that `t` holds, and the programs have their locks in
order. -/
structure Inv (s : Locked) (held : Tid → Option Tid) : Prop where
  owner_iff : ∀ t u, s.owner u = some t ↔ held t = some u
  brackets : ∀ t, (s.prog t).Brackets t (held t)

variable {s s' : Locked} {held : Tid → Option Tid} {t : Tid} {k : Prog}

/-- The invariant says that each store is made under its lock. -/
theorem Inv.guarded (h : s.Inv held) : s.Guarded where
  write_held t u hu := by
    rw [h.owner_iff]
    have hb := h.brackets t
    -- only stores and removals from a list write
    cases hp : s.prog t with
    | store w k =>
        rw [hp] at hu hb
        exact hb.1 u hu
    | pop u' k =>
        rw [hp] at hu hb
        rw [← Option.some.inj hu]
        exact hb.1
    | _ =>
        rw [hp] at hu
        cases hu
  one_lock t u u' hu hu' := by
    rw [h.owner_iff] at hu hu'
    exact Option.some.inj (hu.symm.trans hu')
  block_free t u hblock := by
    rw [Ne, h.owner_iff]
    have hb := h.brackets t
    cases hp : s.prog t with
    | block k =>
        rw [hp] at hb
        rw [hb.1]
        simp
    | _ =>
        rw [hp] at hblock
        cases hblock

/-- A step that takes no lock and releases none. -/
theorem Inv.goOn (h : s.Inv held) (hk : k.Brackets t (held t)) (howner : s'.owner = s.owner)
    (hprog : s'.prog = Function.update s.prog t k) : s'.Inv held where
  owner_iff := by
    rw [howner]
    exact h.owner_iff
  brackets u := by
    rw [hprog]
    by_cases hu : u = t
    · subst hu
      rwa [Function.update_self]
    · rw [Function.update_of_ne hu]
      exact h.brackets u

/-- Taking a free lock keeps it. -/
theorem Inv.lock (h : s.Inv held) {u : Tid} (hfree : s.owner u = none) (hnone : held t = none)
    (hk : k.Brackets t (some u)) :
    ({ s.goOn t k with owner := Function.update s.owner u (some t) } : Locked).Inv
      (Function.update held t (some u)) where
  owner_iff t' u' := by
    have hold := h.owner_iff t' u'
    -- the lock taken and the others, for the thread that takes it and the others
    by_cases hu : u' = u <;> by_cases ht : t' = t
    · subst hu ht
      simp
    · subst hu
      rw [hfree] at hold
      simp [Function.update_of_ne ht, ← hold, Ne.symm ht]
    · subst ht
      rw [hnone] at hold
      simp [Function.update_of_ne hu, hold, Ne.symm hu]
    · simp [Function.update_of_ne hu, Function.update_of_ne ht, hold]
  brackets t' := by
    by_cases ht : t' = t
    · subst ht
      simpa [Locked.goOn] using hk
    · simpa [Locked.goOn, ht] using h.brackets t'

/-- Releasing a lock that is held keeps it. -/
theorem Inv.unlock (h : s.Inv held) {u : Tid} (hheld : held t = some u) (hk : k.Brackets t none) :
    ({ s.goOn t k with owner := Function.update s.owner u none } : Locked).Inv
      (Function.update held t none) where
  owner_iff t' u' := by
    have hold := h.owner_iff t' u'
    have howner := (h.owner_iff t u).mpr hheld
    -- the lock given back and the others, for the thread that gives it back and the others
    by_cases hu : u' = u <;> by_cases ht : t' = t
    · subst hu ht
      simp
    · subst hu
      rw [howner] at hold
      simp [Function.update_of_ne ht, ← hold, Ne.symm ht]
    · subst ht
      rw [hheld] at hold
      simp [Function.update_of_ne hu, hold, Ne.symm hu]
    · simp [Function.update_of_ne hu, Function.update_of_ne ht, hold]
  brackets t' := by
    by_cases ht : t' = t
    · subst ht
      simpa [Locked.goOn] using hk
    · simpa [Locked.goOn, ht] using h.brackets t'

/-- The test of `ipc_send` and `ipc_call`. -/
theorem Inv.waits (h : s.Inv held) {u : Tid} {k : Bool → Prog} (hp : s.prog t = .waits u k)
    (hinstr : s.instr t = some s') :
    s.StepOk (.run t) ∧ s'.Inv held ∨ ¬ s.StepOk (.run t) ∧ ¬ s'.Guarded := by
  have hb := h.brackets t
  rw [hp] at hb
  obtain ⟨hheld, htrue, hfalse, hwrites⟩ := hb
  rw [instr, hp] at hinstr
  obtain rfl := Option.some.inj hinstr
  have hok : s.StepOk (.run t) ↔ u = t ∨ (s.mem.thread u).epState = .waitRecv := by
    simp [StepOk, hp, Prog.handsOver]
  rw [hok]
  by_cases hwait : (s.mem.thread u).epState = .waitRecv
  · rw [decide_eq_true hwait]
    exact Or.inl ⟨Or.inr hwait, h.goOn htrue rfl rfl⟩
  · rw [decide_eq_false hwait]
    by_cases hu : u = t
    · exact Or.inl ⟨Or.inl hu, h.goOn (hfalse hu) rfl rfl⟩
    · refine Or.inr ⟨by simp [hu, hwait], fun hguarded => hu ?_⟩
      -- the next instruction writes `ipc_msg` of `t`, which holds the lock of `u`
      have hown := hguarded.write_held t t (by simpa [Locked.goOn] using hwrites)
      exact hguarded.one_lock t u t ((h.owner_iff t u).mpr hheld) hown

/-- One instruction keeps the invariant, unless the thread is about to queue up at another one; then
what it does next is not guarded. -/
theorem Inv.instr (h : s.Inv held) (hinstr : s.instr t = some s') :
    (s.StepOk (.run t) ∧ ∃ held', s'.Inv held') ∨ ¬ s.StepOk (.run t) ∧ ¬ s'.Guarded := by
  have hb := h.brackets t
  -- the condition is about one kind of instruction only, the others always meet it
  have hok : (s.prog t).handsOver = none → s.StepOk (.run t) := by
    intro hnone
    simp [StepOk, hnone]
  cases hp : s.prog t with
  | waits u k =>
      rcases h.waits hp hinstr with ⟨hok, hinv⟩ | hbad
      · exact Or.inl ⟨hok, held, hinv⟩
      · exact Or.inr hbad
  | lock u k =>
      rw [hp] at hb hok
      rw [Locked.instr, hp] at hinstr
      dsimp only at hinstr
      split at hinstr
      next hfree =>
        obtain rfl := Option.some.inj hinstr
        exact Or.inl ⟨hok rfl, _, h.lock hfree hb.1 hb.2⟩
      next => cases hinstr
  | unlock u k =>
      rw [hp] at hb hok
      rw [Locked.instr, hp] at hinstr
      obtain rfl := Option.some.inj hinstr
      exact Or.inl ⟨hok rfl, _, h.unlock hb.1 hb.2⟩
  | load k =>
      rw [hp] at hb hok
      rw [Locked.instr, hp] at hinstr
      obtain rfl := Option.some.inj hinstr
      exact Or.inl ⟨hok rfl, held, h.goOn (hb s.mem) rfl rfl⟩
  | store w k =>
      rw [hp] at hb hok
      rw [Locked.instr, hp] at hinstr
      obtain ⟨mem, -, rfl⟩ := Option.map_eq_some_iff.mp hinstr
      exact Or.inl ⟨hok rfl, held, h.goOn hb.2 rfl rfl⟩
  | pop u k =>
      rw [hp] at hb hok
      rw [Locked.instr, hp] at hinstr
      obtain ⟨node, -, hinstr⟩ := Option.bind_eq_some_iff.mp hinstr
      obtain ⟨queues, -, hinstr⟩ := Option.bind_eq_some_iff.mp hinstr
      obtain rfl := Option.some.inj hinstr
      exact Or.inl ⟨hok rfl, held, h.goOn (hb.2 node) rfl rfl⟩
  | block k =>
      rw [hp] at hb hok
      rw [Locked.instr, hp] at hinstr
      obtain rfl := Option.some.inj hinstr
      exact Or.inl ⟨hok rfl, held, h.goOn (hb.1 ▸ hb.2) rfl rfl⟩
  | done r =>
      rw [Locked.instr, hp] at hinstr
      cases hinstr
  | undefined =>
      rw [Locked.instr, hp] at hinstr
      cases hinstr

/-- One step. -/
theorem Inv.step (h : s.Inv held) {a : LockedAct} (hstep : s.step a = some s') :
    (s.StepOk a ∧ ∃ held', s'.Inv held') ∨ ¬ s.StepOk a ∧ ¬ s'.Guarded := by
  cases a with
  | start t op =>
      rw [Locked.step] at hstep
      split at hstep
      next r hp =>
        obtain ⟨k, hop, rfl⟩ := Option.map_eq_some_iff.mp hstep
        have hb := h.brackets t
        rw [hp] at hb
        -- an operation starts with no lock held, and its program takes and gives them back in turn
        have hnone : held t = none := hb
        exact Or.inl ⟨trivial, held, h.goOn (hnone ▸ Prog.brackets_ofOp hop) rfl rfl⟩
      next => cases hstep
  | run t =>
      rw [Locked.step] at hstep
      split at hstep
      next => cases hstep
      next => exact h.instr hstep

/-- The invariant holds while no program runs. -/
theorem Idle.inv (h : s.Idle) : s.Inv fun _ => none where
  owner_iff t u := by simp [h.owner_eq]
  brackets t := by
    obtain ⟨r, hr⟩ := h.prog_eq t
    rw [hr]
    rfl

/-- In every run in which messages are handed over only to threads that wait, or to the sender
itself, the locks are used as the comment says; and the first message for which a thread has to
queue up at another one breaks it. -/
theorem guarded_of_run {s₀ : Locked} (hidle : s₀.Idle) (hrun : Machine.Run step StepOk s₀ s) :
    s.Guarded ∧ ∀ a s', s.step a = some s' → (s'.Guarded ↔ s.StepOk a) := by
  obtain ⟨held, h⟩ : ∃ held, s.Inv held := by
    refine hrun.invariant (I := fun s => ∃ held, s.Inv held) ⟨_, hidle.inv⟩
      fun s s' a hinv hok hstep => ?_
    obtain ⟨held, h⟩ := hinv
    rcases h.step hstep with ⟨-, hnext⟩ | ⟨hnot, -⟩
    · exact hnext
    · exact absurd hok hnot
  refine ⟨h.guarded, fun a s' hstep => ?_⟩
  rcases h.step hstep with ⟨hok, held', hnext⟩ | ⟨hnot, hbad⟩
  · exact iff_of_true hnext.guarded hok
  · exact iff_of_false hbad hnot

/-- All threads of `IpcState.boot` are in user mode. -/
def boot : Locked where
  mem := IpcState.boot
  owner _ := none
  prog _ := .done none

/-- At boot no program runs. -/
theorem boot_idle : boot.Idle where
  owner_eq _ := rfl
  prog_eq _ := ⟨none, rfl⟩

/-- Thread 1 waits, and thread 0 sends to it. -/
theorem guarded_of_run_send : ∃ s, Machine.Run step StepOk boot s ∧
    (s.mem.thread 1).ipcMsg = IpcState.word 7 ∧ s.Guarded := by
  obtain ⟨s, hrun, hcheck⟩ := Machine.exists_run_of_execAll step StepOk boot
    ([.start 1 .recv] ++ List.replicate 6 (.run 1) ++ [.start 0 (.send 1 (IpcState.word 7))] ++
      List.replicate 5 (.run 0))
    (fun s => decide ((s.mem.thread 1).ipcMsg = IpcState.word 7)) (by decide +kernel)
  exact ⟨s, hrun, of_decide_eq_true hcheck, (guarded_of_run boot_idle hrun).1⟩

/-- Thread 0 sends to thread 1, which does not wait: it is about to write its own `ipc_msg`, and
holds the lock of thread 1. -/
theorem not_guarded_of_queueUp : ∃ s, Machine.Run step (fun _ _ => True) boot s ∧
    (s.prog 0).writes = some 0 ∧ s.owner 0 = none ∧ s.owner 1 = some 0 ∧ ¬ s.Guarded := by
  obtain ⟨s, hrun, hcheck⟩ := Machine.exists_run_of_execAll step (fun _ _ => True) boot
    [.start 0 (.send 1 (IpcState.word 7)), .run 0, .run 0]
    (fun s => (s.prog 0).writes == some 0 && s.owner 0 == none && s.owner 1 == some 0)
    (by decide +kernel)
  simp only [Bool.and_eq_true, beq_iff_eq] at hcheck
  obtain ⟨⟨hwrites, hfree⟩, hheld⟩ := hcheck
  refine ⟨s, hrun, hwrites, hfree, hheld, fun hguarded => ?_⟩
  have := hguarded.write_held 0 0 hwrites
  rw [hfree] at this
  cases this

end Locked

end Koharu
