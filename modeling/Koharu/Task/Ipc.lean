import Koharu.Lib.ListStore
import Mathlib.Data.BitVec

/-!
# Message passing between threads

`kernel/task/ipc.c` gives every thread an endpoint: a state and a wait queue. A message is handed
to a thread that waits at its own endpoint, and otherwise its sender queues up there and blocks.
`ipc_call` reserves a reply slot at the caller's endpoint before it hands the request over, and
`ipc_reply_recv` answers the thread the last message came from.

An operation runs with interrupts masked up to the `sched_block` in it, and goes on from there
once the thread is scheduled again. `IpcState.exec` is one such stretch of the current thread:
one of the four operations, or `Op.resume`, the rest of an operation the thread had blocked in.
The local variables an operation keeps across `sched_block` are the thread's `Frame`.

The functions are partial. `none` stands for linking a linked node, unlinking an unlinked one or
`container_of` on a node of the other kind.
-/

namespace Koharu

/-- A thread, named by its tid. -/
abbrev Tid := ℕ

/-- `IPC_MSG_WORDS`. -/
def ipcMsgWords : ℕ := 5

/-- The words of a message. -/
abbrev Words := Vector (BitVec 64) ipcMsgWords

/-- `thread_state_t`. -/
inductive ThreadState
  | created
  | ready
  | running
  | blocked
  | terminated
  deriving DecidableEq, Repr

/-- `ipc_endpoint_state_t`. -/
inductive EpState
  | inactive
  | waitSend
  | waitRecv
  deriving DecidableEq, Repr

/-- The two list nodes of a thread that stand on wait queues. -/
inductive Node
  | ipcList (t : Tid)
  | ipcWaitList (t : Tid)
  deriving DecidableEq, Repr

/-- The operation a thread has blocked in, with the local variables it still needs. -/
inductive Frame
  | send (target : Tid)
  | recv
  | call (target : Tid) (seq : BitVec 64) (savedSender : Tid)
  | replyRecv
  deriving DecidableEq, Repr

/-- `struct thread`, as far as message passing uses it. -/
@[ext]
structure Thread where
  state : ThreadState
  /-- `ipc_ep.state`. -/
  epState : EpState
  ipcMsg : Words
  ipcSender : Tid
  ipcPrevSeq : BitVec 64
  ipcCallSeq : BitVec 64
  /-- The operation on the kernel stack of a thread that is not back in user mode. -/
  frame : Option Frame
  deriving DecidableEq

/-- The threads and the wait queues of their endpoints. -/
@[ext]
structure IpcState where
  thread : Tid → Thread
  /-- `ipc_ep.ipc_waitqueue` of every thread. -/
  queues : ListStore Tid Node
  /-- The tids `thread_lookup` finds. -/
  registered : Tid → Bool
  /-- `curcpu->current`. -/
  current : Tid

/-- What an observer of the system calls sees, in the order it happens. -/
inductive Event
  /-- `t` entered `ipc_send`. -/
  | sent (t target : Tid) (words : Words)
  /-- `t` entered `ipc_call`, which took the sequence number `seq`. -/
  | called (t target : Tid) (seq : BitVec 64) (words : Words)
  /-- `ipc_recv` or `ipc_reply_recv` returned to `t`, with `ipc_prev_seq = seq`. -/
  | received (t sender : Tid) (seq : BitVec 64) (words : Words)
  /-- `t` entered `ipc_reply_recv`, which delivered the reply to `dest`. -/
  | replied (t : Tid) (dest : Option Tid) (words : Words)
  /-- `ipc_call` on `target` returned to `t`. -/
  | returned (t target sender : Tid) (words : Words)
  deriving DecidableEq

namespace IpcState

/-- Update one thread. -/
def modify (s : IpcState) (t : Tid) (f : Thread → Thread) : IpcState :=
  { s with thread := Function.update s.thread t (f (s.thread t)) }

/-- The thread that executes, `curcpu->current`. -/
def cur (s : IpcState) : Thread := s.thread s.current

/-- `sched_wakeup`: the thread goes back to a run queue. -/
def schedWakeup (s : IpcState) (t : Tid) : IpcState :=
  s.modify t fun th => { th with state := .ready }

/-- `sched_block`, leaving `frame` on the kernel stack. Which thread runs next is a step of its
own. -/
def schedBlock (s : IpcState) (frame : Frame) : IpcState :=
  s.modify s.current fun th => { th with state := .blocked, frame := some frame }

/-! ### Delivery

A message goes straight to the buffer of a thread that waits for it, together with the sequence
number of the call it belongs to. -/

/-- The common body of `ipc_deliver_msg` and `ipc_deliver_reply`; only the former has a sequence
number to record. -/
def deliver (s : IpcState) (recv senderTid : Tid) (words : Words) (prevSeq : Option (BitVec 64)) :
    Option IpcState := do
  let node ← (s.queues.queue recv).head?
  let queues ← s.queues.unlink node
  let s := { s with queues }.modify recv fun th =>
    { th with
      ipcMsg := words
      ipcSender := senderTid
      ipcPrevSeq := prevSeq.getD th.ipcPrevSeq }
  let s : IpcState := if queues.queue recv = [] then
    s.modify recv fun th => { th with epState := .inactive } else s
  return if (s.thread recv).state = .blocked then s.schedWakeup recv else s

/-- `ipc_deliver_msg`. -/
def ipcDeliverMsg (s : IpcState) (recv senderTid : Tid) (words : Words) (prevSeq : BitVec 64) :
    Option IpcState :=
  s.deliver recv senderTid words (some prevSeq)

/-- `ipc_deliver_reply`. -/
def ipcDeliverReply (s : IpcState) (recv senderTid : Tid) (words : Words) : Option IpcState :=
  s.deliver recv senderTid words none

/-- `ipc_accept`: the sender taken off the queue of `recv`. Its words are in `recv`'s `ipc_msg`
afterwards, from where the caller copies them out. -/
def ipcAccept (s : IpcState) (recv : Tid) : Option (Tid × IpcState) :=
  match s.queues.queue recv with
  | .ipcList snd :: _ => do
      let queues ← s.queues.unlink (.ipcList snd)
      let words := (s.thread snd).ipcMsg
      let seq := if (s.thread snd).epState = .waitRecv then (s.thread snd).ipcCallSeq else 0
      let s := { s with queues }.modify recv fun th =>
        { th with ipcMsg := words, ipcSender := snd, ipcPrevSeq := seq }
      let s : IpcState := if queues.queue recv = [] then
        s.modify recv fun th => { th with epState := .inactive } else s
      -- a caller stays blocked, a plain sender is done
      let s := if (s.thread snd).epState ≠ .waitRecv ∧ (s.thread snd).state = .blocked then
        s.schedWakeup snd else s
      return (snd, s)
  | _ => none

/-! ### The operations

Each operation ends by returning, by blocking, or by going on with what it does when the thread runs
again. -/

/-- Hand a message over to `target`, as `ipc_send` and `ipc_call` do: straight to a thread that
waits, else by queueing up. The flag tells which. -/
def handOver (s : IpcState) (target : Tid) (words : Words) (seq : BitVec 64) :
    Option (IpcState × Bool) :=
  if (s.thread target).epState = .waitRecv then do
    let s ← s.ipcDeliverMsg target s.current words seq
    return (s, true)
  else do
    let s := s.modify s.current fun th => { th with ipcMsg := words }
    let s := s.modify target fun th => { th with epState := .waitSend }
    let queues ← s.queues.pushBack (.ipcList s.current) target
    return ({ s with queues }, false)

/-- `ipc_send`. -/
def ipcSend (s : IpcState) (target : Tid) (words : Words) : Option IpcState := do
  let (s, delivered) ← s.handOver target words 0
  return if delivered then s else s.schedBlock (.send target)

/-- The end of `ipc_recv` and `ipc_reply_recv`: accept a pending message, or wait for one. -/
def waitRequest (s : IpcState) (frame : Frame) : Option (IpcState × List Event) :=
  if s.cur.epState = .waitSend then do
    let (sender, s) ← s.ipcAccept s.current
    return (s, [.received s.current sender s.cur.ipcPrevSeq s.cur.ipcMsg])
  else do
    let s := s.modify s.current fun th => { th with epState := .waitRecv }
    let queues ← s.queues.pushBack (.ipcList s.current) s.current
    return ({ s with queues }.schedBlock frame, [])

/-- `ipc_recv`. -/
def ipcRecv (s : IpcState) : Option (IpcState × List Event) :=
  s.waitRequest .recv

/-- The first part of `ipc_call`: take a sequence number and reserve a reply slot on the caller's
own endpoint. -/
def reserveSlot (s : IpcState) : Option IpcState := do
  let s := s.modify s.current fun th =>
    { th with ipcCallSeq := th.ipcCallSeq + 1, epState := .waitRecv }
  let queues ← s.queues.pushBack (.ipcWaitList s.current) s.current
  return { s with queues }

/-- `ipc_call`. -/
def ipcCall (s : IpcState) (target : Tid) (words : Words) : Option IpcState := do
  let s ← s.reserveSlot
  let seq := s.cur.ipcCallSeq
  let savedSender := s.cur.ipcSender
  let (s, _) ← s.handOver target words seq
  return s.schedBlock (.call target seq savedSender)

/-- The thread `ipc_reply_recv` delivers its reply to, when all its conditions hold. -/
def replyDest (s : IpcState) : Option Tid :=
  let caller := s.cur.ipcSender
  if s.cur.ipcPrevSeq ≠ 0 ∧ s.registered caller ∧ caller ≠ s.current ∧
      (s.thread caller).ipcCallSeq = s.cur.ipcPrevSeq ∧
      (s.thread caller).epState = .waitRecv ∧ s.queues.queue caller ≠ [] then
    some caller
  else none

/-- The first half of `ipc_reply_recv`: reply to the previous caller. -/
def reply (s : IpcState) (words : Words) : Option IpcState :=
  match s.replyDest with
  | some caller => s.ipcDeliverReply caller s.current words
  | none => some s

/-- `ipc_reply_recv`. -/
def ipcReplyRecv (s : IpcState) (words : Words) : Option (IpcState × List Event) := do
  let s' ← s.reply words
  let (s'', events) ← s'.waitRequest .replyRecv
  return (s'', .replied s.current s.replyDest words :: events)

/-- The rest of an operation after its `sched_block`. -/
def resume (s : IpcState) (frame : Frame) : IpcState × List Event :=
  let done := s.modify s.current fun th => { th with frame := none }
  match frame with
  | .send _ => (done, [])
  | .recv | .replyRecv =>
      (done, [.received s.current s.cur.ipcSender s.cur.ipcPrevSeq s.cur.ipcMsg])
  | .call target _ savedSender =>
      (done.modify s.current fun th => { th with ipcSender := savedSender },
        [.returned s.current target s.cur.ipcSender s.cur.ipcMsg])

/-! ### Runs

Execution is cut where a thread blocks. The frame of a blocked thread tells where it goes on. -/

/-- What the current thread may do next. -/
inductive Op
  | send (target : Tid) (words : Words)
  | recv
  | call (target : Tid) (words : Words)
  | replyRecv (words : Words)
  | resume

/-- The thread an operation names. -/
def Op.target : Op → Option Tid
  | .send target _ | .call target _ => some target
  | .recv | .replyRecv _ | .resume => none

/-- A thread in user mode starts an operation, one inside an operation goes on with it. -/
def Enabled (s : IpcState) (op : Op) : Prop :=
  s.cur.state = .running ∧ match op with
    | .resume => s.cur.frame ≠ none
    | _ => s.cur.frame = none

instance (s : IpcState) (op : Op) : Decidable (s.Enabled op) := by
  unfold Enabled
  cases op <;> infer_instance

/-- Execute the current thread up to its next `sched_block` or back to user mode. -/
def exec (s : IpcState) : Op → Option (IpcState × List Event)
  | .send target words => do
      let s' ← s.ipcSend target words
      return (s', [.sent s.current target words])
  | .recv => s.ipcRecv
  | .call target words => do
      let s' ← s.ipcCall target words
      return (s', [.called s.current target (s.cur.ipcCallSeq + 1) words])
  | .replyRecv words => s.ipcReplyRecv words
  | .resume => s.cur.frame.map s.resume

/-- Let another thread run: the current one, if it runs, goes back to its run queue. -/
def switchTo (s : IpcState) (t : Tid) : IpcState :=
  let s := if s.cur.state = .running then s.schedWakeup s.current else s
  { s.modify t fun th => { th with state := .running } with current := t }

/-- The states reached from `s₀`, with the events on the way: at any point a ready thread may be
switched to, and the current one may execute any enabled operation that satisfies `cond`. -/
inductive Run (cond : IpcState → Op → Prop) (s₀ : IpcState) : IpcState → List Event → Prop
  | init : Run cond s₀ s₀ []
  | switch {s : IpcState} {log : List Event} {t : Tid} (hrun : Run cond s₀ s log)
      (ht : (s.thread t).state = .ready) : Run cond s₀ (s.switchTo t) log
  | exec {s s' : IpcState} {log events : List Event} {op : Op} (hrun : Run cond s₀ s log)
      (henabled : s.Enabled op) (hcond : cond s op) (hexec : s.exec op = some (s', events)) :
      Run cond s₀ s' (log ++ events)

/-- No thread has used its endpoint yet. -/
structure Fresh (s : IpcState) : Prop where
  queues_eq : s.queues = ListStore.empty
  thread_fresh : ∀ t, (s.thread t).state ≠ .blocked ∧ (s.thread t).epState = .inactive ∧
    (s.thread t).ipcPrevSeq = 0 ∧ (s.thread t).ipcCallSeq = 0 ∧ (s.thread t).frame = none

/-! ### Executing runs

Concrete runs for counterexamples are executed, and what is reached that way is reached by a run. -/

/-- A step of a run. -/
inductive Act
  | switch (t : Tid)
  | exec (op : Op)

/-- Execute steps one after another as long as each is possible and satisfies `cond`. -/
def execAll (cond : IpcState → Op → Prop) [∀ s op, Decidable (cond s op)] (s : IpcState)
    (log : List Event) : List Act → Option (IpcState × List Event)
  | [] => some (s, log)
  | .switch t :: acts =>
      if (s.thread t).state = .ready then execAll cond (s.switchTo t) log acts else none
  | .exec op :: acts =>
      if s.Enabled op ∧ cond s op then
        match s.exec op with
        | some (s', events) => execAll cond s' (log ++ events) acts
        | none => none
      else none

/-- What `execAll` reaches, a run reaches. -/
theorem Run.of_execAll {cond : IpcState → Op → Prop} [∀ s op, Decidable (cond s op)]
    {s₀ : IpcState} (acts : List Act) {s s' : IpcState} {log log' : List Event}
    (hrun : Run cond s₀ s log) (hexec : s.execAll cond log acts = some (s', log')) :
    Run cond s₀ s' log' := by
  induction acts generalizing s log with
  | nil =>
      cases hexec
      exact hrun
  | cons act acts ih =>
      -- each action that succeeds is one step of the run
      cases act with
      | switch t =>
          rw [execAll] at hexec
          split at hexec
          next ht => exact ih (hrun.switch ht) hexec
          next => cases hexec
      | exec op =>
          rw [execAll] at hexec
          split at hexec
          next hop =>
            split at hexec
            next s'' events hs'' => exact ih (hrun.exec hop.1 hop.2 hs'') hexec
            next => cases hexec
          next => cases hexec

/-- Threads that are all ready, but for the first, which runs. -/
def boot : IpcState where
  thread t :=
    { state := if t = 0 then .running else .ready
      epState := .inactive
      ipcMsg := Vector.replicate _ 0
      ipcSender := 0
      ipcPrevSeq := 0
      ipcCallSeq := 0
      frame := none }
  queues := ListStore.empty
  registered _ := true
  current := 0

theorem boot_fresh : boot.Fresh where
  queues_eq := rfl
  thread_fresh t := by
    by_cases ht : t = 0 <;> simp [boot, ht]

/-- A message made of one word. -/
def word (w : BitVec 64) : Words := Vector.replicate ipcMsgWords w

/-- A run from `boot`, found by execution. -/
theorem exists_run_of_execAll (cond : IpcState → Op → Prop) [∀ s op, Decidable (cond s op)]
    (acts : List Act) (check : IpcState × List Event → Bool)
    (hcheck : (boot.execAll cond [] acts).any check = true) :
    ∃ s log, Run cond boot s log ∧ check (s, log) = true := by
  obtain ⟨⟨s, log⟩, hexec, hchecked⟩ := (Option.any_eq_true _ _).mp hcheck
  exact ⟨s, log, Run.init.of_execAll acts hexec, hchecked⟩

end IpcState

end Koharu
