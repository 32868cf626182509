import Koharu.Task.Ipc
import Mathlib.Tactic.Simps.Basic
import Mathlib.Tactic.Common

/-!
# The representation of endpoints

`IpcState.Linked` ties the wait queues to what the threads are blocked in: a thread inside
`ipc_recv` or `ipc_reply_recv` is alone on its own queue with its `ipc_list` node, a thread inside
`ipc_call` is alone there with its `ipc_wait_list` node, a sender is on the queue of its target,
and nothing else is linked.

What an operation does to a linked state is stated once, as one of the transitions `handed`,
`queued`, `listening`, `accepted` and `reserved`; every invariant is proved from these.

`Linked` survives every operation that is `Orderly`. `rep_of_run` concludes that the endpoints
are well formed in every state of an orderly run; `call_behind_sender` is the shortest run in
which they are not.
-/

namespace Koharu

/-- The node by which a thread blocked in an operation waits at its own endpoint. -/
def Frame.slot (t : Tid) : Frame → Option Node
  | .send _ => none
  | .recv | .replyRecv => some (.ipcList t)
  | .call _ _ _ => some (.ipcWaitList t)

namespace IpcState

/-- One thread is changed. -/
@[grind =]
theorem modify_thread (s : IpcState) (t u : Tid) (f : Thread → Thread) :
    (s.modify t f).thread u = if u = t then f (s.thread u) else s.thread u := by
  by_cases h : u = t
  · subst h
    simp [modify]
  · simp [modify, h]

/-- The queues are not. -/
@[simp, grind =]
theorem modify_queues (s : IpcState) (t : Tid) (f : Thread → Thread) :
    (s.modify t f).queues = s.queues := rfl

/-- The same thread is running. -/
@[simp, grind =]
theorem modify_current (s : IpcState) (t : Tid) (f : Thread → Thread) :
    (s.modify t f).current = s.current := rfl

/-- The same threads are registered. -/
@[simp, grind =]
theorem modify_registered (s : IpcState) (t : Tid) (f : Thread → Thread) :
    (s.modify t f).registered = s.registered := rfl

/-- The operation a thread is blocked in. -/
def waits (s : IpcState) (t : Tid) : Option Frame :=
  if (s.thread t).state = .blocked then (s.thread t).frame else none

/-- The node by which a thread waits at its own endpoint. -/
def slot (s : IpcState) (t : Tid) : Option Node := (s.waits t).bind (Frame.slot t)

/-- The queues hold the nodes of the threads that are blocked, where their operations put them. -/
structure Linked (s : IpcState) : Prop where
  inactive_iff : ∀ t, (s.thread t).epState = .inactive ↔ s.queues.queue t = []
  waitRecv_iff : ∀ t, (s.thread t).epState = .waitRecv ↔ s.slot t ≠ none
  queue_slot : ∀ t n, s.slot t = some n → s.queues.queue t = [n]
  wait_home : ∀ t h, s.queues.home (.ipcWaitList t) = some h → s.slot t = some (.ipcWaitList t)
  list_home : ∀ t h, s.queues.home (.ipcList t) = some h →
    s.slot t = some (.ipcList t) ∨ s.waits t = some (.send h) ∨
      ∃ q x, s.waits t = some (.call h q x)
  send_home : ∀ t h, s.waits t = some (.send h) → s.queues.home (.ipcList t) = some h
  call_ne : ∀ t h q x, s.waits t = some (.call h q x) → h ≠ t

/-! ### What the threads wait for, and where

A thread that is blocked waits for one thing, and the list it has to be on follows from it. -/

/-- Only blocked threads wait. -/
theorem waits_of_not_blocked {s : IpcState} {t : Tid} (h : (s.thread t).state ≠ .blocked) :
    s.waits t = none := if_neg h

/-- A blocked thread is not the one that executes. -/
theorem ne_current_of_waits {s : IpcState} {t : Tid} {f : Frame} (hcur : s.cur.state ≠ .blocked)
    (h : s.waits t = some f) : t ≠ s.current := by
  rintro rfl
  rw [waits_of_not_blocked hcur] at h
  cases h

/-- Only blocked threads are linked. -/
theorem slot_of_not_blocked {s : IpcState} {t : Tid} (h : (s.thread t).state ≠ .blocked) :
    s.slot t = none := by
  rw [slot, waits_of_not_blocked h]
  rfl

/-- A thread that is linked is blocked. -/
theorem blocked_of_slot {s : IpcState} {t : Tid} {n : Node} (h : s.slot t = some n) :
    (s.thread t).state = .blocked := by
  by_contra hne
  rw [slot_of_not_blocked hne] at h
  cases h

/-- A thread waits at its own endpoint by a node of its own. -/
theorem slot_eq_or {s : IpcState} {t : Tid} {n : Node} (h : s.slot t = some n) :
    n = .ipcList t ∨ n = .ipcWaitList t := by
  rw [slot, Option.bind_eq_some_iff] at h
  obtain ⟨f, -, hf⟩ := h
  cases f <;> simp_all [Frame.slot]

/-- `ipc_wait_list` is for threads that wait for a reply. -/
theorem slot_eq_wait_iff {s : IpcState} {t : Tid} :
    s.slot t = some (.ipcWaitList t) ↔ ∃ T q x, s.waits t = some (.call T q x) := by
  unfold slot
  cases h : s.waits t with
  | none => simp
  | some f => cases f <;> simp [Frame.slot]

/-- `ipc_list` is for threads that wait for a message. -/
theorem slot_eq_list_iff {s : IpcState} {t : Tid} :
    s.slot t = some (.ipcList t) ↔ s.waits t = some .recv ∨ s.waits t = some .replyRecv := by
  unfold slot
  cases h : s.waits t with
  | none => simp
  | some f => cases f <;> simp [Frame.slot]

namespace Linked

variable {s : IpcState}

/-- A thread that should be linked is. -/
theorem home_slot (h : s.Linked) {t : Tid} {n : Node} (hslot : s.slot t = some n) :
    s.queues.home n = some t :=
  ListStore.home_of_mem (by simp [h.queue_slot t n hslot])

/-- The nodes of a thread that is not blocked are on no queue. -/
theorem home_of_not_blocked (h : s.Linked) {t : Tid} (ht : (s.thread t).state ≠ .blocked) :
    s.queues.home (.ipcList t) = none ∧ s.queues.home (.ipcWaitList t) = none := by
  have hwaits := waits_of_not_blocked ht
  have hslot := slot_of_not_blocked ht
  constructor <;> by_contra hne
  · obtain ⟨T, hT⟩ := Option.ne_none_iff_exists'.mp hne
    have := h.list_home t T hT
    simp_all
  · obtain ⟨T, hT⟩ := Option.ne_none_iff_exists'.mp hne
    have := h.wait_home t T hT
    simp_all

/-- A running thread is not in `IPC_EP_WAIT_RECV`. -/
theorem waitRecv_ne (h : s.Linked) {t : Tid} (ht : (s.thread t).state ≠ .blocked) :
    (s.thread t).epState ≠ .waitRecv := by
  rw [ne_eq, h.waitRecv_iff, slot_of_not_blocked ht]
  simp

/-- Nobody is queued at a thread that neither waits nor is in `IPC_EP_WAIT_SEND`. -/
theorem queue_of_not_waitSend (h : s.Linked) {t : Tid} (ht : (s.thread t).state ≠ .blocked)
    (hep : (s.thread t).epState ≠ .waitSend) : s.queues.queue t = [] := by
  rw [← h.inactive_iff]
  have hrecv := h.waitRecv_ne ht
  cases hst : (s.thread t).epState with
  | inactive => rfl
  | waitSend => exact absurd hst hep
  | waitRecv => exact absurd hst hrecv

/-- Everyone on the queue of a thread in `IPC_EP_WAIT_SEND` is blocked sending to it. -/
theorem mem_queue_waitSend (h : s.Linked) {T : Tid} (hT : (s.thread T).epState = .waitSend)
    {n : Node} (hn : n ∈ s.queues.queue T) :
    ∃ t, n = .ipcList t ∧ (s.waits t = some (.send T) ∨ ∃ q x, s.waits t = some (.call T q x)) := by
  have hhome := ListStore.home_of_mem hn
  -- a thread with senders does not listen, so that it has no node of its own in its queue
  have hslot : s.slot T = none := by
    by_contra hne
    have := (h.waitRecv_iff T).mpr hne
    simp_all
  cases n with
  | ipcWaitList t =>
      have hown := h.wait_home t T hhome
      have := h.home_slot hown
      simp_all
  | ipcList t =>
      refine ⟨t, rfl, ?_⟩
      rcases h.list_home t T hhome with hown | hother
      · have := h.home_slot hown
        simp_all
      · exact hother

end Linked

/-! ### What an operation does to a linked state

The operations in terms of four transitions: a message is handed over, the thread queues up, it
listens, or it reserves a reply slot. -/

/-- A message is handed to `r`, which waits by the node `n`, and `r` is woken. -/
@[simps]
def handed (s : IpcState) (r x : Tid) (words : Words) (prevSeq : Option (BitVec 64)) (n : Node)
    (hn : s.queues.home n = some r) : IpcState where
  thread t :=
    { s.thread t with
      -- the receiver is woken, and what it was waiting for is over
      state := if t = r then .ready else (s.thread t).state
      epState := if t = r then .inactive else (s.thread t).epState
      ipcMsg := if t = r then words else (s.thread t).ipcMsg
      ipcSender := if t = r then x else (s.thread t).ipcSender
      ipcPrevSeq := if t = r then prevSeq.getD (s.thread t).ipcPrevSeq
        else (s.thread t).ipcPrevSeq }
  queues := s.queues.eraseAt n r hn
  registered := s.registered
  current := s.current

/-- The current thread queues up at `T` and is blocked. -/
@[simps]
def queued (s : IpcState) (T : Tid) (words : Words) (frame : Frame)
    (hn : s.queues.home (.ipcList s.current) = none) : IpcState where
  thread t :=
    { s.thread t with
      state := if t = s.current then .blocked else (s.thread t).state
      -- the receiver has a sender now, and the caller sleeps until it is accepted
      epState := if t = T then .waitSend else (s.thread t).epState
      ipcMsg := if t = s.current then words else (s.thread t).ipcMsg
      frame := if t = s.current then some frame else (s.thread t).frame }
  queues := s.queues.snocAt (.ipcList s.current) T hn
  registered := s.registered
  current := s.current

/-- The current thread waits for a message at its own endpoint. -/
@[simps]
def listening (s : IpcState) (frame : Frame)
    (hn : s.queues.home (.ipcList s.current) = none) : IpcState where
  thread t :=
    { s.thread t with
      state := if t = s.current then .blocked else (s.thread t).state
      epState := if t = s.current then .waitRecv else (s.thread t).epState
      frame := if t = s.current then some frame else (s.thread t).frame }
  queues := s.queues.snocAt (.ipcList s.current) s.current hn
  registered := s.registered
  current := s.current

/-- The sequence number that goes with the message of a queued thread: a caller's, or `0`. -/
def seqOf (s : IpcState) (x : Tid) : BitVec 64 :=
  if (s.thread x).epState = .waitRecv then (s.thread x).ipcCallSeq else 0

/-- The current thread takes the message of `x` off its queue. A plain sender is woken. -/
@[simps]
def accepted (s : IpcState) (x : Tid) (hn : s.queues.home (.ipcList x) = some s.current) :
    IpcState where
  thread t :=
    { s.thread t with
      -- a sender that made a call stays blocked, for it waits for the reply
      state := if t = x ∧ (s.thread x).epState ≠ .waitRecv then .ready else (s.thread t).state
      epState := if t = s.current ∧ (s.queues.queue s.current).erase (.ipcList x) = [] then
        .inactive else (s.thread t).epState
      ipcMsg := if t = s.current then (s.thread x).ipcMsg else (s.thread t).ipcMsg
      ipcSender := if t = s.current then x else (s.thread t).ipcSender
      ipcPrevSeq := if t = s.current then s.seqOf x else (s.thread t).ipcPrevSeq }
  queues := s.queues.eraseAt (.ipcList x) s.current hn
  registered := s.registered
  current := s.current

/-- The current thread has taken a sequence number, reserved a reply slot for a call of `T` and is
blocked. -/
@[simps]
def reserved (s : IpcState) (T : Tid) (hn : s.queues.home (.ipcWaitList s.current) = none) :
    IpcState where
  thread t :=
    { s.thread t with
      state := if t = s.current then .blocked else (s.thread t).state
      epState := if t = s.current then .waitRecv else (s.thread t).epState
      ipcCallSeq := if t = s.current then s.cur.ipcCallSeq + 1 else (s.thread t).ipcCallSeq
      frame := if t = s.current then some (.call T (s.cur.ipcCallSeq + 1) s.cur.ipcSender)
        else (s.thread t).frame }
  queues := s.queues.snocAt (.ipcWaitList s.current) s.current hn
  registered := s.registered
  current := s.current

/-- A message is delivered to a thread that waits alone on its own queue. -/
theorem deliver_eq_handed {s : IpcState} (r x : Tid) (words : Words)
    (prevSeq : Option (BitVec 64)) {n : Node} (hn : s.queues.home n = some r)
    (hqueue : s.queues.queue r = [n]) (hr : (s.thread r).state = .blocked) :
    s.deliver r x words prevSeq = some (s.handed r x words prevSeq n hn) := by
  have hleft : (s.queues.eraseAt n r hn).queue r = [] := by simp [hqueue]
  simp only [deliver, hqueue, List.head?_cons, Option.bind_eq_bind, Option.bind_some,
    ListStore.unlink_eq_some hn, hleft, if_true, Option.pure_def]
  rw [if_pos (by grind)]
  congr 1
  ext u : 2
  · by_cases hu : u = r <;> simp [handed, schedWakeup, modify_thread, hu]
  all_goals rfl

/-- The target waits for a message and gets it. -/
theorem handOver_eq_handed {s : IpcState} {T : Tid} (words : Words) (seq : BitVec 64) {n : Node}
    (hn : s.queues.home n = some T) (hqueue : s.queues.queue T = [n])
    (hblocked : (s.thread T).state = .blocked) (hep : (s.thread T).epState = .waitRecv) :
    s.handOver T words seq = some (s.handed T s.current words (some seq) n hn, true) := by
  rw [handOver, if_pos hep, ipcDeliverMsg, deliver_eq_handed T _ words _ hn hqueue hblocked]
  rfl

/-- The target does not wait, and the caller is queued. -/
theorem handOver_eq_queued {s : IpcState} {T : Tid} (words : Words) (seq : BitVec 64)
    (frame : Frame) (hep : (s.thread T).epState ≠ .waitRecv)
    (hn : s.queues.home (.ipcList s.current) = none) :
    ∃ s', s.handOver T words seq = some (s', false) ∧
      s'.schedBlock frame = s.queued T words frame hn := by
  let posted : IpcState := { s with queues := s.queues.snocAt (.ipcList s.current) T hn }.modify
    s.current (fun th => { th with ipcMsg := words }) |>.modify T fun th =>
      { th with epState := .waitSend }
  have hposted : s.handOver T words seq = some (posted, false) := by
    simp only [handOver, if_neg hep, modify_queues, modify_current,
      ListStore.pushBack_eq_some T hn, Option.bind_eq_bind, Option.bind_some, Option.pure_def]
    rfl
  refine ⟨posted, hposted, ?_⟩
  -- thread by thread: the caller, the receiver, or another one
  ext u : 2
  · by_cases hu : u = s.current <;> by_cases hT : u = T <;>
      simp_all [queued, schedBlock, posted, modify_thread]
  all_goals rfl

/-- Blocking the current thread does not interfere with handing a message to another. -/
theorem handed_schedBlock {s : IpcState} {T x : Tid} (hne : T ≠ s.current) (words : Words)
    (prevSeq : Option (BitVec 64)) {n : Node} (hn : s.queues.home n = some T) (frame : Frame) :
    (s.handed T x words prevSeq n hn).schedBlock frame =
      (s.schedBlock frame).handed T x words prevSeq n hn := by
  ext u : 2
  · by_cases hu : u = T <;> by_cases hc : u = s.current <;>
      simp_all [handed, schedBlock, modify_thread]
  all_goals rfl

/-- The first part of `ipc_call`, on the way to the blocked caller. -/
theorem reserveSlot_eq {s : IpcState} (T : Tid)
    (hn : s.queues.home (.ipcWaitList s.current) = none) :
    ∃ s', s.reserveSlot = some s' ∧ s'.current = s.current ∧
      s'.cur.ipcCallSeq = s.cur.ipcCallSeq + 1 ∧ s'.cur.ipcSender = s.cur.ipcSender ∧
      s'.schedBlock (.call T (s.cur.ipcCallSeq + 1) s.cur.ipcSender) = s.reserved T hn := by
  let slotted : IpcState :=
    { s with queues := s.queues.snocAt (.ipcWaitList s.current) s.current hn }.modify s.current
      fun th => { th with ipcCallSeq := th.ipcCallSeq + 1, epState := .waitRecv }
  refine ⟨slotted, ?_, rfl, by grind [cur], by grind [cur], ?_⟩
  · rw [reserveSlot, modify_current, modify_queues, ListStore.pushBack_eq_some _ hn]
    rfl
  · ext u : 2
    · by_cases hu : u = s.current <;>
        simp [slotted, reserved, schedBlock, cur, modify_thread, hu]
    all_goals rfl

/-- The first of the queue is taken off and woken, unless it waits for a reply. -/
theorem ipcAccept_eq_accepted {s : IpcState} {x : Tid} {rest : List Node}
    (hqueue : s.queues.queue s.current = .ipcList x :: rest)
    (hx : s.queues.home (.ipcList x) = some s.current) (hne : x ≠ s.current)
    (hblocked : (s.thread x).state = .blocked) :
    s.ipcAccept s.current = some (x, s.accepted x hx) := by
  simp only [ipcAccept, hqueue, ListStore.unlink_eq_some hx, Option.bind_eq_bind,
    Option.bind_some, Option.pure_def]
  congr 2
  by_cases hlast : (s.queues.eraseAt (.ipcList x) s.current hx).queue s.current = [] <;>
    by_cases hcaller : (s.thread x).epState = .waitRecv <;>
    simp only [hlast, hcaller, if_true, if_false, modify_thread, hne, hblocked, ne_eq,
      not_true_eq_false, not_false_eq_true, and_self, false_and] <;>
    refine IpcState.ext (funext fun u => ?_) rfl rfl rfl
  all_goals by_cases hu : u = s.current <;> by_cases hux : u = x <;> apply Thread.ext <;>
    simp_all [accepted, schedWakeup, seqOf, modify_thread]

section Specs

variable {s : IpcState} (h : s.Linked) (hcur : s.cur.state = .running)

include h hcur

/-- The thread that runs is not linked. -/
theorem Linked.home_current : s.queues.home (.ipcList s.current) = none ∧
    s.queues.home (.ipcWaitList s.current) = none :=
  h.home_of_not_blocked (by rw [← cur, hcur]; decide)

omit hcur in
/-- `ipc_send` to a waiting thread. -/
theorem ipcSend_eq_handed {T : Tid} (words : Words) {n : Node} (hT : s.slot T = some n) :
    s.ipcSend T words = some (s.handed T s.current words (some 0) n (h.home_slot hT)) := by
  rw [ipcSend, handOver_eq_handed words 0 (h.home_slot hT) (h.queue_slot T n hT)
    (blocked_of_slot hT) ((h.waitRecv_iff T).mpr (by simp [hT]))]
  rfl

/-- `ipc_send` to a thread that does not wait. -/
theorem ipcSend_eq_queued {T : Tid} (words : Words) (hT : s.slot T = none) :
    s.ipcSend T words = some (s.queued T words (.send T) (h.home_current hcur).1) := by
  have hep : (s.thread T).epState ≠ .waitRecv := by simp [h.waitRecv_iff, hT]
  obtain ⟨s', hs', hblock⟩ :=
    handOver_eq_queued words 0 (.send T) hep (h.home_current hcur).1
  rw [ipcSend, hs', ← hblock]
  rfl

omit hcur in
/-- To queue the caller leaves the others where they are. -/
theorem Linked.home_reserved {T : Tid} {n : Node} (hT : s.slot T = some n)
    (hn : s.queues.home (.ipcWaitList s.current) = none) :
    (s.reserved T hn).queues.home n = some T := by
  have := h.home_slot hT
  grind [reserved]

/-- `ipc_call` of a waiting thread. -/
theorem ipcCall_eq_handed {T : Tid} (hne : T ≠ s.current) (words : Words) {n : Node}
    (hT : s.slot T = some n) :
    s.ipcCall T words = some ((s.reserved T (h.home_current hcur).2).handed T s.current words
      (some (s.cur.ipcCallSeq + 1)) n (h.home_reserved hT (h.home_current hcur).2)) := by
  have hn := (h.home_current hcur).2
  obtain ⟨s', hs', hcurrent, hseq, hsender, hblock⟩ := reserveSlot_eq T hn
  have hqueue := h.queue_slot T n hT
  have hblocked := blocked_of_slot hT
  have hep := (h.waitRecv_iff T).mpr (by simp [hT])
  -- reserving the slot and blocking commute, so that the endpoint is the one before the call
  have hqueues : s'.queues = (s.reserved T hn).queues := by rw [← hblock]; rfl
  have hthread : s'.thread T = s.thread T := by
    have := congrArg (fun s => s.thread T) hblock
    simpa [schedBlock, reserved, modify_thread, hcurrent, hne] using this
  have hover := handOver_eq_handed (s := s') words (s.cur.ipcCallSeq + 1)
    (hqueues ▸ h.home_reserved hT hn) (by grind [reserved]) (by grind) (by grind)
  simp only [ipcCall, hs', hseq, hsender, hover, Option.bind_eq_bind, Option.bind_some,
    Option.pure_def]
  rw [handed_schedBlock (hcurrent ▸ hne)]
  simp only [hblock, hcurrent]

/-- `ipc_call` of a thread that does not wait. -/
theorem ipcCall_eq_queued {T : Tid} (hne : T ≠ s.current) (words : Words) (hT : s.slot T = none)
    (hn : (s.reserved T (h.home_current hcur).2).queues.home (.ipcList s.current) = none) :
    s.ipcCall T words = some ((s.reserved T (h.home_current hcur).2).queued T words
      (.call T (s.cur.ipcCallSeq + 1) s.cur.ipcSender) hn) := by
  obtain ⟨s', hs', hcurrent, hseq, hsender, hblock⟩ := reserveSlot_eq T (h.home_current hcur).2
  have hep : (s.thread T).epState ≠ .waitRecv := by simp [h.waitRecv_iff, hT]
  -- reserving the slot does not change the endpoint of the receiver
  have hqueues : s'.queues = (s.reserved T (h.home_current hcur).2).queues := by
    rw [← hblock]; rfl
  have hthread : s'.thread T = s.thread T := by
    have := congrArg (fun s => s.thread T) hblock
    simpa [schedBlock, reserved, modify_thread, hcurrent, hne] using this
  obtain ⟨s'', hs'', hblock'⟩ := handOver_eq_queued (s := s') (T := T) words
    (s.cur.ipcCallSeq + 1) (.call T (s.cur.ipcCallSeq + 1) s.cur.ipcSender) (hthread ▸ hep)
    (by rw [hqueues, hcurrent]; exact hn)
  simp only [ipcCall, hs', hseq, hsender, hs'', hblock', Option.bind_eq_bind, Option.bind_some,
    Option.pure_def]
  congr 1
  simp only [← hblock]
  ext u : 2
  · by_cases hu : u = s.current <;> simp [queued, schedBlock, modify_thread, hu, hcurrent]
  all_goals simp [queued, schedBlock, hcurrent]

/-- The end of `ipc_recv` and `ipc_reply_recv` when nobody is queued. -/
theorem waitRequest_eq_listening (frame : Frame) (hep : s.cur.epState ≠ .waitSend) :
    s.waitRequest frame = some (s.listening frame (h.home_current hcur).1, []) := by
  simp only [waitRequest, if_neg hep, modify_queues, modify_current,
    ListStore.pushBack_eq_some _ (h.home_current hcur).1, Option.bind_eq_bind, Option.bind_some,
    Option.pure_def]
  congr 2
  ext u : 2
  · by_cases hu : u = s.current <;> simp [listening, schedBlock, modify_thread, hu]
  all_goals rfl

/-- The end of `ipc_recv` and `ipc_reply_recv` when somebody is queued. -/
theorem waitRequest_eq_accepted (frame : Frame) (hep : s.cur.epState = .waitSend) :
    ∃ x rest, ∃ hx : s.queues.home (.ipcList x) = some s.current,
      s.queues.queue s.current = .ipcList x :: rest ∧ s.waitRequest frame =
        some (s.accepted x hx, [.received s.current x (s.seqOf x) (s.thread x).ipcMsg]) := by
  have hne : s.queues.queue s.current ≠ [] := by
    rw [ne_eq, ← h.inactive_iff, ← cur, hep]
    decide
  -- a waiting sender is queued, and the first node is that of a blocked sender
  obtain ⟨n, rest, hqueue⟩ := List.exists_cons_of_ne_nil hne
  obtain ⟨x, rfl, hwaits⟩ := h.mem_queue_waitSend hep (by rw [hqueue]; exact List.mem_cons_self)
  have hx : s.queues.home (.ipcList x) = some s.current :=
    ListStore.home_of_mem (by rw [hqueue]; exact List.mem_cons_self)
  have hblocked : (s.thread x).state = .blocked := by
    by_contra hnot
    rw [waits_of_not_blocked hnot] at hwaits
    simp at hwaits
  -- the caller runs, so that it is not the sender
  have hxc : x ≠ s.current := by
    rintro rfl
    rw [← cur, hcur] at hblocked
    cases hblocked
  refine ⟨x, rest, hx, hqueue, ?_⟩
  have haccept := ipcAccept_eq_accepted hqueue hx hxc hblocked
  simp only [waitRequest, if_pos hep, haccept, Option.bind_eq_bind, Option.bind_some,
    Option.pure_def]
  simp [accepted, cur]

end Specs

/-! ### What the transitions change in what the threads wait for

Each transition changes what one thread waits for. -/

section Waits

variable {s : IpcState}

/-- The receiver does not wait any more. -/
@[grind =]
theorem waits_handed {r x : Tid} {words : Words} {prevSeq : Option (BitVec 64)} {n : Node}
    (hn : s.queues.home n = some r) (t : Tid) :
    (s.handed r x words prevSeq n hn).waits t = if t = r then none else s.waits t := by
  simp only [waits, handed_thread_state, handed_thread_frame]
  grind

/-- The caller waits in the queue of the target. -/
@[grind =]
theorem waits_queued {T : Tid} {words : Words} {f : Frame}
    (hn : s.queues.home (.ipcList s.current) = none) (t : Tid) :
    (s.queued T words f hn).waits t = if t = s.current then some f else s.waits t := by
  simp only [waits, queued_thread_state, queued_thread_frame]
  grind

/-- The caller waits for a message. -/
@[grind =]
theorem waits_listening {f : Frame} (hn : s.queues.home (.ipcList s.current) = none) (t : Tid) :
    (s.listening f hn).waits t = if t = s.current then some f else s.waits t := by
  simp only [waits, listening_thread_state, listening_thread_frame]
  grind

/-- The sender does not wait any more, unless it has called. -/
@[grind =]
theorem waits_accepted {x : Tid} (hx : s.queues.home (.ipcList x) = some s.current) (t : Tid) :
    (s.accepted x hx).waits t =
      if t = x ∧ (s.thread x).epState ≠ .waitRecv then none else s.waits t := by
  simp only [waits, accepted_thread_state, accepted_thread_frame]
  grind

/-- The caller waits for a reply. -/
@[grind =]
theorem waits_reserved {T : Tid} (hn : s.queues.home (.ipcWaitList s.current) = none) (t : Tid) :
    (s.reserved T hn).waits t = if t = s.current then
      some (.call T (s.cur.ipcCallSeq + 1) s.cur.ipcSender) else s.waits t := by
  simp only [waits, reserved_thread_state, reserved_thread_frame]
  grind

end Waits

/-! ### The transitions keep the queues linked

And each changes the queues in the same way, under its condition. -/

namespace Linked

variable {s : IpcState}

/-- A thread can be handed a message unless its own request is still queued elsewhere. -/
theorem handed (h : s.Linked) {r x : Tid} {words : Words} {prevSeq : Option (BitVec 64)}
    {n : Node} (hslot : s.slot r = some n) (hn : s.queues.home n = some r)
    (hfree : ∀ T, s.queues.home (.ipcList r) = some T → T = r) :
    (s.handed r x words prevSeq n hn).Linked := by
  have hqueue := h.queue_slot r n hslot
  have hown := slot_eq_or hslot
  have hlist : ∀ T, s.queues.home (.ipcList r) = some T → n = .ipcList r := by
    intro T hT
    have hself := hfree T hT
    have hwhy := h.list_home r T hT
    have hne := h.call_ne r T
    grind [slot, Frame.slot]
  have hslots : ∀ t, (s.handed r x words prevSeq n hn).slot t =
      if t = r then none else s.slot t := by
    grind [slot]
  obtain ⟨h1, h2, h3, h4, h5, h6, h7⟩ := h
  constructor <;> intro t <;>
    simp only [waits_handed, hslots, handed_thread_epState, handed_queues] <;> grind

/-- The current thread queues up: as a plain sender, or with the request of a call it has reserved
the reply slot for. -/
theorem queued (h : s.Linked) {T : Tid} {words : Words} {f : Frame}
    (hn : s.queues.home (.ipcList s.current) = none) (hT : s.slot T = none)
    (hf : s.cur.state ≠ .blocked ∧ f = .send T ∨
      s.waits s.current = some f ∧ ∃ q x, f = .call T q x) :
    (s.queued T words f hn).Linked := by
  have hslots : ∀ t, (s.queued T words f hn).slot t = s.slot t := by
    intro t
    rw [slot, waits_queued, slot]
    grind [Frame.slot, slot, waits, cur]
  have hfslot : s.cur.state ≠ .blocked ∧ f = .send T → s.slot s.current = none :=
    fun hc => slot_of_not_blocked hc.1
  have hnil : ∀ t, (s.queues.snocAt (.ipcList s.current) T hn).queue t = [] ↔
      t ≠ T ∧ s.queues.queue t = [] := by
    intro t
    by_cases ht : t = T <;> simp [ht]
  obtain ⟨h1, h2, h3, h4, h5, h6, h7⟩ := h
  constructor <;> intro t <;>
    simp only [waits_queued, hslots, queued_thread_epState, queued_queues] <;> grind

/-- The current thread waits for a message when nobody is queued at its endpoint. -/
theorem listening (h : s.Linked) (hcur : s.cur.state ≠ .blocked) (hep : s.cur.epState ≠ .waitSend)
    {f : Frame} (hf : f.slot s.current = some (.ipcList s.current))
    (hn : s.queues.home (.ipcList s.current) = none) : (s.listening f hn).Linked := by
  have hempty := h.queue_of_not_waitSend hcur hep
  have hslots : ∀ t, (s.listening f hn).slot t =
      if t = s.current then some (.ipcList s.current) else s.slot t := by
    grind [slot]
  have hwait := (h.home_of_not_blocked hcur).2
  have hne : ∀ T, f ≠ .send T ∧ ∀ q x, f ≠ .call T q x := by grind [Frame.slot]
  obtain ⟨h1, h2, h3, h4, h5, h6, h7⟩ := h
  constructor <;> intro t <;>
    simp only [waits_listening, hslots, listening_thread_epState, listening_queues] <;> grind

/-- The current thread reserves a reply slot when nobody is queued at its endpoint. -/
theorem reserved (h : s.Linked) (hcur : s.cur.state ≠ .blocked) (hep : s.cur.epState ≠ .waitSend)
    {T : Tid} (hT : T ≠ s.current) (hn : s.queues.home (.ipcWaitList s.current) = none) :
    (s.reserved T hn).Linked := by
  have hempty := h.queue_of_not_waitSend hcur hep
  have hslots : ∀ t, (s.reserved T hn).slot t =
      if t = s.current then some (.ipcWaitList s.current) else s.slot t := by
    grind [slot, Frame.slot]
  have hlist := (h.home_of_not_blocked hcur).1
  obtain ⟨h1, h2, h3, h4, h5, h6, h7⟩ := h
  constructor <;> intro t <;>
    simp only [waits_reserved, hslots, reserved_thread_epState, reserved_queues] <;> grind

/-- The current thread accepts the message of a thread on its queue. -/
theorem accepted (h : s.Linked) (hcur : s.cur.state ≠ .blocked) (hep : s.cur.epState = .waitSend)
    {x : Tid} (hx : s.queues.home (.ipcList x) = some s.current) : (s.accepted x hx).Linked := by
  have hmem : Node.ipcList x ∈ s.queues.queue s.current := (s.queues.mem_queue _ _).mpr hx
  obtain ⟨t, ht, hwx⟩ := h.mem_queue_waitSend hep hmem
  obtain rfl : x = t := by simpa using ht
  have hslots : ∀ t, (s.accepted x hx).slot t = s.slot t := by
    have := h.waitRecv_iff x
    grind [slot]
  have hempty := h.inactive_iff s.current
  have hslot : s.slot s.current = none := slot_of_not_blocked hcur
  have hxep := h.waitRecv_iff x
  have hxs : ∀ T, s.waits x = some (.send T) → (s.thread x).epState ≠ .waitRecv := by
    grind [slot, Frame.slot]
  have hxc : ∀ T q y, s.waits x = some (.call T q y) → (s.thread x).epState = .waitRecv := by
    grind [slot, Frame.slot]
  obtain ⟨h1, h2, h3, h4, h5, h6, h7⟩ := h
  constructor <;> intro t <;>
    simp only [waits_accepted, hslots, accepted_thread_epState, accepted_queues] <;> grind

end Linked

/-! ### Steps

What happens between operations: a switch to another thread changes only states. -/

section Frame

variable {s : IpcState}

/-- Only what the threads are blocked in and the states of their endpoints matter. -/
theorem Linked.congr {s' : IpcState} (h : s.Linked) (hqueues : s'.queues = s.queues)
    (hep : ∀ t, (s'.thread t).epState = (s.thread t).epState)
    (hwaits : ∀ t, s'.waits t = s.waits t) : s'.Linked := by
  have hslots : ∀ t, s'.slot t = s.slot t := fun t => by rw [slot, hwaits, slot]
  obtain ⟨h1, h2, h3, h4, h5, h6, h7⟩ := h
  refine ⟨?_, ?_, ?_, ?_, ?_, ?_, ?_⟩ <;>
    simpa only [hqueues, hep, hwaits, hslots]

/-- A switch changes states and nothing else. -/
theorem switchTo_thread (t u : Tid) : ∃ st, (s.switchTo t).thread u =
    { s.thread u with state := st } ∧ ((s.thread t).state = .ready →
      (st = .blocked ↔ (s.thread u).state = .blocked)) := by
  refine ⟨((s.switchTo t).thread u).state, ?_, ?_⟩ <;>
    by_cases hrun : s.cur.state = .running <;> by_cases hut : u = t <;>
    by_cases huc : u = s.current <;>
    simp_all [switchTo, schedWakeup, modify_thread, cur]

/-- To run a thread that is ready changes nothing about who waits. -/
theorem waits_switchTo {t : Tid} (ht : (s.thread t).state = .ready) (u : Tid) :
    (s.switchTo t).waits u = s.waits u := by
  obtain ⟨st, hthread, hblocked⟩ := switchTo_thread (s := s) t u
  have := hblocked ht
  rw [waits, waits, hthread]
  grind

/-- The queues are not changed. -/
@[simp]
theorem switchTo_queues (t : Tid) : (s.switchTo t).queues = s.queues := by
  by_cases hrun : s.cur.state = .running <;> simp [switchTo, hrun, schedWakeup]

/-- To run a thread that is ready keeps the queues as they should be. -/
theorem Linked.switchTo (h : s.Linked) {t : Tid} (ht : (s.thread t).state = .ready) :
    (s.switchTo t).Linked := by
  refine h.congr (switchTo_queues t) (fun u => ?_) (waits_switchTo ht)
  obtain ⟨st, hthread, -⟩ := switchTo_thread (s := s) t u
  rw [hthread]

/-- Going on after `sched_block` changes the current thread's `ipc_sender` and frame only. -/
theorem resume_thread (f : Frame) (u : Tid) : ∃ x, (s.resume f).1.thread u =
    if u = s.current then { s.cur with ipcSender := x, frame := none } else s.thread u := by
  cases f with
  | call T q x =>
      refine ⟨x, ?_⟩
      by_cases hu : u = s.current <;> simp [resume, modify_thread, cur, hu]
  | _ =>
      refine ⟨s.cur.ipcSender, ?_⟩
      by_cases hu : u = s.current <;> simp [resume, modify_thread, cur, hu]

/-- A call that goes on does not touch the queues. -/
@[simp]
theorem resume_queues (f : Frame) : (s.resume f).1.queues = s.queues := by
  cases f <;> rfl

/-- Nor does it change who waits. -/
theorem waits_resume (hcur : s.cur.state = .running) (f : Frame) (u : Tid) :
    (s.resume f).1.waits u = s.waits u := by
  obtain ⟨x, hx⟩ := resume_thread (s := s) f u
  rw [waits, waits, hx]
  grind [cur]

/-- It keeps the queues as they should be. -/
theorem Linked.resume (h : s.Linked) (hcur : s.cur.state = .running) (f : Frame) :
    (s.resume f).1.Linked := by
  refine h.congr (resume_queues f) (fun u => ?_) (waits_resume hcur f)
  obtain ⟨x, hx⟩ := resume_thread (s := s) f u
  rw [hx]
  grind [cur]

end Frame

/-- No request of `r` is queued at another thread's endpoint. -/
def Vacant (s : IpcState) (r : Tid) : Prop :=
  ∀ T, s.queues.home (.ipcList r) = some T → T = r

/-- What an operation must not do for the queues to stay linked: call while senders are queued at
the caller's own endpoint, or hand something to a thread whose own request is still queued. -/
def Orderly (s : IpcState) : Op → Prop
  | .send T _ => (s.thread T).epState = .waitRecv → s.Vacant T
  | .call T _ => T ≠ s.current ∧ s.cur.epState ≠ .waitSend ∧
      ((s.thread T).epState = .waitRecv → s.Vacant T)
  | .replyRecv _ => ∀ C, s.replyDest = some C → s.Vacant C
  | .recv | .resume => True

/-- The two halves of `ipc_reply_recv`. -/
theorem ipcReplyRecv_eq {s s₁ s' : IpcState} {words : Words} {events : List Event}
    (hreply : s.reply words = some s₁) (hwait : s₁.waitRequest .replyRecv = some (s', events)) :
    s.exec (.replyRecv words) = some (s', .replied s.current s.replyDest words :: events) := by
  rw [IpcState.exec, ipcReplyRecv, hreply, Option.bind_eq_bind, Option.bind_some, hwait]
  rfl

section Exec

variable {s : IpcState} (h : s.Linked) (hcur : s.cur.state = .running)

include h

/-- `ipc_reply_recv` delivers its reply to a thread that waits, or to none. -/
theorem reply_cases (words : Words) : s.replyDest = none ∧ s.reply words = some s ∨
    ∃ C n, ∃ hn : s.queues.home n = some C, s.replyDest = some C ∧ C ≠ s.current ∧
      C = s.cur.ipcSender ∧ s.cur.ipcPrevSeq ≠ 0 ∧
      (s.thread C).ipcCallSeq = s.cur.ipcPrevSeq ∧ s.slot C = some n ∧
      s.reply words = some (s.handed C s.current words none n hn) := by
  -- the reply goes to the sender of the last request, or nowhere
  by_cases hdest : s.cur.ipcPrevSeq ≠ 0 ∧ s.registered s.cur.ipcSender ∧
      s.cur.ipcSender ≠ s.current ∧ (s.thread s.cur.ipcSender).ipcCallSeq = s.cur.ipcPrevSeq ∧
      (s.thread s.cur.ipcSender).epState = .waitRecv ∧ s.queues.queue s.cur.ipcSender ≠ []
  · have heq : s.replyDest = some s.cur.ipcSender := if_pos hdest
    obtain ⟨hseq, -, hne, hcall, hep, -⟩ := hdest
    obtain ⟨n, hslot⟩ := Option.ne_none_iff_exists'.mp ((h.waitRecv_iff _).mp hep)
    refine Or.inr ⟨_, n, h.home_slot hslot, heq, hne, rfl, hseq, hcall, hslot, ?_⟩
    rw [reply, heq]
    exact deliver_eq_handed _ _ words none _ (h.queue_slot _ n hslot) (blocked_of_slot hslot)
  · have heq : s.replyDest = none := if_neg hdest
    refine Or.inl ⟨heq, ?_⟩
    rw [reply, heq]

include hcur

/-- The end of `ipc_recv` and `ipc_reply_recv` succeeds on a linked state. -/
theorem Linked.waitRequest {f : Frame} (hf : f.slot s.current = some (.ipcList s.current)) :
    ∃ s' events, s.waitRequest f = some (s', events) ∧ s'.Linked ∧
      ∀ t T, s'.waits t = some (.send T) → s.waits t = some (.send T) := by
  have hnot : s.cur.state ≠ .blocked := by simp [hcur]
  by_cases hep : s.cur.epState = .waitSend
  · obtain ⟨x, rest, hx, -, heq⟩ := waitRequest_eq_accepted h hcur f hep
    exact ⟨_, _, heq, h.accepted hnot hep hx, by grind⟩
  · refine ⟨_, _, waitRequest_eq_listening h hcur f hep, h.listening hnot hep hf _, ?_⟩
    grind [Frame.slot]

omit hcur in
/-- An orderly operation succeeds and keeps the queues linked. A thread becomes a blocked sender
only by its own `ipc_send`. -/
theorem Linked.exec {op : Op} (henabled : s.Enabled op) (horderly : s.Orderly op) :
    ∃ s' events, s.exec op = some (s', events) ∧ s'.Linked ∧
      ∀ t T, s'.waits t = some (.send T) →
        s.waits t = some (.send T) ∨ t = s.current ∧ op.target = some T := by
  have hcur := henabled.1
  have hnot : s.cur.state ≠ .blocked := by simp [hcur]
  cases op with
  | send T words =>
      -- a receiver that waits is handed the message, otherwise the sender queues up
      cases hT : s.slot T with
      | none =>
          refine ⟨_, _, by rw [IpcState.exec, ipcSend_eq_queued h hcur words hT]; rfl, ?_, ?_⟩
          · exact h.queued _ hT (Or.inl ⟨hnot, rfl⟩)
          · grind [Op.target]
      | some n =>
          refine ⟨_, _, by rw [IpcState.exec, ipcSend_eq_handed h words hT]; rfl, ?_, ?_⟩
          · exact h.handed hT _ (horderly ((h.waitRecv_iff T).mpr (by simp [hT])))
          · grind
  | recv =>
      obtain ⟨s', events, hs', hlinked, hsend⟩ := h.waitRequest hcur (f := .recv) rfl
      exact ⟨s', events, hs', hlinked, fun t T ht => Or.inl (hsend t T ht)⟩
  | call T words =>
      -- the slot for the reply is reserved before the message is sent
      obtain ⟨hne, hep, hvacant⟩ := horderly
      have hn := (h.home_current hcur).2
      have hres := h.reserved hnot hep hne hn
      have hslot : (s.reserved T hn).slot T = s.slot T := by
        rw [slot, waits_reserved, if_neg hne, slot]
      have hlist : ∀ t, (s.reserved T hn).queues.home (.ipcList t) =
        s.queues.home (.ipcList t) := by
        intro t
        simp
      cases hT : s.slot T with
      | none =>
          have hcn := (hlist s.current).trans (h.home_current hcur).1
          refine ⟨_, _, by rw [IpcState.exec, ipcCall_eq_queued h hcur hne words hT hcn]; rfl,
            ?_, ?_⟩
          · refine hres.queued hcn (hslot.trans hT) (Or.inr ⟨?_, _, _, rfl⟩)
            rw [waits_reserved]
            exact if_pos rfl
          · grind
      | some n =>
          refine ⟨_, _, by rw [IpcState.exec, ipcCall_eq_handed h hcur hne words hT]; rfl, ?_, ?_⟩
          · apply hres.handed (hslot.trans hT) _
            intro T' hT'
            exact hvacant ((h.waitRecv_iff T).mpr (by simp [hT])) T' (hlist T ▸ hT')
          · grind
  | replyRecv words =>
      -- a reply that nobody waits for leaves the state alone
      rcases reply_cases h words with ⟨hnone, hreply⟩ |
        ⟨C, n, hn, hdest, hne, -, -, -, hslot, hreply⟩
      · obtain ⟨s', events, hs', hlinked, hsend⟩ := h.waitRequest hcur (f := .replyRecv) rfl
        exact ⟨s', _, ipcReplyRecv_eq hreply hs', hlinked, fun t T ht => Or.inl (hsend t T ht)⟩
      · have hhanded : (s.handed C s.current words none n hn).Linked :=
          h.handed hslot hn (horderly C hdest)
        have hrun : (s.handed C s.current words none n hn).cur.state = .running := by
          grind [cur, handed_thread_state, handed_current]
        obtain ⟨s', events, hs', hlinked, hsend⟩ :=
          hhanded.waitRequest hrun (f := .replyRecv) rfl
        exact ⟨s', _, ipcReplyRecv_eq hreply hs', hlinked, by grind⟩
  | resume =>
      obtain ⟨f, hf⟩ := Option.ne_none_iff_exists'.mp henabled.2
      refine ⟨_, _, by rw [IpcState.exec, hf]; rfl, h.resume hcur f, fun t T ht => ?_⟩
      exact Or.inl (waits_resume hcur f t ▸ ht)

end Exec

/-! ### The operations on kernel stacks

The frames of the blocked threads are changed by nobody else, so that they are found as they were
left. -/

/-- A change that keeps the frame of a thread. -/
theorem modify_frame {t : Tid} {f : Thread → Thread} (hf : ∀ th, (f th).frame = th.frame)
    (s : IpcState) (u : Tid) : ((s.modify t f).thread u).frame = (s.thread u).frame := by
  rw [modify_thread]
  split
  · exact hf _
  · rfl

/-- To wake a thread does not change what it waits for. -/
theorem schedWakeup_frame (s : IpcState) (t u : Tid) :
    ((s.schedWakeup t).thread u).frame = (s.thread u).frame :=
  modify_frame (by simp) s u

/-- Delivering a message does not change them. -/
theorem deliver_frame {s s' : IpcState} {r x : Tid} {words : Words} {q : Option (BitVec 64)}
    (h : s.deliver r x words q = some s') :
    s'.current = s.current ∧ ∀ t, (s'.thread t).frame = (s.thread t).frame := by
  obtain ⟨node, -, h⟩ := Option.bind_eq_some_iff.mp h
  obtain ⟨queues, -, h⟩ := Option.bind_eq_some_iff.mp h
  obtain rfl := Option.some.inj h
  -- waking the receiver changes no frame, and nor does what is stored before
  have hwake : ∀ s₁ : IpcState,
      s₁.current = s.current ∧ (∀ t, (s₁.thread t).frame = (s.thread t).frame) →
      (if (s₁.thread r).state = .blocked then s₁.schedWakeup r else s₁).current = s.current ∧
        ∀ t, ((if (s₁.thread r).state = .blocked then s₁.schedWakeup r else s₁).thread t).frame =
          (s.thread t).frame := by
    rintro s₁ ⟨hcurrent, hframe⟩
    split
    · exact ⟨hcurrent, fun t => (schedWakeup_frame s₁ r t).trans (hframe t)⟩
    · exact ⟨hcurrent, hframe⟩
  apply hwake _
  split
  · exact ⟨rfl, fun t => (modify_frame (by simp) _ t).trans (modify_frame (by simp) _ t)⟩
  · exact ⟨rfl, modify_frame (by simp) _⟩

/-- Nor does accepting one. -/
theorem ipcAccept_frame {s s' : IpcState} {r x : Tid} (h : s.ipcAccept r = some (x, s')) (t : Tid) :
    (s'.thread t).frame = (s.thread t).frame := by
  rw [ipcAccept] at h
  split at h
  next snd rest hqueue =>
    obtain ⟨queues, -, h⟩ := Option.bind_eq_some_iff.mp h
    obtain ⟨-, rfl⟩ := Prod.mk.inj (Option.some.inj h)
    -- waking the sender changes no frame, and nor does what is stored before
    have hwake : ∀ s₁ : IpcState, (s₁.thread t).frame = (s.thread t).frame →
        ((if (s₁.thread snd).epState ≠ .waitRecv ∧ (s₁.thread snd).state = .blocked then
          s₁.schedWakeup snd else s₁).thread t).frame = (s.thread t).frame := by
      intro s₁ hs₁
      split
      · exact (schedWakeup_frame s₁ snd t).trans hs₁
      · exact hs₁
    apply hwake _
    split
    · exact (modify_frame (by simp) _ t).trans (modify_frame (by simp) _ t)
    · exact modify_frame (by simp) _ t
  next => cases h

/-- Nor does a message that is handed over. -/
theorem handOver_frame {s s' : IpcState} {T : Tid} {words : Words} {q : BitVec 64} {b : Bool}
    (h : s.handOver T words q = some (s', b)) :
    s'.current = s.current ∧ ∀ t, (s'.thread t).frame = (s.thread t).frame := by
  rw [handOver] at h
  split at h
  · obtain ⟨s₁, hdeliver, h⟩ := Option.bind_eq_some_iff.mp h
    obtain ⟨rfl, -⟩ := Prod.mk.inj (Option.some.inj h)
    exact deliver_frame hdeliver
  · obtain ⟨queues, -, h⟩ := Option.bind_eq_some_iff.mp h
    obtain ⟨rfl, -⟩ := Prod.mk.inj (Option.some.inj h)
    refine ⟨rfl, fun t => ?_⟩
    dsimp only
    rw [modify_frame (by simp), modify_frame (by simp)]

/-- Nor does a reply. -/
theorem reply_frame {s s' : IpcState} {words : Words} (h : s.reply words = some s') :
    s'.current = s.current ∧ ∀ t, (s'.thread t).frame = (s.thread t).frame := by
  rw [reply] at h
  split at h
  · exact deliver_frame h
  · obtain rfl := Option.some.inj h
    exact ⟨rfl, fun _ => rfl⟩

/-! ### Whole runs

The invariant of linked queues gives the representation invariant of the endpoints. -/

/-- Without any messages yet, no queue has a thread. -/
theorem Fresh.linked {s : IpcState} (h : s.Fresh) : s.Linked := by
  obtain ⟨hqueues, hthread⟩ := h
  have hwaits : ∀ t, s.waits t = none := fun t => waits_of_not_blocked (hthread t).1
  have hslots : ∀ t, s.slot t = none := fun t => slot_of_not_blocked (hthread t).1
  constructor <;> simp_all [ListStore.empty]

/-- Every state of a run of orderly operations is linked. -/
theorem Run.linked {cond : IpcState → Op → Prop} (hcond : ∀ s op, cond s op → s.Orderly op)
    {s₀ s : IpcState} {log : List Event} (h₀ : s₀.Fresh) (hrun : Run cond s₀ s log) :
    s.Linked := by
  induction hrun with
  | init => exact h₀.linked
  | switch _ ht ih => exact ih.switchTo ht
  | exec _ henabled hop hexec ih =>
      obtain ⟨s', events, hs', hlinked, -⟩ := ih.exec henabled (hcond _ _ hop)
      rw [hexec] at hs'
      cases hs'
      exact hlinked

/-- The representation invariant of the endpoints. -/
structure Rep (s : IpcState) : Prop where
  inactive_iff : ∀ T, (s.thread T).epState = .inactive ↔ s.queues.queue T = []
  waitSend : ∀ T, (s.thread T).epState = .waitSend → ∀ n ∈ s.queues.queue T,
    ∃ t, t ≠ T ∧ n = .ipcList t ∧ (s.thread t).state = .blocked ∧
      ((s.thread t).frame = some (.send T) ∨ ∃ q x, (s.thread t).frame = some (.call T q x))
  waitRecv : ∀ T, (s.thread T).epState = .waitRecv → (s.thread T).state = .blocked ∧
    ∃ n, s.queues.queue T = [n] ∧ (n = .ipcList T ∨ n = .ipcWaitList T)
  linked_once : ∀ n T T', n ∈ s.queues.queue T → n ∈ s.queues.queue T' → T = T'
  nodup : ∀ T, (s.queues.queue T).Nodup

/-- A linked state in which nobody sends to itself satisfies the representation invariant. -/
theorem Linked.rep {s : IpcState} (h : s.Linked)
    (hself : ∀ t T, s.waits t = some (.send T) → T ≠ t) : s.Rep where
  inactive_iff := h.inactive_iff
  waitSend T hT n hn := by
    obtain ⟨t, rfl, hwaits⟩ := h.mem_queue_waitSend hT hn
    -- nobody waits to send to itself, and a call to oneself is refused
    have hne : T ≠ t := by
      rcases hwaits with hsend | ⟨q, x, hcall⟩
      · exact hself t T hsend
      · exact h.call_ne t T q x hcall
    grind [waits]
  waitRecv T hT := by
    obtain ⟨n, hslot⟩ := Option.ne_none_iff_exists'.mp ((h.waitRecv_iff T).mp hT)
    exact ⟨blocked_of_slot hslot, n, h.queue_slot T n hslot, slot_eq_or hslot⟩
  linked_once n T T' hT hT' := by
    have := (ListStore.home_of_mem hT).symm.trans (ListStore.home_of_mem hT')
    exact Option.some.inj this
  nodup := s.queues.nodup

/-- The operation does not target the thread that executes it. -/
def NotSelf (s : IpcState) (op : Op) : Prop := op.target ≠ some s.current

/-- In every run in which nobody targets itself, calls while senders are queued at its own endpoint
or is handed something while its own request is queued, the endpoints are well formed in every
state, and no list operation is applied to a node it must not be applied to. -/
theorem rep_of_run {s₀ s : IpcState} {log : List Event} (h₀ : s₀.Fresh)
    (hrun : Run (fun s op => s.NotSelf op ∧ s.Orderly op) s₀ s log) :
    s.Rep ∧ ∀ op, s.Enabled op → s.NotSelf op ∧ s.Orderly op → (s.exec op).isSome := by
  have hlinked : s.Linked := hrun.linked (fun _ _ hop => hop.2) h₀
  refine ⟨hlinked.rep ?_, fun op henabled hop => ?_⟩
  · clear hlinked
    induction hrun with
    | init => simp [waits_of_not_blocked (h₀.thread_fresh _).1]
    | switch _ ht ih =>
        intro t T hwaits
        rw [waits_switchTo ht] at hwaits
        exact ih t T hwaits
    | exec hrun henabled hop hexec ih =>
        have hlinked := hrun.linked (fun _ _ hop => hop.2) h₀
        obtain ⟨s', events, hs', -, hsend⟩ := hlinked.exec henabled hop.2
        rw [hexec] at hs'
        cases hs'
        intro t T hwaits
        -- a thread waits to send as before, or because of the operation, which is not to itself
        rcases hsend t T hwaits with hold | ⟨rfl, htarget⟩
        · exact ih t T hold
        · rintro rfl
          exact hop.1 htarget
  · obtain ⟨s', events, hs', -⟩ := hlinked.exec henabled hop.2
    rw [hs']
    rfl

instance (s : IpcState) (r : Tid) : Decidable (s.Vacant r) :=
  decidable_of_iff (s.queues.home (.ipcList r) = none ∨ s.queues.home (.ipcList r) = some r) (by
    unfold Vacant
    cases s.queues.home (.ipcList r) <;> simp)

instance (s : IpcState) : (op : Op) → Decidable (s.Orderly op)
  | .send _ _ => inferInstanceAs (Decidable (_ → _))
  | .call _ _ => inferInstanceAs (Decidable (_ ∧ _))
  | .replyRecv _ => decidable_of_iff (s.replyDest.all (fun C => decide (s.Vacant C)) = true)
      (by simp [Orderly, Option.all_eq_true])
  | .recv | .resume => inferInstanceAs (Decidable True)

instance (s : IpcState) (op : Op) : Decidable (s.NotSelf op) :=
  inferInstanceAs (Decidable (_ ≠ _))

/-- Two clients call a server, which answers the first and accepts the second. -/
theorem rep_of_run_server : ∃ s log, boot.Fresh ∧
    Run (fun s op => s.NotSelf op ∧ s.Orderly op) boot s log ∧
    (s.queues.queue 2 = [.ipcWaitList 2] ∧ (s.thread 1).ipcMsg = word 7) ∧ s.Rep := by
  obtain ⟨s, log, hrun, hcheck⟩ := exists_run_of_execAll
    (fun s op => s.NotSelf op ∧ s.Orderly op)
    [.exec .recv, .switch 1, .exec (.call 0 (word 1)), .switch 2, .exec (.call 0 (word 2)),
      .switch 0, .exec .resume, .exec (.replyRecv (word 7))]
    (fun x => decide (x.1.queues.queue 2 = [.ipcWaitList 2] ∧ (x.1.thread 1).ipcMsg = word 7))
    (by decide +kernel)
  exact ⟨s, log, boot_fresh, hrun, of_decide_eq_true hcheck, (rep_of_run boot_fresh hrun).1⟩

/-- A thread that has a sender queued calls another one: its endpoint says that it waits, and its
own node is behind the sender's. -/
theorem call_behind_sender : ∃ s log, boot.Fresh ∧ Run NotSelf boot s log ∧ ¬ s.Rep := by
  obtain ⟨s, log, hrun, hcheck⟩ := exists_run_of_execAll NotSelf
    [.exec (.send 1 (word 1)), .switch 1, .exec (.call 2 (word 2))]
    (fun x => decide ((x.1.thread 1).epState = .waitRecv ∧
      x.1.queues.queue 1 = [.ipcList 0, .ipcWaitList 1]))
    (by decide +kernel)
  obtain ⟨hep, hqueue⟩ := of_decide_eq_true hcheck
  refine ⟨s, log, boot_fresh, hrun, fun hrep => ?_⟩
  obtain ⟨-, n, hn, -⟩ := hrep.waitRecv 1 hep
  rw [hqueue] at hn
  simp at hn

end IpcState

end Koharu
