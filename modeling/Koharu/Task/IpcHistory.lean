import Koharu.Task.IpcInvariant

/-!
# What the events of a run say about its state

`issues T log` are the messages sent to `T` so far, `receipts T log` those `T` has received. Under
the discipline of `IpcState.Disciplined`, the two differ exactly by the message in `T`'s buffer
and those queued at `T`, in this order (`History.account`): nothing is lost, duplicated or
reordered.

A call is identified by its place in the log. `CallOpen`, `CallReceived` and `CallAnswered` follow
it from `ipc_call` to the `ipc_reply_recv` that answers it, with no event of the caller in
between. `History.context` is the invariant behind the sequence numbers: a thread that could
reply (`ipc_prev_seq` is not `0`) has received the call its `ipc_sender` is blocked in.
-/

namespace Koharu

/-- A message as its receiver records it: the sender, the sequence number of the call or `0`, and
the words. -/
abbrev Msg := Tid × BitVec 64 × Words

namespace Event

/-- The thread whose operation an event belongs to. -/
def actor : Event → Tid
  | sent t _ _ | called t _ _ _ | received t _ _ _ | replied t _ _ | returned t _ _ _ => t

/-- The message an event sends to `T`. -/
def issuedTo (T : Tid) : Event → Option Msg
  | sent t target words => if target = T then some (t, 0, words) else none
  | called t target seq words => if target = T then some (t, seq, words) else none
  | _ => none

/-- The message `T` receives by an event. -/
def receivedBy (T : Tid) : Event → Option Msg
  | received t sender seq words => if t = T then some (sender, seq, words) else none
  | _ => none

/-- An event of `C`, or a reply delivered to `C`. -/
def Touches (C : Tid) (e : Event) : Prop :=
  e.actor = C ∨ ∃ t words, e = replied t (some C) words

/-- A request is issued by the thread that it names as its sender. -/
theorem actor_of_issuedTo {T : Tid} {e : Event} {m : Msg} (h : e.issuedTo T = some m) :
    e.actor = m.1 := by
  cases e <;> grind [issuedTo, actor]

end Event

/-- The messages sent to `T`, in the order they were sent. -/
def issues (T : Tid) (log : List Event) : List Msg := log.filterMap (Event.issuedTo T)

/-- The messages `T` received, in the order it received them. -/
def receipts (T : Tid) (log : List Event) : List Msg := log.filterMap (Event.receivedBy T)

/-- The requests issued in a longer log are those of its two parts in order. -/
@[simp]
theorem issues_append (T : Tid) (l l' : List Event) :
    issues T (l ++ l') = issues T l ++ issues T l' := List.filterMap_append

/-- The requests received in a longer log are those of its two parts in order. -/
@[simp]
theorem receipts_append (T : Tid) (l l' : List Event) :
    receipts T (l ++ l') = receipts T l ++ receipts T l' := List.filterMap_append

/-- Nothing in `l` is an event of `C` or a reply delivered to `C`. -/
def Quiet (C : Tid) (l : List Event) : Prop := ∀ e ∈ l, ¬ e.Touches C

/-- Nothing of an empty log touches a thread. -/
@[simp]
theorem quiet_nil (C : Tid) : Quiet C [] := by simp [Quiet]

/-- A log is quiet when both of its parts are. -/
@[simp]
theorem quiet_append {C : Tid} {l l' : List Event} :
    Quiet C (l ++ l') ↔ Quiet C l ∧ Quiet C l' := List.forall_mem_append

/-- A log is quiet when its first event and the rest are. -/
@[simp]
theorem quiet_cons {C : Tid} {e : Event} {l : List Event} :
    Quiet C (e :: l) ↔ ¬ e.Touches C ∧ Quiet C l := List.forall_mem_cons

/-- While `C` is quiet it sends nothing. -/
theorem Quiet.sender_ne {C T : Tid} {l : List Event} (h : Quiet C l) :
    ∀ m ∈ issues T l, m.1 ≠ C := by
  intro m hm hC
  obtain ⟨e, he, hissued⟩ := List.mem_filterMap.mp hm
  exact h e he (Or.inl ((Event.actor_of_issuedTo hissued).trans hC))

/-! ### The stations of a call

Where a call is can be read off the log: sent, received, or answered. -/

/-- `C` has called `T`, and nothing has happened to `C` since. -/
def CallOpen (log : List Event) (C T : Tid) (seq : BitVec 64) (words : Words) : Prop :=
  ∃ l₁ l₂, log = l₁ ++ .called C T seq words :: l₂ ∧ Quiet C l₂

/-- `T` has received this very call of `C`, and no other message since. The call is the one
numbered by the messages sent to `T` before it, and the receipt has the same number. -/
def CallReceived (log : List Event) (C T : Tid) (seq : BitVec 64) (words : Words) : Prop :=
  ∃ l₁ l₂ l₃, log = l₁ ++ .called C T seq words :: (l₂ ++ .received T C seq words :: l₃) ∧
    Quiet C (l₂ ++ l₃) ∧ receipts T l₃ = [] ∧
    (issues T l₁).length = (receipts T (l₁ ++ l₂)).length

/-- `T` has answered the call of `C` that was the last message it had received, with `words`. -/
def CallAnswered (log : List Event) (C T : Tid) (words : Words) : Prop :=
  ∃ l l' seq sent, log = l ++ .replied T (some C) words :: l' ∧ CallReceived l C T seq sent ∧
    Quiet C l'

section Stations

variable {log l : List Event} {C T : Tid} {seq : BitVec 64} {words : Words}

/-- An open call stays open while the log is quiet about its client. -/
theorem CallOpen.append (h : CallOpen log C T seq words) (hl : Quiet C l) :
    CallOpen (log ++ l) C T seq words := by
  obtain ⟨l₁, l₂, rfl, hquiet⟩ := h
  exact ⟨l₁, l₂ ++ l, by simp, by simp [hquiet, hl]⟩

/-- A call that was received stays so while the log is quiet about its client and the server
receives nothing new. -/
theorem CallReceived.append (h : CallReceived log C T seq words) (hl : Quiet C l)
    (hreceipts : receipts T l = []) : CallReceived (log ++ l) C T seq words := by
  obtain ⟨l₁, l₂, l₃, rfl, hquiet, hlast, hcount⟩ := h
  refine ⟨l₁, l₂, l₃ ++ l, by simp, ?_, by simp [hlast, hreceipts], hcount⟩
  simp only [quiet_append] at hquiet ⊢
  exact ⟨hquiet.1, hquiet.2, hl⟩

/-- An answered call stays answered while the log is quiet about its client. -/
theorem CallAnswered.append (h : CallAnswered log C T words) (hl : Quiet C l) :
    CallAnswered (log ++ l) C T words := by
  obtain ⟨l₁, l₂, seq, sent, rfl, hreceived, hquiet⟩ := h
  exact ⟨l₁, l₂ ++ l, seq, sent, by simp, hreceived, by simp [hquiet, hl]⟩

/-- The reply to a received call answers it. -/
theorem CallReceived.answered {sent : Words} (h : CallReceived log C T seq sent)
    (words : Words) : CallAnswered (log ++ [.replied T (some C) words]) C T words :=
  ⟨log, [], seq, sent, rfl, h, quiet_nil C⟩

/-- A received call is the last message its target has received. -/
theorem CallReceived.getLast?_receipts (h : CallReceived log C T seq words) :
    (receipts T log).getLast? = some (C, seq, words) := by
  obtain ⟨l₁, l₂, l₃, rfl, -, hlast, -⟩ := h
  have hreceipts : receipts T (l₁ ++ .called C T seq words ::
      (l₂ ++ .received T C seq words :: l₃)) =
      receipts T (l₁ ++ l₂) ++ [(C, seq, words)] := by
    unfold receipts at hlast
    simp [receipts, List.filterMap_cons, Event.receivedBy, hlast]
  rw [hreceipts, List.getLast?_concat]

end Stations

/-- In two splits of one list at an element that satisfies `p`, with none after it that does, the
parts agree. -/
theorem append_cons_inj_of_last {α : Type*} {p : α → Prop} {a b : α} {l₁ l₂ r₁ r₂ : List α}
    (h : l₁ ++ a :: l₂ = r₁ ++ b :: r₂) (ha : p a) (hb : p b) (hl : ∀ x ∈ l₂, ¬ p x)
    (hr : ∀ x ∈ r₂, ¬ p x) : l₁ = r₁ ∧ a = b ∧ l₂ = r₂ := by
  -- a split further left or right would put one of the two behind the other
  rcases List.append_eq_append_iff.mp h with ⟨m, rfl, hm⟩ | ⟨m, rfl, hm⟩
  · cases m with
    | nil => simpa using hm
    | cons c m =>
        have : b ∈ l₂ := by
          rw [List.cons_append, List.cons.injEq] at hm
          rw [hm.2]
          simp
        exact absurd hb (hl b this)
  · cases m with
    | nil =>
        have := hm.symm
        simp_all
    | cons c m =>
        have : a ∈ r₂ := by
          rw [List.cons_append, List.cons.injEq] at hm
          rw [hm.2]
          simp
        exact absurd ha (hr a this)

/-- When `T` receives the last message it was sent by `C`, and `C` has called `T` and done nothing
since, then that call is what `T` receives. -/
theorem CallOpen.receive {log : List Event} {C T : Tid} {seq seq' : BitVec 64}
    {words words' : Words} {later : List Msg} (h : CallOpen log C T seq words)
    (haccount : issues T log = receipts T log ++ (C, seq', words') :: later)
    (hlater : ∀ m ∈ later, m.1 ≠ C) :
    CallReceived (log ++ [.received T C seq' words']) C T seq' words' := by
  obtain ⟨l₁, l₂, rfl, hquiet⟩ := h
  have hissues : issues T (l₁ ++ .called C T seq words :: l₂) =
      issues T l₁ ++ (C, seq, words) :: issues T l₂ := by
    simp [issues, Event.issuedTo]
  have hreceipts : receipts T (l₁ ++ .called C T seq words :: l₂) = receipts T (l₁ ++ l₂) := by
    simp [receipts, List.filterMap_cons, Event.receivedBy]
  rw [hissues] at haccount
  -- both lists have one last entry from `C`, so that it is the same one
  obtain ⟨hcount, hmsg, -⟩ := append_cons_inj_of_last (p := fun m : Msg => m.1 = C) haccount
    rfl rfl hquiet.sender_ne hlater
  obtain ⟨rfl, rfl⟩ : seq = seq' ∧ words = words' := by simpa using hmsg
  refine ⟨l₁, l₂, [], by simp, by simpa using hquiet, rfl, ?_⟩
  rw [hcount, hreceipts]

namespace IpcState

/-! ### Messages on the way

Messages that have been announced and not returned yet lie in a buffer, in a queue, or in the hands
of an operation. -/

/-- The thread is inside `ipc_recv` or `ipc_reply_recv`. -/
def Receiving (s : IpcState) (t : Tid) : Prop :=
  (s.thread t).frame = some .recv ∨ (s.thread t).frame = some .replyRecv

instance (s : IpcState) (t : Tid) : Decidable (s.Receiving t) :=
  inferInstanceAs (Decidable (_ ∨ _))

/-- The message delivered to `T` that its operation has not returned yet. -/
def buffer (s : IpcState) (T : Tid) : List Msg :=
  if (s.thread T).state ≠ .blocked ∧ s.Receiving T then
    [((s.thread T).ipcSender, (s.thread T).ipcPrevSeq, (s.thread T).ipcMsg)]
  else []

/-- The message of a queued sender. -/
def msgOf (s : IpcState) : Node → Option Msg
  | .ipcList x => some (x, s.seqOf x, (s.thread x).ipcMsg)
  | .ipcWaitList _ => none

/-- The messages queued at `T`. -/
def requests (s : IpcState) (T : Tid) : List Msg :=
  if (s.thread T).epState = .waitSend then (s.queues.queue T).filterMap s.msgOf else []

/-- The thread `S` would reply to: across a nested call, the saved `ipc_sender`. -/
def client (s : IpcState) (S : Tid) : Tid :=
  match (s.thread S).frame with
  | some (.call _ _ savedSender) => savedSender
  | _ => (s.thread S).ipcSender

/-- The client of a server is read from its frame and its `ipc_sender` only. -/
theorem client_congr {s s' : IpcState} {S : Tid} (hframe : (s'.thread S).frame = (s.thread S).frame)
    (hsender : (s'.thread S).ipcSender = (s.thread S).ipcSender) : s'.client S = s.client S := by
  rw [client, client, hframe, hsender]

/-- A nested call keeps the client. -/
theorem client_reserved {s : IpcState} {T : Tid}
    {hn : s.queues.home (.ipcWaitList s.current) = none} (hframe : s.cur.frame = none) (S : Tid) :
    (s.reserved T hn).client S = s.client S := by
  by_cases hc : S = s.current
  · subst hc
    unfold cur at hframe
    simp [client, hframe, cur]
  · exact client_congr (by simp [hc]) (by simp)

/-- The client of a thread that takes a message is the one in its `ipc_sender`. -/
theorem client_of_receiving {s : IpcState} {S : Tid} (h : s.Receiving S) :
    s.client S = (s.thread S).ipcSender := by
  rcases h with hf | hf <;> rw [client, hf]

/-- The buffer of a thread depends on the thread alone. -/
theorem buffer_congr {s s' : IpcState} {T : Tid}
    (hstate : (s'.thread T).state = .blocked ↔ (s.thread T).state = .blocked)
    (hframe : (s'.thread T).frame = (s.thread T).frame)
    (hmsg : (s.thread T).state ≠ .blocked → s.Receiving T →
      (s'.thread T).ipcSender = (s.thread T).ipcSender ∧
      (s'.thread T).ipcPrevSeq = (s.thread T).ipcPrevSeq ∧
      (s'.thread T).ipcMsg = (s.thread T).ipcMsg) : s'.buffer T = s.buffer T := by
  grind [buffer, Receiving]

/-- A blocked thread has no message of its own in hand. -/
theorem buffer_of_blocked {s : IpcState} {T : Tid} (h : (s.thread T).state = .blocked) :
    s.buffer T = [] := by
  rw [buffer, if_neg (by simp [h])]

/-- Nor has a thread that is not in the middle of a receive. -/
theorem buffer_of_not_receiving {s : IpcState} {T : Tid} (h : ¬ s.Receiving T) :
    s.buffer T = [] := by
  rw [buffer, if_neg (by simp [h])]

/-- A thread whose slot holds its own list node is receiving. -/
theorem receiving_of_slot {s : IpcState} {t : Tid} (h : s.slot t = some (.ipcList t)) :
    s.Receiving t := by
  grind [slot_eq_list_iff, waits, Receiving]

/-- A thread that waits in a frame is blocked in it. -/
theorem frame_of_waits {s : IpcState} {t : Tid} {f : Frame} (h : s.waits t = some f) :
    (s.thread t).state = .blocked ∧ (s.thread t).frame = some f := by
  grind [waits]

/-- Nobody is queued at a thread that is not in `IPC_EP_WAIT_SEND`. -/
theorem requests_of_ne {s : IpcState} {T : Tid} (h : (s.thread T).epState ≠ .waitSend) :
    s.requests T = [] := if_neg h

/-- The messages queued at `T` depend on its endpoint and on the queued threads only. -/
theorem requests_congr {s s' : IpcState} {T : Tid}
    (hep : (s'.thread T).epState = .waitSend ↔ (s.thread T).epState = .waitSend)
    (hqueue : s'.queues.queue T = s.queues.queue T)
    (hmsg : ∀ x, s.queues.home (.ipcList x) = some T → s'.seqOf x = s.seqOf x ∧
      (s'.thread x).ipcMsg = (s.thread x).ipcMsg) : s'.requests T = s.requests T := by
  have hfilter : (s.queues.queue T).filterMap s'.msgOf = (s.queues.queue T).filterMap s.msgOf := by
    apply List.filterMap_congr
    intro n hn
    cases n with
    | ipcWaitList x => rfl
    | ipcList x =>
        obtain ⟨hseq, hwords⟩ := hmsg x (ListStore.home_of_mem hn)
        simp [msgOf, hseq, hwords]
  simp only [requests, hep, hqueue, hfilter]

/-- The messages queued at `T` come from threads queued there. -/
theorem home_of_mem_requests {s : IpcState} {T : Tid} {m : Msg} (h : m ∈ s.requests T) :
    s.queues.home (.ipcList m.1) = some T := by
  rw [requests] at h
  split at h
  next =>
    obtain ⟨n, hn, hm⟩ := List.mem_filterMap.mp h
    cases n with
    | ipcWaitList x => cases hm
    | ipcList x =>
        obtain rfl := Option.some.inj hm
        exact ListStore.home_of_mem hn
  next => simp at h

section Requests

variable {s : IpcState} (h : s.Linked)

include h

/-- Handing a message to a thread that receives changes the pending requests of no server. -/
theorem requests_handed {r x : Tid} {words : Words} {prevSeq : Option (BitVec 64)} {n : Node}
    (hslot : s.slot r = some n) (hn : s.queues.home n = some r) (hvacant : s.Vacant r) (T : Tid) :
    (s.handed r x words prevSeq n hn).requests T = s.requests T := by
  have hep := (h.waitRecv_iff r).mpr (by simp [hslot])
  by_cases hT : T = r
  · subst hT
    rw [requests_of_ne (by simp), requests_of_ne (by simp [hep])]
  · apply requests_congr (by simp [hT]) (by simp [hT])
    intro y hy
    have hyr : y ≠ r := by
      rintro rfl
      exact hT (hvacant T hy)
    simp [seqOf, hyr]

/-- Nor does taking a place among the waiters of a server. -/
theorem requests_reserved (hcur : s.cur.state ≠ .blocked) (hep : s.cur.epState ≠ .waitSend)
    {T : Tid} (hn : s.queues.home (.ipcWaitList s.current) = none) (T' : Tid) :
    (s.reserved T hn).requests T' = s.requests T' := by
  by_cases hT : T' = s.current
  · subst hT
    rw [requests_of_ne (by simp), requests_of_ne hep]
  · apply requests_congr (by simp [hT]) (by simp [hT])
    intro y hy
    have hyc : y ≠ s.current := by
      rintro rfl
      rw [(h.home_of_not_blocked hcur).1] at hy
      cases hy
    simp [seqOf, hyc]

omit h in
/-- Nor does it change anything that a thread begins to listen. -/
theorem requests_listening (hep : s.cur.epState ≠ .waitSend)
    {f : Frame} (hn : s.queues.home (.ipcList s.current) = none) (T : Tid) :
    (s.listening f hn).requests T = s.requests T := by
  by_cases hT : T = s.current
  · subst hT
    rw [requests_of_ne (by simp), requests_of_ne hep]
  · apply requests_congr (by simp [hT]) (by simp [hT])
    intro y hy
    have hyc : y ≠ s.current := by
      rintro rfl
      rw [hn] at hy
      cases hy
    simp [seqOf, hyc]

/-- A queued message is the last of the pending requests of its target, and of that target alone. -/
theorem requests_queued {T : Tid} {words : Words} {f : Frame}
    (hn : s.queues.home (.ipcList s.current) = none) (hT : s.slot T = none) (T' : Tid) :
    (s.queued T words f hn).requests T' = if T' = T then
      s.requests T ++ [(s.current, (s.queued T words f hn).seqOf s.current, words)]
    else s.requests T' := by
  have hep : (s.thread T).epState ≠ .waitRecv := by simp [h.waitRecv_iff, hT]
  -- messages that are queued already stay as they are
  have hmsg : ∀ x T'', s.queues.home (.ipcList x) = some T'' →
      (s.queued T words f hn).msgOf (.ipcList x) = s.msgOf (.ipcList x) := by
    intro x T'' hx
    have hxc : x ≠ s.current := by
      rintro rfl
      rw [hn] at hx
      cases hx
    by_cases hxT : x = T <;> simp_all [msgOf, seqOf]
  split
  next hT' =>
    subst hT'
    have hold : (s.queues.queue T').filterMap (s.queued T' words f hn).msgOf = s.requests T' := by
      -- an endpoint that nobody waits at has an empty queue
      by_cases hsend : (s.thread T').epState = .waitSend
      · rw [requests, if_pos hsend]
        apply List.filterMap_congr
        intro n hn'
        cases n with
        | ipcWaitList x => rfl
        | ipcList x => exact hmsg x T' (ListStore.home_of_mem hn')
      · have hempty : s.queues.queue T' = [] := by
          rw [← h.inactive_iff]
          cases hst : (s.thread T').epState <;> simp_all
        rw [requests_of_ne hsend, hempty]
        rfl
    rw [requests, if_pos (by simp)]
    simp only [queued_queues, ListStore.snocAt_queue, Function.update_self, List.filterMap_append,
      hold]
    simp [msgOf]
  next hT' =>
    apply requests_congr (by simp [hT']) (by simp [hT'])
    intro y hy
    have := hmsg y T' hy
    simpa [msgOf] using this

/-- Taking a sender off the queue of the current thread leaves the messages queued elsewhere. -/
theorem msgOf_accepted (hcur : s.cur.state ≠ .blocked) {x y T : Tid}
    (hx : s.queues.home (.ipcList x) = some s.current) (hy : s.queues.home (.ipcList y) = some T) :
    (s.accepted x hx).msgOf (.ipcList y) = s.msgOf (.ipcList y) := by
  have hyc : y ≠ s.current := by
    rintro rfl
    rw [(h.home_of_not_blocked hcur).1] at hy
    cases hy
  simp [msgOf, seqOf, hyc]

/-- The message taken is the first of the current thread's pending requests; the rest stay in order.
-/
theorem requests_accepted (hcur : s.cur.state ≠ .blocked) (hep : s.cur.epState = .waitSend)
    {x : Tid} {rest : List Node} (hx : s.queues.home (.ipcList x) = some s.current)
    (hqueue : s.queues.queue s.current = .ipcList x :: rest) :
    s.requests s.current = (x, s.seqOf x, (s.thread x).ipcMsg) ::
      (s.accepted x hx).requests s.current := by
  have hrest : (s.accepted x hx).queues.queue s.current = rest := by simp [hqueue]
  -- the messages of the others do not change when the first is taken
  have hfilter : rest.filterMap (s.accepted x hx).msgOf = rest.filterMap s.msgOf := by
    apply List.filterMap_congr
    intro n hn
    cases n with
    | ipcWaitList y => rfl
    | ipcList y =>
        refine msgOf_accepted h hcur hx (ListStore.home_of_mem (h := s.current) ?_)
        rw [hqueue]
        exact List.mem_cons_of_mem _ hn
  have hafter : (s.accepted x hx).requests s.current = rest.filterMap s.msgOf := by
    rw [requests, hrest, hfilter]
    -- with the last one gone the endpoint is inactive, and nothing is requested
    by_cases hlast : rest = []
    · subst hlast
      simp
    · rw [if_pos]
      rw [cur] at hep
      simpa [hqueue, hlast] using hep
  unfold cur at hep
  rw [hafter, requests, if_pos hep, hqueue]
  simp [msgOf]

/-- The pending requests of the other servers are not touched by it. -/
theorem requests_accepted_of_ne (hcur : s.cur.state ≠ .blocked) {x T : Tid}
    (hx : s.queues.home (.ipcList x) = some s.current) (hT : T ≠ s.current) :
    (s.accepted x hx).requests T = s.requests T := by
  apply requests_congr (by simp [hT]) (by simp [hT])
  intro y hy
  simpa [msgOf] using msgOf_accepted h hcur hx hy

/-- Going on after `sched_block` leaves the queued messages alone. -/
theorem requests_resume (hcur : s.cur.state = .running) (f : Frame) (T : Tid) :
    (s.resume f).1.requests T = s.requests T := by
  have hthread := resume_thread (s := s) f
  refine requests_congr ?_ (by simp) fun y hy => ?_
  · obtain ⟨x, hx⟩ := hthread T
    rw [hx]
    by_cases hT : T = s.current <;> simp [hT, cur]
  · have hyc : y ≠ s.current := by
      rintro rfl
      rw [(h.home_current hcur).1] at hy
      cases hy
    obtain ⟨x, hx⟩ := hthread y
    rw [if_neg hyc] at hx
    simp [seqOf, hx]

end Requests

/-! ### The invariant

How the fields of the threads and the queues follow from the log. -/

/-- What a thread knows about the call it may reply to. -/
structure Context (s : IpcState) (log : List Event) (S : Tid) : Prop where
  /-- The last message `S` received is the one it has recorded. -/
  last : ¬ s.Receiving S → ∀ m, (receipts S log).getLast? = some m →
    s.client S = m.1 ∧ (s.thread S).ipcPrevSeq = m.2.1
  /-- The client is blocked in that very call. -/
  waiting : ¬ ((s.thread S).state = .blocked ∧ s.Receiving S) → (s.thread S).ipcPrevSeq ≠ 0 →
    (∃ x, s.waits (s.client S) = some (.call S (s.thread S).ipcPrevSeq x)) ∧
      s.queues.home (.ipcList (s.client S)) = none ∧
      (¬ s.Receiving S → ∃ words,
        CallReceived log (s.client S) S (s.thread S).ipcPrevSeq words)

/-- The state that the events `log` lead to. `flight` are the messages an operation has announced
and not handed over yet, and `known` the threads whose context is known: all of them, but for a
thread in the middle of `ipc_reply_recv`. -/
structure History (s : IpcState) (log : List Event) (known : Tid → Prop)
    (flight : Tid → List Msg) : Prop where
  linked : s.Linked
  account : ∀ T, issues T log = receipts T log ++ s.buffer T ++ s.requests T ++ flight T
  open_call : ∀ C T q x, s.waits C = some (.call T q x) →
    (s.thread C).ipcCallSeq = q ∧ ∃ words, CallOpen log C T q words
  answered_call : ∀ C T q x, (s.thread C).state ≠ .blocked →
    (s.thread C).frame = some (.call T q x) →
      (s.thread C).ipcSender = T ∧ CallAnswered log C T (s.thread C).ipcMsg
  context : ∀ S, known S → s.Context log S

/-- One message is on its way. -/
def oneFlight (T : Tid) (m : Msg) (T' : Tid) : List Msg := if T' = T then [m] else []

/-- No message is on its way. -/
def noFlight (_ : Tid) : List Msg := []

namespace Context

variable {s s' : IpcState} {log l : List Event} {S : Tid}

/-- Events that do not touch the client, and no receipts of `S`, leave the context as it is. -/
theorem append (h : s.Context log S)
    (hquiet : ∀ q x, s.waits (s.client S) = some (.call S q x) → Quiet (s.client S) l)
    (hreceipts : receipts S l = []) : s.Context (log ++ l) S := by
  constructor
  · simpa [hreceipts] using h.last
  · intro hnot hprev
    obtain ⟨⟨x, hx⟩, hhome, hreceived⟩ := h.waiting hnot hprev
    refine ⟨⟨x, hx⟩, hhome, fun hrecv => ?_⟩
    obtain ⟨words, hwords⟩ := hreceived hrecv
    exact ⟨words, hwords.append (hquiet _ x hx) hreceipts⟩

/-- A step that neither changes what `S` has recorded nor wakes or queues its client leaves the
context as it is. -/
theorem frame (h : s.Context log S) (hclient : s'.client S = s.client S)
    (hprev : (s'.thread S).ipcPrevSeq = (s.thread S).ipcPrevSeq)
    (hrecv : s'.Receiving S ↔ s.Receiving S)
    (hblocked : s.Receiving S →
      ((s'.thread S).state = .blocked ↔ (s.thread S).state = .blocked))
    (hwaits : ¬ ((s.thread S).state = .blocked ∧ s.Receiving S) →
      (s.thread S).ipcPrevSeq ≠ 0 → ∀ q x, s.waits (s.client S) = some (.call S q x) →
      s.queues.home (.ipcList (s.client S)) = none →
        s'.waits (s.client S) = s.waits (s.client S) ∧
          s'.queues.home (.ipcList (s.client S)) = none) : s'.Context log S := by
  -- whether the server is waiting to receive does not change
  have hnot : ¬ ((s'.thread S).state = .blocked ∧ s'.Receiving S) ↔
      ¬ ((s.thread S).state = .blocked ∧ s.Receiving S) := by grind
  constructor
  · rw [hrecv, hclient, hprev]
    exact h.last
  · rw [hnot, hprev, hclient, hrecv]
    intro hn hp
    obtain ⟨⟨x, hx⟩, hhome, hreceived⟩ := h.waiting hn hp
    obtain ⟨hsame, hhome'⟩ := hwaits hn hp _ x hx hhome
    exact ⟨⟨x, hsame.trans hx⟩, hhome', hreceived⟩

/-- A thread that is not blocked is nobody's client. -/
theorem client_ne (h : s.Context log S)
    (hnot : ¬ ((s.thread S).state = .blocked ∧ s.Receiving S))
    (hprev : (s.thread S).ipcPrevSeq ≠ 0) {t : Tid} (ht : (s.thread t).state ≠ .blocked) :
    s.client S ≠ t := by
  rintro rfl
  obtain ⟨⟨x, hx⟩, -⟩ := h.waiting hnot hprev
  rw [waits_of_not_blocked ht] at hx
  cases hx

end Context

namespace History

variable {s : IpcState} {log : List Event} {known : Tid → Prop}

/-- A history stays one when fewer servers are known. -/
theorem mono {flight : Tid → List Msg} {known' : Tid → Prop} (h : s.History log known flight)
    (hknown : ∀ S, known' S → known S) : s.History log known' flight :=
  ⟨h.linked, h.account, h.open_call, h.answered_call, fun S hS => h.context S (hknown S hS)⟩

/-- Events that do not touch a thread inside an operation, and are no receipts, may be added. -/
theorem append {flight flight' : Tid → List Msg} {l : List Event}
    (h : s.History log known flight) (hquiet : ∀ C, (s.thread C).frame ≠ none → Quiet C l)
    (hreceipts : ∀ T, receipts T l = []) (hflight : ∀ T, flight T ++ issues T l = flight' T) :
    s.History (log ++ l) known flight' := by
  refine ⟨h.linked, fun T => ?_, fun C T q x hwaits => ?_, fun C T q x hstate hcall => ?_,
    fun S hS => (h.context S hS).append (fun q x hx => hquiet _ ?_) (hreceipts S)⟩
  · rw [issues_append, receipts_append, h.account T, hreceipts, ← hflight]
    simp
  · obtain ⟨hseq, words, hopen⟩ := h.open_call C T q x hwaits
    exact ⟨hseq, words, hopen.append (hquiet C (by simp [(frame_of_waits hwaits).2]))⟩
  · obtain ⟨hsender, hanswered⟩ := h.answered_call C T q x hstate hcall
    exact ⟨hsender, hanswered.append (hquiet C (by simp [hcall]))⟩
  · simp [(frame_of_waits hx).2]

/-- A message in flight is handed to a thread that waits for one. -/
theorem handed {r x : Tid} {q : BitVec 64} {words : Words}
    (h : s.History log known (oneFlight r (x, q, words))) (hr : s.slot r = some (.ipcList r))
    (hn : s.queues.home (.ipcList r) = some r)
    (hx : q ≠ 0 → (∃ y, s.waits x = some (.call r q y)) ∧ s.queues.home (.ipcList x) = none) :
    (s.handed r x words (some q) (.ipcList r) hn).History log known noFlight := by
  -- the node of a thread that receives is in its own list, alone
  have hvacant : s.Vacant r := by
    intro T hT
    rw [hn] at hT
    exact (Option.some.inj hT).symm
  have hblocked := blocked_of_slot hr
  have hrecv := receiving_of_slot hr
  have hcall : ∀ f, s.waits r = some f → ∀ T q y, f ≠ .call T q y := by
    grind [slot_eq_list_iff]
  refine ⟨h.linked.handed hr hn hvacant, fun T => ?_, fun C T q' y hwaits => ?_,
    fun C T q' y hstate hframe => ?_, fun S hS => ?_⟩
  -- the message leaves the flight and is in the buffer of the receiver
  · rw [requests_handed h.linked hr hn hvacant, h.account T]
    by_cases hT : T = r
    · subst hT
      have hep := (h.linked.waitRecv_iff T).mpr (by simp [hr])
      have hrequests : s.requests T = [] := requests_of_ne (by simp [hep])
      rw [buffer_of_blocked hblocked, hrequests, buffer,
        if_pos (by simpa [Receiving] using hrecv)]
      simp [oneFlight, noFlight]
    · have hbuffer : (s.handed r x words (some q) (.ipcList r) hn).buffer T = s.buffer T :=
        buffer_congr (by simp [hT]) (by simp) (by simp [hT])
      simp [hbuffer, oneFlight, noFlight, hT]
  · rw [waits_handed] at hwaits
    have hC : C ≠ r := by grind
    simpa [hC] using h.open_call C T q' y (by grind)
  · have hC : C ≠ r := by
      rintro rfl
      grind [Receiving, handed_thread_frame]
    simpa [hC] using h.answered_call C T q' y (by simpa [hC] using hstate)
      (by simpa using hframe)
  · by_cases hSr : S = r
    · subst hSr
      have hrecv' : (s.handed S x words (some q) (.ipcList S) hn).Receiving S := by
        simpa [Receiving] using hrecv
      have hclient : (s.handed S x words (some q) (.ipcList S) hn).client S = x := by
        simp [client_of_receiving hrecv']
      refine ⟨fun hnot => absurd hrecv' hnot, fun _ hprev => ?_⟩
      -- the receiver serves the sender now, which waits for it with a call
      have hq : q ≠ 0 := by simpa using hprev
      obtain ⟨⟨y, hy⟩, hhome⟩ := hx hq
      have hxS : x ≠ S := by
        rintro rfl
        exact hcall _ hy x q y rfl
      rw [hclient]
      refine ⟨⟨y, ?_⟩, ?_, fun hnot => absurd hrecv' hnot⟩
      · rw [waits_handed, if_neg hxS]
        simpa using hy
      · simp [hxS, hhome]
    · refine (h.context S hS).frame (client_congr (by simp) (by simp [hSr])) (by simp [hSr])
        (by simp [Receiving]) (by simp [hSr]) fun _ _ q' y hy hhome => ?_
      -- the clients of the other servers are callers, and the receiver is none
      have hC : s.client S ≠ r := by
        intro heq
        rw [heq] at hy
        exact hcall _ hy S q' y rfl
      exact ⟨by rw [waits_handed, if_neg hC], by simp [hC, hhome]⟩

/-- The thread that the current one would reply to is blocked in the call it has received. -/
theorem context_current {C : Tid} (h : s.History log (fun _ => True) noFlight)
    (hframe : s.cur.frame = none) (hC : C = s.cur.ipcSender) (hprev : s.cur.ipcPrevSeq ≠ 0) :
    (∃ y, s.waits C = some (.call s.current s.cur.ipcPrevSeq y)) ∧
      s.queues.home (.ipcList C) = none ∧
      ∃ words, CallReceived log C s.current s.cur.ipcPrevSeq words := by
  unfold cur at hframe
  have hrecv : ¬ s.Receiving s.current := by simp [Receiving, hframe]
  have hclient : s.client s.current = C := by rw [client, hframe, hC, cur]
  obtain ⟨hwaits, hhome, hreceived⟩ := (h.context s.current trivial).waiting
    (fun hb => hrecv hb.2) hprev
  rw [hclient] at hwaits hhome hreceived
  exact ⟨hwaits, hhome, hreceived hrecv⟩

/-- A reply wakes its client. Afterwards the replier's context is used up. -/
theorem replied {C : Tid} {n : Node} {words : Words}
    (h : s.History log (fun _ => True) noFlight) (hcur : s.cur.state = .running)
    (hframe : s.cur.frame = none) (hC : C = s.cur.ipcSender) (hprev : s.cur.ipcPrevSeq ≠ 0)
    (hslot : s.slot C = some n) (hn : s.queues.home n = some C) :
    (s.handed C s.current words none n hn).History
      (log ++ [.replied s.current (some C) words]) (· ≠ s.current) noFlight := by
  have hnot : s.cur.state ≠ .blocked := by simp [hcur]
  obtain ⟨⟨y, hy⟩, hhome, words₀, hreceived⟩ := h.context_current hframe hC hprev
  obtain ⟨hblocked, hframeC⟩ := frame_of_waits hy
  have hvacant : s.Vacant C := by simp [Vacant, hhome]
  have hquiet : ∀ C', C' ≠ s.current → C' ≠ C →
      Quiet C' [.replied s.current (some C) words] := by
    intro C' hc hC'
    simp [Event.Touches, Event.actor, hc.symm, hC'.symm]
  have hne : ∀ C' f, s.waits C' = some f → C' ≠ s.current :=
    fun _ _ => ne_current_of_waits hnot
  -- the accounts, the open calls, the answered calls and the contexts of the other servers
  refine ⟨h.linked.handed hslot hn hvacant, fun T => ?_, fun C' T q x hwaits => ?_,
    fun C' T q x hstate hcall => ?_, fun S hS => ?_⟩
  -- nobody is in the middle of a receive, so no buffer changes
  · have hbuffer : (s.handed C s.current words none n hn).buffer T = s.buffer T := by
      by_cases hT : T = C
      · subst hT
        rw [buffer_of_not_receiving (by simp [Receiving, hframeC]),
          buffer_of_not_receiving (by simp [Receiving, hframeC])]
      · exact buffer_congr (by simp [hT]) (by simp) (by simp [hT])
    have := h.account T
    rw [requests_handed h.linked hslot hn hvacant, hbuffer, issues_append, receipts_append, this]
    simp [issues, receipts, Event.issuedTo, Event.receivedBy, noFlight, List.filterMap_cons]
  · rw [waits_handed] at hwaits
    have hCC : C' ≠ C := by grind
    rw [if_neg hCC] at hwaits
    obtain ⟨hseq, words', hopen⟩ := h.open_call C' T q x hwaits
    exact ⟨by simpa [hCC] using hseq, words', hopen.append (hquiet C' (hne C' _ hwaits) hCC)⟩
  -- the caller is the one that is answered now, others were answered before
  · by_cases hCC : C' = C
    · subst hCC
      obtain rfl : T = s.current := by
        rw [handed_thread_frame, hframeC] at hcall
        simp only [Option.some.injEq, Frame.call.injEq] at hcall
        exact hcall.1.symm
      exact ⟨by simp, by simpa using hreceived.answered words⟩
    · obtain ⟨hsender, hanswered⟩ := h.answered_call C' T q x (by simpa [hCC] using hstate)
        (by simpa using hcall)
      refine ⟨by simpa [hCC] using hsender, ?_⟩
      have hcc : C' ≠ s.current := by
        rintro rfl
        unfold cur at hframe
        simp [hframe] at hcall
      simpa [hCC] using hanswered.append (hquiet C' hcc hCC)
  -- the caller that another server is to answer is not `C`, which waits for the current thread
  · have hother : ∀ q x, s.waits (s.client S) = some (.call S q x) → s.client S ≠ C := by
      intro q x hx heq
      rw [heq, hy] at hx
      simp only [Option.some.injEq, Frame.call.injEq] at hx
      exact hS hx.1.symm
    refine Context.frame (s := s) ?_ ?_ (by simp) (by simp [Receiving]) ?_ ?_
    · exact (h.context S trivial).append
        (fun q x hx => hquiet _ (hne _ _ hx) (hother q x hx)) rfl
    · by_cases hSC : S = C
      · subst hSC
        simp [client, hframeC]
      · exact client_congr (by simp) (by simp [hSC])
    · intro hrecvS
      have hSC : S ≠ C := by
        rintro rfl
        simp [Receiving, hframeC] at hrecvS
      simp [hSC]
    · intro _ _ q x hx hhomeS
      have := hother q x hx
      exact ⟨by rw [waits_handed, if_neg this], by grind [handed_queues]⟩

/-- A message in flight is queued behind the others. -/
theorem queued {T : Tid} {q : BitVec 64} {words : Words} {f : Frame}
    (h : s.History log known (oneFlight T (s.current, q, words))) (hT : s.slot T = none)
    (hn : s.queues.home (.ipcList s.current) = none)
    (hf : s.cur.state ≠ .blocked ∧ s.cur.frame = none ∧ f = .send T ∧ q = 0 ∨
      ∃ x, s.waits s.current = some f ∧ f = .call T q x)
    (hfresh : ∀ S, known S → ¬ ((s.thread S).state = .blocked ∧ s.Receiving S) →
      (s.thread S).ipcPrevSeq ≠ 0 → s.client S ≠ s.current) :
    (s.queued T words f hn).History log known noFlight := by
  have hrecv : ¬ s.Receiving s.current ∧ ¬ (s.queued T words f hn).Receiving s.current := by
    rcases hf with ⟨-, hframe, rfl, -⟩ | ⟨x, hx, rfl⟩
    · unfold cur at hframe
      simp [Receiving, hframe]
    · simp [Receiving, (frame_of_waits hx).2]
  have hclient : (s.queued T words f hn).client s.current = s.client s.current := by
    rcases hf with ⟨-, hframe, rfl, -⟩ | ⟨x, hx, rfl⟩
    · unfold cur at hframe
      simp [client, hframe]
    · simp [client, (frame_of_waits hx).2]
  -- a plain send has no sequence number, a call has the one that its thread waits with
  have hseq : (s.queued T words f hn).seqOf s.current = q := by
    rcases hf with ⟨hnot, -, rfl, rfl⟩ | ⟨x, hx, rfl⟩
    · have := h.linked.waitRecv_ne hnot
      by_cases hc : s.current = T <;> simp_all [seqOf]
    · have hep : (s.thread s.current).epState = .waitRecv := by
        rw [h.linked.waitRecv_iff, slot, hx]
        simp [Frame.slot]
      have hcT : s.current ≠ T := by
        rintro rfl
        exact (h.linked.waitRecv_iff s.current).mp hep hT
      simp [seqOf, hcT, hep, (h.open_call _ _ _ _ hx).1]
  have hlinked : (s.queued T words f hn).Linked := by
    apply h.linked.queued hn hT
    rcases hf with ⟨hnot, -, hsend, -⟩ | ⟨x, hx, hcall⟩
    · exact Or.inl ⟨hnot, hsend⟩
    · exact Or.inr ⟨hx, q, x, hcall⟩
  refine ⟨hlinked, fun T' => ?_, fun C T' q' x hwaits => ?_,
    fun C T' q' x hstate hcall => ?_, fun S hS => ?_⟩
  -- the message leaves the flight and is the last pending request of its target
  · have hbuffer : (s.queued T words f hn).buffer T' = s.buffer T' := by
      by_cases hc : T' = s.current
      · subst hc
        rw [buffer_of_not_receiving hrecv.1, buffer_of_not_receiving hrecv.2]
      · exact buffer_congr (by simp [hc]) (by simp [hc]) (by simp [hc])
    rw [requests_queued h.linked hn hT, hbuffer, hseq, h.account T']
    by_cases hT' : T' = T
    · subst hT'
      simp [oneFlight, noFlight]
    · simp [oneFlight, noFlight, hT']
  · have hold : s.waits C = some (.call T' q' x) := by
      rw [waits_queued] at hwaits
      grind
    simpa using h.open_call C T' q' x hold
  · have hc : C ≠ s.current := by
      rintro rfl
      simp at hstate
    simpa [hc] using h.answered_call C T' q' x (by simpa [hc] using hstate)
      (by simpa [hc] using hcall)
  · refine (h.context S hS).frame ?_ (by simp) ?_ ?_ fun hnot hprev q' x hx hhome => ?_
    · by_cases hc : S = s.current
      · rw [hc, hclient]
      · exact client_congr (by simp [hc]) (by simp)
    · by_cases hc : S = s.current
      · rw [hc]
        exact iff_of_false hrecv.2 hrecv.1
      · simp [Receiving, hc]
    · intro hrecvS
      have hc : S ≠ s.current := by
        rintro rfl
        exact hrecv.1 hrecvS
      simp [hc]
    -- no server serves the sender, so no context looks at its node
    · have hne := hfresh S hS hnot hprev
      exact ⟨by rw [waits_queued, if_neg hne], by simp [hne, hhome]⟩

/-- The current thread waits for the next message. -/
theorem listening {f : Frame} (h : s.History log (· ≠ s.current) noFlight)
    (hcur : s.cur.state ≠ .blocked) (hframe : s.cur.frame = none)
    (hep : s.cur.epState ≠ .waitSend) (hf : f = .recv ∨ f = .replyRecv)
    (hn : s.queues.home (.ipcList s.current) = none) :
    (s.listening f hn).History log (fun _ => True) noFlight := by
  have hslot : f.slot s.current = some (.ipcList s.current) := by
    rcases hf with rfl | rfl <;> rfl
  have hrecv : ¬ s.Receiving s.current := by
    unfold cur at hframe
    simp [Receiving, hframe]
  have hne : ∀ C f, s.waits C = some f → C ≠ s.current :=
    fun _ _ => ne_current_of_waits hcur
  -- nothing is sent or answered here, only the current thread comes to wait
  refine ⟨h.linked.listening hcur hep hslot hn, fun T => ?_, fun C T q x hwaits => ?_,
    fun C T q x hstate hcall => ?_, fun S _ => ?_⟩
  · have hbuffer : (s.listening f hn).buffer T = s.buffer T := by
      by_cases hc : T = s.current
      · subst hc
        rw [buffer_of_not_receiving hrecv, buffer_of_blocked (by simp)]
      · exact buffer_congr (by simp [hc]) (by simp [hc]) (by simp)
    rw [requests_listening hep hn, hbuffer, h.account T]
  · have hold : s.waits C = some (.call T q x) := by
      rw [waits_listening] at hwaits
      grind
    have hc := hne C _ hold
    simpa using h.open_call C T q x hold
  · have hc : C ≠ s.current := by
      rintro rfl
      simp at hstate
    simpa using h.answered_call C T q x (by simpa [hc] using hstate) (by simpa [hc] using hcall)
  · by_cases hc : S = s.current
    · subst hc
      have hrecv' : (s.listening f hn).Receiving s.current := by
        rcases hf with rfl | rfl <;> simp [Receiving]
      exact ⟨fun hnot => absurd hrecv' hnot, fun hnot => absurd ⟨by simp, hrecv'⟩ hnot⟩
    · refine (h.context S hc).frame (client_congr (by simp [hc]) (by simp)) (by simp)
        (by simp [Receiving, hc]) (by simp [hc]) fun _ _ q x hx hhome => ?_
      have := hne _ _ hx
      exact ⟨by rw [waits_listening, if_neg this], by simp [this, hhome]⟩

/-- The current thread has announced a call and reserves its reply slot. -/
theorem reserved {T : Tid} {flight : Tid → List Msg} {words : Words}
    (h : s.History log known flight) (hcur : s.cur.state ≠ .blocked) (hframe : s.cur.frame = none)
    (hep : s.cur.epState ≠ .waitSend) (hT : T ≠ s.current)
    (hn : s.queues.home (.ipcWaitList s.current) = none)
    (hopen : CallOpen log s.current T (s.cur.ipcCallSeq + 1) words) :
    (s.reserved T hn).History log known flight := by
  have hrecv : ¬ s.Receiving s.current ∧ ¬ (s.reserved T hn).Receiving s.current := by
    unfold cur at hframe
    simp [Receiving, hframe]
  refine ⟨h.linked.reserved hcur hep hT hn, fun T' => ?_, fun C T' q x hwaits => ?_,
    fun C T' q x hstate hcall => ?_, fun S hS => ?_⟩
  · have hbuffer : (s.reserved T hn).buffer T' = s.buffer T' := by
      by_cases hc : T' = s.current
      · subst hc
        rw [buffer_of_not_receiving hrecv.1, buffer_of_not_receiving hrecv.2]
      · exact buffer_congr (by simp [hc]) (by simp [hc]) (by simp)
    rw [requests_reserved h.linked hcur hep hn, hbuffer, h.account T']
  -- the caller waits with the new call, which has just been logged
  · rw [waits_reserved] at hwaits
    by_cases hc : C = s.current
    · subst hc
      rw [if_pos rfl] at hwaits
      simp only [Option.some.injEq, Frame.call.injEq] at hwaits
      obtain ⟨rfl, rfl, -⟩ := hwaits
      exact ⟨by simp, words, hopen⟩
    · rw [if_neg hc] at hwaits
      simpa [hc] using h.open_call C T' q x hwaits
  · have hc : C ≠ s.current := by
      rintro rfl
      simp at hstate
    simpa using h.answered_call C T' q x (by simpa [hc] using hstate) (by simpa [hc] using hcall)
  · refine (h.context S hS).frame (client_reserved hframe S) (by simp) ?_ ?_
      fun hnot hprev q x hx hhome => ?_
    · by_cases hc : S = s.current
      · rw [hc]
        exact iff_of_false hrecv.2 hrecv.1
      · simp [Receiving, hc]
    · intro hrecvS
      have hc : S ≠ s.current := by
        rintro rfl
        exact hrecv.1 hrecvS
      simp [hc]
    -- the thread that runs is no server's client
    · have hne := (h.context S hS).client_ne hnot hprev hcur
      exact ⟨by rw [waits_reserved, if_neg hne], by simp [hhome]⟩

/-- The current thread accepts the first message of its queue. -/
theorem accepted {x : Tid} {rest : List Node} (h : s.History log (· ≠ s.current) noFlight)
    (hcur : s.cur.state ≠ .blocked) (hframe : s.cur.frame = none)
    (hep : s.cur.epState = .waitSend) (hx : s.queues.home (.ipcList x) = some s.current)
    (hqueue : s.queues.queue s.current = .ipcList x :: rest) :
    (s.accepted x hx).History
      (log ++ [.received s.current x (s.seqOf x) (s.thread x).ipcMsg])
      (fun _ => True) noFlight := by
  have hrecv : ¬ s.Receiving s.current := by
    unfold cur at hframe
    simp [Receiving, hframe]
  have hne : ∀ C f, s.waits C = some f → C ≠ s.current :=
    fun _ _ => ne_current_of_waits hcur
  -- `x` is blocked sending to, or calling, the current thread
  obtain ⟨t, ht, hwx⟩ := h.linked.mem_queue_waitSend hep ((s.queues.mem_queue _ _).mpr hx)
  obtain rfl : x = t := by simpa using ht
  have hxr : ¬ s.Receiving x := by
    rcases hwx with hw | ⟨q, y, hw⟩ <;> simp [Receiving, (frame_of_waits hw).2]
  have hxe : (s.thread x).epState = .waitRecv ↔ ∃ q y, s.waits x = some (.call s.current q y) := by
    rw [h.linked.waitRecv_iff, slot]
    rcases hwx with hw | ⟨q, y, hw⟩ <;> simp [hw, Frame.slot]
  have hquiet : ∀ C, C ≠ s.current →
      Quiet C [.received s.current x (s.seqOf x) (s.thread x).ipcMsg] := by
    intro C hC
    simp [Event.Touches, Event.actor, hC.symm]
  have hreceipts : ∀ T, receipts T [.received s.current x (s.seqOf x) (s.thread x).ipcMsg] =
      if T = s.current then [(x, s.seqOf x, (s.thread x).ipcMsg)] else [] := by
    intro T
    by_cases hT : T = s.current <;>
      simp [receipts, Event.receivedBy, hT, eq_comm]
  have haccount := h.account s.current
  rw [buffer_of_not_receiving hrecv, requests_accepted h.linked hcur hep hx hqueue] at haccount
  have hlinked := h.linked.accepted hcur hep hx
  refine ⟨hlinked, fun T => ?_, fun C T q y hwaits => ?_, fun C T q y hstate hcall => ?_,
    fun S _ => ?_⟩
  · rw [issues_append, receipts_append, hreceipts]
    by_cases hT : T = s.current
    · subst hT
      rw [haccount, buffer_of_not_receiving (by simpa [Receiving] using hrecv)]
      simp [noFlight, issues, Event.issuedTo, List.filterMap_cons]
    · have hbuffer : (s.accepted x hx).buffer T = s.buffer T := by
        by_cases hTx : T = x
        · subst hTx
          rw [buffer_of_not_receiving hxr,
            buffer_of_not_receiving (by simpa [Receiving] using hxr)]
        · exact buffer_congr (by simp [hTx]) (by simp) (by simp [hT])
      rw [requests_accepted_of_ne h.linked hcur hx hT, hbuffer, h.account T]
      simp [noFlight, issues, Event.issuedTo, List.filterMap_cons, hT]
  · have hold : s.waits C = some (.call T q y) := by
      rw [waits_accepted] at hwaits
      grind
    obtain ⟨hseq, words, hopen⟩ := h.open_call C T q y hold
    exact ⟨by simpa using hseq, words, hopen.append (hquiet C (hne C _ hold))⟩
  · have hc : C ≠ s.current := by
      rintro rfl
      unfold cur at hframe
      simp [hframe] at hcall
    have hcall' : (s.thread C).frame = some (.call T q y) := by simpa using hcall
    have hstate' : (s.thread C).state ≠ .blocked := by
      intro hb
      have hw : s.waits C = some (.call T q y) := by rw [waits, if_pos hb, hcall']
      grind [accepted_thread_state]
    obtain ⟨hsender, hanswered⟩ := h.answered_call C T q y hstate' hcall'
    exact ⟨by simpa [hc] using hsender, by simpa [hc] using hanswered.append (hquiet C hc)⟩
  · by_cases hc : S = s.current
    · subst hc
      have hclient : (s.accepted x hx).client s.current = x := by
        unfold cur at hframe
        simp [client, hframe]
      constructor
      · intro _ m hm
        rw [receipts_append, hreceipts, if_pos rfl, List.getLast?_concat] at hm
        obtain rfl := Option.some.inj hm
        exact ⟨hclient, by simp⟩
      · intro _ hprev
        have hprev' : s.seqOf x ≠ 0 := by simpa using hprev
        have hxep : (s.thread x).epState = .waitRecv := by
          by_contra hnot
          exact hprev' (if_neg hnot)
        obtain ⟨q, y, hw⟩ := hxe.mp hxep
        obtain ⟨hseq, words, hopen⟩ := h.open_call x _ q y hw
        have hq : s.seqOf x = q := by rw [seqOf, if_pos hxep, hseq]
        have hgone : (s.accepted x hx).queues.home (.ipcList x) = none := by simp
        rw [hclient]
        refine ⟨⟨y, ?_⟩, hgone, fun _ => ⟨(s.thread x).ipcMsg, ?_⟩⟩
        · rw [waits_accepted, if_neg (by simp [hxep]), hw]
          simp [hq]
        · have := hopen.receive (by simpa [noFlight] using haccount) fun m hm => ?_
          · simpa using this
          · rintro rfl
            rw [home_of_mem_requests hm] at hgone
            cases hgone
    · have hother : ∀ q y, s.waits (s.client S) = some (.call S q y) → s.client S ≠ x := by
        grind
      refine Context.frame (s := s) ?_ (client_congr (by simp) (by simp [hc])) (by simp [hc])
        (by simp [Receiving]) ?_ ?_
      · exact (h.context S hc).append (fun q y hy => hquiet _ (hne _ _ hy))
          (by rw [hreceipts, if_neg hc])
      · intro hrecvS
        have hSx : S ≠ x := by
          rintro rfl
          exact hxr hrecvS
        simp [hSx]
      · intro _ _ q y hy hhome
        have := hother q y hy
        exact ⟨by rw [waits_accepted, if_neg (by simp [this])], by simp [this, hhome]⟩

/-- The current thread returns from an operation: it leaves its frame, and what it receives was in
its buffer. -/
theorem leave {s' : IpcState} {x : Tid} {l : List Event}
    (h : s.History log (fun _ => True) noFlight) (hcur : s.cur.state = .running)
    (hlinked : s'.Linked) (hqueues : s'.queues = s.queues)
    (hother : ∀ t ≠ s.current, s'.thread t = s.thread t)
    (hthread : s'.thread s.current = { s.cur with ipcSender := x, frame := none })
    (hquiet : ∀ C ≠ s.current, Quiet C l) (hissues : ∀ T, issues T l = [])
    (hreceipts : ∀ S, receipts S l = if S = s.current then s.buffer s.current else [])
    (hcontext : s'.Context (log ++ l) s.current) :
    s'.History (log ++ l) (fun _ => True) noFlight := by
  have hnot : s.cur.state ≠ .blocked := by simp [hcur]
  have hne : ∀ C f, s.waits C = some f → C ≠ s.current :=
    fun _ _ => ne_current_of_waits hnot
  -- the current thread was not waiting, and the others are as before
  have hwaits : ∀ t, s'.waits t = s.waits t := by
    intro t
    by_cases ht : t = s.current
    · subst ht
      rw [waits_of_not_blocked hnot, waits_of_not_blocked (by rw [hthread]; exact hnot)]
    · rw [waits, waits, hother t ht]
  refine ⟨hlinked, fun T => ?_, fun C T q y hw => ?_, fun C T q y hstate hcall => ?_,
    fun S _ => ?_⟩
  -- what was in the buffer has been received, the queues are the same
  · have hrequests : s'.requests T = s.requests T := by
      refine requests_congr ?_ (by rw [hqueues]) fun y hy => ?_
      · by_cases hT : T = s.current
        · subst hT
          rw [hthread, cur]
        · rw [hother T hT]
      · have hyc : y ≠ s.current := by
          rintro rfl
          rw [(h.linked.home_of_not_blocked hnot).1] at hy
          cases hy
        simp [seqOf, hother y hyc]
    have hbuffer : receipts T l ++ s'.buffer T = s.buffer T := by
      rw [hreceipts]
      by_cases hT : T = s.current
      · subst hT
        rw [if_pos rfl, buffer_of_not_receiving (s := s') (by simp [Receiving, hthread]),
          List.append_nil]
      · rw [if_neg hT, List.nil_append]
        exact buffer_congr (by rw [hother T hT]) (by rw [hother T hT])
          (fun _ _ => by rw [hother T hT]; simp)
    rw [issues_append, receipts_append, hissues, hrequests, h.account T, ← hbuffer]
    simp [noFlight]
  · rw [hwaits] at hw
    have hc := hne C _ hw
    -- calls stay open, since the log is quiet about their callers
    obtain ⟨hseq, words, hopen⟩ := h.open_call C T q y hw
    exact ⟨by rw [hother C hc]; exact hseq, words, hopen.append (hquiet C hc)⟩
  · have hc : C ≠ s.current := by
      rintro rfl
      rw [hthread] at hcall
      cases hcall
    rw [hother C hc] at hstate hcall ⊢
    obtain ⟨hsender, hanswered⟩ := h.answered_call C T q y hstate hcall
    exact ⟨hsender, hanswered.append (hquiet C hc)⟩
  · by_cases hc : S = s.current
    · rw [hc]
      exact hcontext
    · refine Context.frame (s := s) ?_ (client_congr (by rw [hother S hc]) (by rw [hother S hc]))
        (by rw [hother S hc]) (by simp [Receiving, hother S hc]) (by simp [hother S hc]) ?_
      · exact (h.context S trivial).append (fun q y hy => hquiet _ (hne _ _ hy))
          (by rw [hreceipts, if_neg hc])
      · intro _ _ q y hy hhome
        exact ⟨hwaits _, by rw [hqueues]; exact hhome⟩

/-- The current thread returns from `ipc_recv` or `ipc_reply_recv` with the message in its
buffer. -/
theorem receive (h : s.History log (fun _ => True) noFlight) (hcur : s.cur.state = .running)
    (hrecv : s.Receiving s.current) :
    (s.modify s.current fun th => { th with frame := none }).History
      (log ++ [.received s.current s.cur.ipcSender s.cur.ipcPrevSeq s.cur.ipcMsg])
      (fun _ => True) noFlight := by
  have hnot : s.cur.state ≠ .blocked := by simp [hcur]
  -- what is received is the only message in the buffer
  have hbuffer : s.buffer s.current = [(s.cur.ipcSender, s.cur.ipcPrevSeq, s.cur.ipcMsg)] := by
    rw [buffer, if_pos ⟨hnot, hrecv⟩]
    rfl
  have hlinked : (s.modify s.current fun th => { th with frame := none }).Linked := by
    rcases hrecv with hf | hf
    · exact h.linked.resume hcur .recv
    · exact h.linked.resume hcur .replyRecv
  have hreceipts : ∀ S, receipts S
      [.received s.current s.cur.ipcSender s.cur.ipcPrevSeq s.cur.ipcMsg] =
      if S = s.current then s.buffer s.current else [] := by
    intro S
    rw [hbuffer]
    by_cases hS : S = s.current <;> simp [receipts, Event.receivedBy, hS, eq_comm]
  have hclient : (s.modify s.current fun th => { th with frame := none }).client s.current =
      s.cur.ipcSender := by
    simp [client, modify_thread, cur]
  refine h.leave hcur (x := s.cur.ipcSender) hlinked rfl (fun t ht => by simp [modify_thread, ht])
    (by simp [modify_thread, cur]) (fun C hC => ?_) (fun _ => rfl) hreceipts ⟨?_, ?_⟩
  · simp [Event.Touches, Event.actor, hC.symm]
  · intro _ m hm
    rw [receipts_append, hreceipts, if_pos rfl, hbuffer, List.getLast?_concat] at hm
    obtain rfl := Option.some.inj hm
    exact ⟨hclient, by simp [modify_thread, cur]⟩
  · intro _ hprev
    have hprev' : (s.thread s.current).ipcPrevSeq ≠ 0 := by simpa [modify_thread] using hprev
    obtain ⟨⟨x, hx⟩, hhome, -⟩ := (h.context s.current trivial).waiting
      (fun hb => hnot hb.1) hprev'
    rw [client_of_receiving hrecv, ← cur] at hx hhome
    obtain ⟨-, words, hopen⟩ := h.open_call _ _ _ x hx
    have hwaits := waits_resume hcur .recv
    -- the received message is that of the client's open call
    have haccount : issues s.current log = receipts s.current log ++
        (s.cur.ipcSender, s.cur.ipcPrevSeq, s.cur.ipcMsg) :: s.requests s.current := by
      simpa [noFlight, hbuffer] using h.account s.current
    have hreceived := hopen.receive haccount fun m hm => ?_
    · rw [hclient]
      refine ⟨⟨x, (hwaits _).trans (by simpa [modify_thread, cur] using hx)⟩, hhome, fun _ =>
        ⟨s.cur.ipcMsg, by simpa [modify_thread, cur] using hreceived⟩⟩
    -- a client that waits for this server is not queued anywhere
    · rintro hm'
      have := home_of_mem_requests hm
      rw [hm', hhome] at this
      cases this

/-- The current thread goes on after its `sched_block`. -/
theorem resume {f : Frame} (h : s.History log (fun _ => True) noFlight)
    (hcur : s.cur.state = .running) (hframe : s.cur.frame = some f) :
    (s.resume f).1.History (log ++ (s.resume f).2) (fun _ => True) noFlight := by
  have hnot : s.cur.state ≠ .blocked := by simp [hcur]
  unfold cur at hframe
  cases f with
  | recv => exact h.receive hcur (Or.inl hframe)
  | replyRecv => exact h.receive hcur (Or.inr hframe)
  -- A send has nothing to return, a call returns the reply that woke it.
  | send T =>
      have hrecv : ¬ s.Receiving s.current := by simp [Receiving, hframe]
      refine h.leave hcur (x := s.cur.ipcSender) (h.linked.resume hcur _) rfl
        (fun t ht => by simp [IpcState.resume, modify_thread, ht])
        (by simp [IpcState.resume, modify_thread, cur]) (fun C _ => quiet_nil C) (fun _ => rfl)
        (fun S => by simp [receipts, buffer_of_not_receiving hrecv, IpcState.resume]) ?_
      refine Context.frame (s := s) (by simpa [IpcState.resume] using h.context s.current trivial)
        ?_ ?_ ?_ ?_ ?_
      · simp [client, IpcState.resume, modify_thread, hframe]
      · simp [IpcState.resume, modify_thread]
      · simp [Receiving, IpcState.resume, modify_thread, hframe]
      · simp [IpcState.resume, modify_thread]
      · exact fun _ _ q x hx hhome => ⟨waits_resume hcur _ _, hhome⟩
  | call T q x =>
      have hrecv : ¬ s.Receiving s.current := by simp [Receiving, hframe]
      have hquiet : ∀ C ≠ s.current, Quiet C (s.resume (.call T q x)).2 := by
        intro C hC
        simp [IpcState.resume, Event.Touches, Event.actor, hC.symm]
      refine h.leave hcur (x := x) (h.linked.resume hcur _) rfl
        (fun t ht => by simp [IpcState.resume, modify_thread, ht])
        (by simp [IpcState.resume, modify_thread, cur]) hquiet (fun _ => rfl)
        (fun S => by simp [receipts, buffer_of_not_receiving hrecv, IpcState.resume,
          Event.receivedBy, List.filterMap_cons]) ?_
      refine Context.frame (s := s) ((h.context s.current trivial).append ?_ rfl) ?_ ?_ ?_ ?_ ?_
      · intro q' y hy
        apply hquiet _
        intro hc
        rw [hc, waits_of_not_blocked hnot] at hy
        cases hy
      · simp [client, IpcState.resume, modify_thread, hframe]
      · simp [IpcState.resume, modify_thread]
      · simp [Receiving, IpcState.resume, modify_thread, hframe]
      · simp [IpcState.resume, modify_thread]
      · exact fun _ _ q x hx hhome => ⟨waits_resume hcur _ _, hhome⟩

/-- Scheduling changes nothing that messages depend on. -/
theorem switchTo {t : Tid} (h : s.History log known noFlight) (ht : (s.thread t).state = .ready) :
    (s.switchTo t).History log known noFlight := by
  -- only the states of the two threads change, and whether one is blocked does not
  have hthread : ∀ u, ∃ st, (s.switchTo t).thread u = { s.thread u with state := st } ∧
      (st = .blocked ↔ (s.thread u).state = .blocked) := by
    intro u
    obtain ⟨st, hst, hblocked⟩ := switchTo_thread (s := s) t u
    exact ⟨st, hst, hblocked ht⟩
  choose st hst hblocked using hthread
  refine ⟨h.linked.switchTo ht, fun T => ?_, fun C T q y hw => ?_,
    fun C T q y hstate hcall => ?_, fun S hS => ?_⟩
  · have hrequests : (s.switchTo t).requests T = s.requests T :=
      requests_congr (by rw [hst]) (by simp) fun y _ => by simp [seqOf, hst]
    have hbuffer : (s.switchTo t).buffer T = s.buffer T :=
      buffer_congr (by rw [hst]; exact hblocked T) (by rw [hst]) (by simp [hst])
    rw [hrequests, hbuffer, h.account T]
  · rw [waits_switchTo ht] at hw
    rw [hst]
    exact h.open_call C T q y hw
  · rw [hst] at hstate hcall ⊢
    exact h.answered_call C T q y (fun hb => hstate ((hblocked C).mpr hb)) hcall
  · refine (h.context S hS).frame (client_congr (by rw [hst]) (by rw [hst])) (by rw [hst])
      (by simp [Receiving, hst]) (by simp [hst, hblocked]) fun _ _ q y hy hhome => ?_
    exact ⟨waits_switchTo ht _, by simpa using hhome⟩

end History

end IpcState

end Koharu
