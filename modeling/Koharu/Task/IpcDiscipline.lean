import Koharu.Task.IpcHistory

/-!
# Disciplined use of the endpoints

`ipc.c` uses one state, `IPC_EP_WAIT_RECV`, and one buffer both for a thread that waits for a
request and for a thread that waits for a reply. `IpcState.Disciplined` is what keeps the two
apart: nobody sends to a thread that is blocked in `ipc_call`, and nobody calls while senders are
queued at its own endpoint.

A disciplined operation succeeds and extends the history (`History.exec`), so the invariant of
`Koharu.Task.IpcHistory` holds along every disciplined run (`Run.history`).
-/

namespace Koharu

namespace IpcState

/-- The thread is blocked in `ipc_call`. -/
def InCall (s : IpcState) (T : Tid) : Prop := ∃ T' q x, s.waits T = some (.call T' q x)

/-- Nobody sends to a thread that waits for a reply, and nobody calls with senders queued at its
own endpoint. The message of a call of oneself would end up in one's own reply slot. -/
def Disciplined (s : IpcState) : Op → Prop
  | .send T _ => ¬ s.InCall T
  | .call T _ => T ≠ s.current ∧ s.cur.epState ≠ .waitSend ∧ ¬ s.InCall T
  | .recv | .replyRecv _ | .resume => True

/-- The current thread takes the message `m` off its queue and returns with it. -/
def Accepts (s s' : IpcState) (events : List Event) (T : Tid) (m : Msg) : Prop :=
  s.current = T ∧ s.requests T = m :: s'.requests T ∧ .received T m.1 m.2.1 m.2.2 ∈ events

/-- What a step does to the queues and to the senders blocked on them. -/
structure Moves (s s' : IpcState) (events : List Event) : Prop where
  /-- Messages are queued at the end, and leave by being accepted. -/
  queue : ∀ T, (∃ l, s'.requests T = s.requests T ++ l) ∨ ∃ m, s.Accepts s' events T m
  /-- A plain sender is woken exactly when its message is accepted. -/
  sender : ∀ t T, s.waits t = some (.send T) →
    ((s'.thread t).state ≠ .blocked ↔ ∃ m, m.1 = t ∧ s.Accepts s' events T m)
  /-- A node leaves the queue of another thread only when its message is accepted. -/
  node : ∀ x T, x ≠ T → .ipcList x ∈ s.queues.queue T →
    .ipcList x ∈ s'.queues.queue T ∨ ∃ m, m.1 = x ∧ s.Accepts s' events T m

theorem not_accepts {s s' : IpcState} {events : List Event} {T : Tid} {l : List Msg} {m : Msg}
    (h : s'.requests T = s.requests T ++ l) : ¬ s.Accepts s' events T m := by
  rintro ⟨-, hm, -⟩
  have := congrArg List.length (hm.trans (congrArg (m :: ·) h))
  simp at this
  omega

/-- A step that only adds to the queues wakes no plain sender. -/
theorem Moves.of_append {s s' : IpcState} {events : List Event}
    (hqueue : ∀ T, ∃ l, s'.requests T = s.requests T ++ l)
    (hsender : ∀ t T, s.waits t = some (.send T) → (s'.thread t).state = .blocked)
    (hnode : ∀ x T, x ≠ T → .ipcList x ∈ s.queues.queue T → .ipcList x ∈ s'.queues.queue T) :
    s.Moves s' events where
  queue T := Or.inl (hqueue T)
  node x T hx hmem := Or.inl (hnode x T hx hmem)
  sender t T ht := by
    obtain ⟨l, hl⟩ := hqueue T
    apply iff_of_false (not_not_intro (hsender t T ht))
    rintro ⟨m, -, hm⟩
    exact not_accepts hl hm

/-- The first half of `ipc_reply_recv` moves nothing. -/
theorem Moves.of_eq {s s₁ s' : IpcState} {events : List Event} (h : s₁.Moves s' events)
    (hcurrent : s₁.current = s.current) (hrequests : ∀ T, s₁.requests T = s.requests T)
    (hsender : ∀ t T, s.waits t = some (.send T) → s₁.waits t = some (.send T))
    (hnode : ∀ x T, x ≠ T → .ipcList x ∈ s.queues.queue T → .ipcList x ∈ s₁.queues.queue T)
    (t : Tid) (dest : Option Tid) (words : Words) :
    s.Moves s' (.replied t dest words :: events) := by
  have haccepts : ∀ T m, s.Accepts s' (.replied t dest words :: events) T m ↔
      s₁.Accepts s' events T m := by
    intro T m
    simp [Accepts, hcurrent, hrequests]
  refine ⟨fun T => ?_, fun u T hu => ?_, fun x T hx hmem => ?_⟩
  · simpa only [haccepts, hrequests] using h.queue T
  · simpa only [haccepts] using h.sender u T (hsender u T hu)
  · simpa only [haccepts] using h.node x T hx (hnode x T hx hmem)

section Steps

variable {s : IpcState} {log : List Event}

/-- A thread that waits for a message, and is not in a call, waits by its `ipc_list` node. -/
theorem slot_of_not_inCall {T : Tid} {n : Node} (hslot : s.slot T = some n) (hcall : ¬ s.InCall T) :
    n = .ipcList T := by
  rcases slot_eq_or hslot with rfl | rfl
  · rfl
  · exact absurd (slot_eq_wait_iff.mp hslot) hcall

/-- The end of `ipc_recv` and `ipc_reply_recv`. -/
theorem History.waitRequest {f : Frame} (h : s.History log (· ≠ s.current) noFlight)
    (hcur : s.cur.state = .running) (hframe : s.cur.frame = none)
    (hf : f = .recv ∨ f = .replyRecv) :
    ∃ s' events, s.waitRequest f = some (s', events) ∧
      s'.History (log ++ events) (fun _ => True) noFlight ∧ s.Moves s' events := by
  have hnot : s.cur.state ≠ .blocked := by simp [hcur]
  by_cases hep : s.cur.epState = .waitSend
  · obtain ⟨x, rest, hx, hqueue, heq⟩ := waitRequest_eq_accepted h.linked hcur f hep
    -- a sender is waiting: the first one is taken, and nothing else moves
    have haccepts : s.Accepts (s.accepted x hx)
        [.received s.current x (s.seqOf x) (s.thread x).ipcMsg] s.current
        (x, s.seqOf x, (s.thread x).ipcMsg) :=
      ⟨rfl, requests_accepted h.linked hnot hep hx hqueue, List.mem_singleton_self _⟩
    refine ⟨_, _, heq, h.accepted hnot hframe hep hx hqueue, fun T => ?_, fun t T ht => ?_,
      fun y T hy hmem => ?_⟩
    · by_cases hT : T = s.current
      · subst hT
        exact Or.inr ⟨_, haccepts⟩
      · exact Or.inl ⟨[], by simp [requests_accepted_of_ne h.linked hnot hx hT]⟩
    · have hblocked := (frame_of_waits ht).1
      by_cases htx : t = x
      · subst htx
        obtain rfl : T = s.current :=
          Option.some.inj ((h.linked.send_home t T ht).symm.trans hx)
        have hxep : (s.thread t).epState ≠ .waitRecv := by
          simp [h.linked.waitRecv_iff, slot, ht, Frame.slot]
        exact iff_of_true (by simp [hxep]) ⟨_, rfl, haccepts⟩
      · apply iff_of_false (by simp [htx, hblocked])
        rintro ⟨m, rfl, rfl, hm, -⟩
        rw [haccepts.2.1, List.cons.injEq] at hm
        exact htx (congrArg Prod.fst hm.1).symm
    · by_cases hyx : y = x
      · subst hyx
        obtain rfl : s.current = T :=
          Option.some.inj (hx.symm.trans (ListStore.home_of_mem hmem))
        exact Or.inr ⟨_, rfl, haccepts⟩
      · left
        rw [ListStore.mem_queue] at hmem ⊢
        simp [hyx, hmem]
  -- nobody is waiting: the thread listens
  · have hn := (h.linked.home_current hcur).1
    refine ⟨_, [], waitRequest_eq_listening h.linked hcur f hep, ?_, ?_⟩
    · rw [List.append_nil]
      exact h.listening hnot hframe hep hf hn
    · refine .of_append (fun T => ⟨[], by simp [requests_listening hep hn]⟩) (fun t T ht => ?_)
        fun y T _ hmem => ?_
      · simp [(frame_of_waits ht).1]
      · rw [ListStore.mem_queue] at hmem ⊢
        have := h.linked.home_current hcur
        grind [listening_queues]

/-- The current thread announces a message. -/
theorem History.announce (h : s.History log (fun _ => True) noFlight)
    (hframe : s.cur.frame = none) (T : Tid) (q : BitVec 64) (words : Words) (e : Event)
    (he : e = .sent s.current T words ∧ q = 0 ∨ e = .called s.current T q words) :
    s.History (log ++ [e]) (fun _ => True) (oneFlight T (s.current, q, words)) := by
  refine h.append (fun C hC => ?_) (fun T' => ?_) fun T' => ?_
  · have hne : s.current ≠ C := by
      rintro rfl
      exact hC hframe
    rcases he with ⟨rfl, -⟩ | rfl <;> simp [Event.Touches, Event.actor, hne]
  · rcases he with ⟨rfl, -⟩ | rfl <;> rfl
  · rcases he with ⟨rfl, rfl⟩ | rfl <;> by_cases hT : T = T' <;>
      simp [noFlight, oneFlight, issues, Event.issuedTo, hT, eq_comm]

/-- A thread that is not blocked is nobody's client. -/
theorem History.client_ne (h : s.History log (fun _ => True) noFlight)
    (hcur : s.cur.state ≠ .blocked) (S : Tid)
    (hnot : ¬ ((s.thread S).state = .blocked ∧ s.Receiving S))
    (hprev : (s.thread S).ipcPrevSeq ≠ 0) : s.client S ≠ s.current :=
  (h.context S trivial).client_ne hnot hprev hcur

/-- Only its own node is taken off the queue of a thread that is handed a message. -/
theorem mem_queue_handed {r x y T : Tid} {words : Words} {prevSeq : Option (BitVec 64)} {n : Node}
    (hslot : s.slot r = some n) (hn : s.queues.home n = some r) (hy : y ≠ T)
    (hhome : s.queues.home (.ipcList y) = some T) :
    .ipcList y ∈ (s.handed r x words prevSeq n hn).queues.queue T := by
  have hown := slot_eq_or hslot
  rw [ListStore.mem_queue]
  grind [handed_queues]

/-- Queueing a message adds it to the queue of its target and wakes nobody. -/
theorem Moves.of_queued {s₁ : IpcState} {T : Tid} {words : Words} {f : Frame} {events : List Event}
    (h : s₁.Linked) (hn : s₁.queues.home (.ipcList s₁.current) = none) (hT : s₁.slot T = none)
    (hrequests : ∀ T', s₁.requests T' = s.requests T')
    (hsender : ∀ t T', s.waits t = some (.send T') → (s₁.thread t).state = .blocked)
    (hnode : ∀ y, s.queues.home (.ipcList y) = s₁.queues.home (.ipcList y)) :
    s.Moves (s₁.queued T words f hn) events := by
  refine .of_append (fun T' => ?_) (fun t T' ht => ?_) fun y T' _ hmem => ?_
  · rw [requests_queued h hn hT, hrequests, hrequests]
    split
    next hT' => exact ⟨_, by rw [hT']⟩
    next => exact ⟨[], by simp⟩
  · simp [hsender t T' ht]
  · rw [ListStore.mem_queue] at hmem ⊢
    grind [queued_queues]

/-- Handing a message to a waiting thread leaves the queues as they are and wakes no sender. -/
theorem Moves.of_handed {s₁ : IpcState} {r x : Tid} {words : Words}
    {prevSeq : Option (BitVec 64)} {n : Node} {events : List Event} (h : s₁.Linked)
    (hslot : s₁.slot r = some n) (hn : s₁.queues.home n = some r) (hvacant : s₁.Vacant r)
    (hrequests : ∀ T, s₁.requests T = s.requests T)
    (hsender : ∀ t T, s.waits t = some (.send T) → s₁.waits t = some (.send T))
    (hnode : ∀ y, s.queues.home (.ipcList y) = s₁.queues.home (.ipcList y)) :
    s.Moves (s₁.handed r x words prevSeq n hn) events := by
  refine .of_append (fun T => ⟨[], ?_⟩) (fun t T ht => ?_) fun y T hy hmem => ?_
  · rw [requests_handed h hslot hn hvacant, hrequests, List.append_nil]
  · have ht₁ := hsender t T ht
    -- a thread that waits to send is not the receiver that the message is handed to
    have htr : t ≠ r := by
      rintro rfl
      simp [slot, ht₁, Frame.slot] at hslot
    simp [htr, (frame_of_waits ht₁).1]
  · rw [ListStore.mem_queue, hnode] at hmem
    exact mem_queue_handed hslot hn hy hmem

/-- `ipc_send`. -/
theorem History.send {T : Tid} {words : Words} (h : s.History log (fun _ => True) noFlight)
    (henabled : s.Enabled (.send T words)) (hop : ¬ s.InCall T) :
    ∃ s' events, s.exec (.send T words) = some (s', events) ∧
      s'.History (log ++ events) (fun _ => True) noFlight ∧ s.Moves s' events := by
  obtain ⟨hcur, hframe⟩ := henabled
  have hnot : s.cur.state ≠ .blocked := by simp [hcur]
  have hn := (h.linked.home_current hcur).1
  have hflight := h.announce hframe T 0 words _ (Or.inl ⟨rfl, rfl⟩)
  -- the receiver is not listening, and the message is queued; or it is handed over at once
  cases hT : s.slot T with
  | none =>
      refine ⟨_, _, by rw [IpcState.exec, ipcSend_eq_queued h.linked hcur words hT]; rfl, ?_, ?_⟩
      · exact hflight.queued hT hn (Or.inl ⟨hnot, hframe, rfl, rfl⟩)
          fun S _ => h.client_ne hnot S
      · exact .of_queued h.linked hn hT (fun _ => rfl) (fun t T' ht => (frame_of_waits ht).1)
          fun _ => rfl
  | some n =>
      obtain rfl := slot_of_not_inCall hT hop
      have hhome := h.linked.home_slot hT
      refine ⟨_, _, by rw [IpcState.exec, ipcSend_eq_handed h.linked words hT]; rfl, ?_, ?_⟩
      · exact hflight.handed hT hhome fun hzero => absurd rfl hzero
      · exact .of_handed h.linked hT hhome (fun T' hT' => Option.some.inj (hT'.symm.trans hhome))
          (fun _ => rfl) (fun _ _ ht => ht) fun _ => rfl

/-- `ipc_call`. -/
theorem History.call {T : Tid} {words : Words} (h : s.History log (fun _ => True) noFlight)
    (henabled : s.Enabled (.call T words)) (hne : T ≠ s.current)
    (hep : s.cur.epState ≠ .waitSend) (hop : ¬ s.InCall T) :
    ∃ s' events, s.exec (.call T words) = some (s', events) ∧
      s'.History (log ++ events) (fun _ => True) noFlight ∧ s.Moves s' events := by
  obtain ⟨hcur, hframe⟩ := henabled
  have hnot : s.cur.state ≠ .blocked := by simp [hcur]
  obtain ⟨hlist, hwait⟩ := h.linked.home_current hcur
  -- the call is logged and the reply slot reserved; then the message is handed over or queued
  have hflight := (h.announce hframe T (s.cur.ipcCallSeq + 1) words _ (Or.inr rfl)).reserved
    hnot hframe hep hne hwait ⟨log, [], rfl, quiet_nil _⟩
  have hres := hflight.linked
  have hrequests := requests_reserved h.linked hnot hep hwait (T := T)
  have hwaits : ∀ t T', s.waits t = some (.send T') →
      (s.reserved T hwait).waits t = some (.send T') := by
    intro t T' ht
    rw [waits_reserved, if_neg (ne_current_of_waits hnot ht), ht]
  have hself : (s.reserved T hwait).waits s.current =
      some (.call T (s.cur.ipcCallSeq + 1) s.cur.ipcSender) := by
    rw [waits_reserved, if_pos rfl]
  have hlist' : ∀ t, (s.reserved T hwait).queues.home (.ipcList t) =
      s.queues.home (.ipcList t) := by
    intro t
    simp
  have hslot : (s.reserved T hwait).slot T = s.slot T := by
    rw [slot, waits_reserved, if_neg hne, slot]
  cases hT : s.slot T with
  | none =>
      have hn := (hlist' s.current).trans hlist
      refine ⟨_, _, by rw [IpcState.exec, ipcCall_eq_queued h.linked hcur hne words hT hn]; rfl,
        ?_, ?_⟩
      · apply hflight.queued (hslot.trans hT) hn (Or.inr ⟨_, hself, rfl⟩)
        intro S _ hS hprev
        rw [client_reserved hframe]
        refine h.client_ne hnot S (fun hb => hS ?_) (by simpa using hprev)
        have hSc : S ≠ s.current := by
          rintro rfl
          exact hnot hb.1
        simpa [Receiving, hSc] using hb
      · exact .of_queued hres hn (hslot.trans hT) hrequests
          (fun t T' ht => (frame_of_waits (hwaits t T' ht)).1) fun y => (hlist' y).symm
  -- The server waits: a slot of a thread that is in no call is its own list.
  | some n =>
      obtain rfl := slot_of_not_inCall hT hop
      have hhome := h.linked.home_reserved hT hwait
      refine ⟨_, _, by rw [IpcState.exec, ipcCall_eq_handed h.linked hcur hne words hT]; rfl,
        ?_, ?_⟩
      · exact hflight.handed (hslot.trans hT) hhome fun _ =>
          ⟨⟨_, hself⟩, (hlist' s.current).trans hlist⟩
      · exact .of_handed hres (hslot.trans hT) hhome
          (fun T' hT' => Option.some.inj (hT'.symm.trans hhome)) hrequests hwaits
          fun y => (hlist' y).symm

/-- `ipc_reply_recv`. -/
theorem History.replyRecv {words : Words} (h : s.History log (fun _ => True) noFlight)
    (henabled : s.Enabled (.replyRecv words)) :
    ∃ s' events, s.exec (.replyRecv words) = some (s', events) ∧
      s'.History (log ++ events) (fun _ => True) noFlight ∧ s.Moves s' events := by
  obtain ⟨hcur, hframe⟩ := henabled
  -- the reply is dropped, or wakes the client; the wait for the next request is the same
  rcases reply_cases h.linked words with ⟨hnone, hreply⟩ |
    ⟨C, n, hn, hdest, hne, hC, hprev, -, hslot, hreply⟩
  · have hreplied : s.History (log ++ [.replied s.current none words]) (· ≠ s.current)
        noFlight := by
      have happend : s.History (log ++ [.replied s.current none words]) (fun _ => True)
          noFlight := by
        refine h.append (fun C hC => ?_) (fun _ => rfl) (fun _ => rfl)
        have hne : s.current ≠ C := by
          rintro rfl
          exact hC hframe
        simp [Event.Touches, Event.actor, hne]
      exact happend.mono fun _ _ => trivial
    obtain ⟨s', events, hs', hhist, hmoves⟩ :=
      hreplied.waitRequest (f := .replyRecv) hcur hframe (Or.inr rfl)
    refine ⟨s', _, ipcReplyRecv_eq hreply hs', ?_, hmoves.of_eq rfl (fun _ => rfl)
      (fun _ _ ht => ht) (fun _ _ _ hmem => hmem) _ _ _⟩
    rw [hnone]
    simpa using hhist
  · have hreplied : (s.handed C s.current words none n hn).History
        (log ++ [.replied s.current (some C) words]) (· ≠ s.current) noFlight :=
      h.replied hcur hframe hC hprev hslot hn
    have hvacant : s.Vacant C := by
      simp [Vacant, (h.context_current hframe hC hprev).2.1]
    obtain ⟨s', events, hs', hhist, hmoves⟩ := hreplied.waitRequest (f := .replyRecv)
      (by simpa [cur, hne.symm] using hcur) (by simpa [cur] using hframe) (Or.inr rfl)
    refine ⟨s', _, ipcReplyRecv_eq hreply hs', ?_, hmoves.of_eq (s := s) rfl
      (requests_handed h.linked hslot hn hvacant) (fun t T ht => ?_)
      (fun y T hy hmem => mem_queue_handed hslot hn hy (ListStore.home_of_mem hmem)) _ _ _⟩
    · rw [hdest]
      simpa using hhist
    · have htC : t ≠ C := by
        rintro rfl
        simp [slot, ht, Frame.slot] at hslot
      rw [waits_handed, if_neg htC, ht]

/-- A disciplined operation succeeds and extends the history. -/
theorem History.exec {op : Op} (h : s.History log (fun _ => True) noFlight)
    (henabled : s.Enabled op) (hop : s.Disciplined op) :
    ∃ s' events, s.exec op = some (s', events) ∧
      s'.History (log ++ events) (fun _ => True) noFlight ∧ s.Moves s' events := by
  -- one lemma for each operation; receiving and resuming add nothing to the log that is open
  cases op with
  | send T words => exact h.send henabled hop
  | call T words => exact h.call henabled hop.1 hop.2.1 hop.2.2
  | replyRecv words => exact h.replyRecv henabled
  | recv =>
      refine History.waitRequest (f := .recv) ?_ henabled.1 henabled.2 (Or.inl rfl)
      exact ⟨h.linked, h.account, h.open_call, h.answered_call, fun S _ => h.context S trivial⟩
  | resume =>
      obtain ⟨f, hf⟩ := Option.ne_none_iff_exists'.mp henabled.2
      refine ⟨_, _, by rw [IpcState.exec, hf]; rfl, h.resume henabled.1 hf,
        .of_append (fun T => ⟨[], ?_⟩) (fun t T ht => ?_) fun y T _ hmem => ?_⟩
      · rw [requests_resume h.linked henabled.1, List.append_nil]
      · obtain ⟨x, hx⟩ := resume_thread (s := s) f t
        have hne := ne_current_of_waits (by simp [henabled.1]) ht
        rw [hx, if_neg hne]
        exact (frame_of_waits ht).1
      · simpa using hmem

end Steps

/-! ### Whole runs

The invariant about the log of events, from one step to all steps. -/

theorem Fresh.history {s : IpcState} (h : s.Fresh) : s.History [] (fun _ => True) noFlight := by
  have hwaits : ∀ t, s.waits t = none := fun t => waits_of_not_blocked (h.thread_fresh t).1
  have hframe : ∀ t, (s.thread t).frame = none := fun t => (h.thread_fresh t).2.2.2.2
  have hprev : ∀ t, (s.thread t).ipcPrevSeq = 0 := fun t => (h.thread_fresh t).2.2.1
  refine ⟨h.linked, fun T => ?_, ?_, ?_, fun S _ => ⟨?_, ?_⟩⟩
  · have hep := (h.thread_fresh T).2.1
    rw [buffer_of_not_receiving (by simp [Receiving, hframe]), requests_of_ne (by simp [hep])]
    rfl
  · simp [hwaits]
  · simp [hframe]
  · simp [receipts]
  · simp [hprev]

/-- The invariant holds along every disciplined run. -/
theorem Run.history {s₀ s : IpcState} {log : List Event} (h₀ : s₀.Fresh)
    (hrun : Run Disciplined s₀ s log) : s.History log (fun _ => True) noFlight := by
  induction hrun with
  | init => exact h₀.history
  | switch _ ht ih => exact ih.switchTo ht
  | exec _ henabled hop hexec ih =>
      obtain ⟨s', events, hs', hhist, -⟩ := ih.exec henabled hop
      rw [hexec] at hs'
      cases hs'
      exact hhist

/-- A run under one condition is a run under another that every state on the way satisfies. -/
theorem Run.mono {cond cond' : IpcState → Op → Prop} {s₀ s : IpcState} {log : List Event}
    (hrun : Run cond s₀ s log)
    (hcond : ∀ s log op, Run cond s₀ s log → Run cond' s₀ s log → s.Enabled op → cond s op →
      cond' s op) : Run cond' s₀ s log := by
  induction hrun with
  | init => exact .init
  | switch _ ht ih => exact ih.switch ht
  | exec hrun henabled hop hexec ih =>
      exact ih.exec henabled (hcond _ _ _ hrun ih henabled hop) hexec

/-! ### Where the events come from

Which operation of which thread emits an event. The results about calls and replies start from an
event and look for its cause. -/

/-- The end of `ipc_recv` and `ipc_reply_recv` emits receipts of the current thread only. -/
theorem mem_waitRequest {s s' : IpcState} {f : Frame} {events : List Event}
    (h : s.waitRequest f = some (s', events)) {e : Event} (he : e ∈ events) :
    ∃ t x q words, e = .received t x q words := by
  rw [waitRequest] at h
  split at h
  · simp only [Option.bind_eq_bind, Option.bind_eq_some_iff, Option.pure_def, Option.some.injEq,
      Prod.mk.injEq] at h
    obtain ⟨⟨x, s₁⟩, -, -, rfl⟩ := h
    rw [List.mem_singleton] at he
    exact ⟨_, _, _, _, he⟩
  · simp only [Option.bind_eq_bind, Option.bind_eq_some_iff, Option.pure_def, Option.some.injEq,
      Prod.mk.injEq] at h
    obtain ⟨-, -, -, hevents⟩ := h
    rw [← hevents] at he
    cases he

/-- `ipc_call` returns when its thread goes on after the `sched_block` in it. -/
theorem eq_of_returned_mem {s s' : IpcState} {op : Op} {events : List Event}
    (h : s.exec op = some (s', events)) {C T x : Tid} {words : Words}
    (he : .returned C T x words ∈ events) :
    events = [.returned C T x words] ∧ C = s.current ∧ x = s.cur.ipcSender ∧
      words = s.cur.ipcMsg ∧ ∃ q y, s.cur.frame = some (.call T q y) := by
  cases op with
  | send T' w =>
      simp only [exec, Option.bind_eq_bind, Option.bind_eq_some_iff, Option.pure_def,
        Option.some.injEq, Prod.mk.injEq] at h
      obtain ⟨-, -, -, rfl⟩ := h
      simp at he
  | call T' w =>
      simp only [exec, Option.bind_eq_bind, Option.bind_eq_some_iff, Option.pure_def,
        Option.some.injEq, Prod.mk.injEq] at h
      obtain ⟨-, -, -, rfl⟩ := h
      simp at he
  | recv =>
      obtain ⟨_, _, _, _, hreceived⟩ := mem_waitRequest h he
      cases hreceived
  | replyRecv w =>
      simp only [exec, ipcReplyRecv, Option.bind_eq_bind, Option.bind_eq_some_iff, Option.pure_def,
        Option.some.injEq, Prod.mk.injEq] at h
      obtain ⟨s₁, -, ⟨s₂, events'⟩, hwait, -, rfl⟩ := h
      simp only [List.mem_cons, reduceCtorEq, false_or] at he
      obtain ⟨_, _, _, _, hreceived⟩ := mem_waitRequest hwait he
      cases hreceived
  -- Only a thread that goes on returns, from the frame that it was blocked in.
  | resume =>
      simp only [exec, Option.map_eq_some_iff] at h
      obtain ⟨f, hf, hresume⟩ := h
      have hevents := congrArg Prod.snd hresume
      cases f <;> simp_all [resume]
      all_goals grind

end IpcState

end Koharu
