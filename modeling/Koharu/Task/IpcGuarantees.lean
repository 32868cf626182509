import Koharu.Task.IpcDiscipline

/-!
# What callers and servers can rely on

For disciplined runs: a call returns the answer to that very call (`call_returns_reply`), a reply
reaches the call it answers and no other (`reply_reaches_call`), and a server that calls other
servers in between still answers its client (`nested_call_keeps_client`). Clients that only send
to and call servers, and servers that only receive and reply, are disciplined by themselves, so
their messages are delivered exactly once and in order (`flat_exactly_once`).

Without the discipline the first three fail: `third_message_as_reply`, `reply_to_receiver` and
`reply_drops_queued_client` are runs in which they do.
-/

namespace Koharu

/-- The thread that an operation blocked in `f` has named. -/
def Frame.target : Frame → Option Tid
  | .send target | .call target _ _ => some target
  | .recv | .replyRecv => none

namespace IpcState

instance (s : IpcState) (T : Tid) : Decidable (s.InCall T) :=
  decidable_of_iff ((s.waits T).any (fun f => match f with
    | .call _ _ _ => true
    | _ => false) = true) (by
      rw [InCall, Option.any_eq_true]
      constructor
      · rintro ⟨f, hf, hcall⟩
        cases f <;> simp_all
      · rintro ⟨T', q, x, h⟩
        exact ⟨_, h, rfl⟩)

instance (s : IpcState) : (op : Op) → Decidable (s.Disciplined op)
  | .send _ _ => inferInstanceAs (Decidable (¬ _))
  | .call _ _ => inferInstanceAs (Decidable (_ ∧ _))
  | .recv | .replyRecv _ | .resume => inferInstanceAs (Decidable True)

variable {s₀ s : IpcState} {log : List Event}

/-! ### Calls and their replies

A call gets the answer of the thread it called, unless a third thread's message is taken for it. -/

/-- A call that has returned was answered by the thread it called, with the words returned. -/
theorem Run.returned (h₀ : s₀.Fresh) (hrun : Run Disciplined s₀ s log) {l l' : List Event}
    {C T x : Tid} {out : Words} (hlog : log = l ++ .returned C T x out :: l') :
    x = T ∧ CallAnswered l C T out := by
  induction hrun generalizing l l' with
  | init => simp at hlog
  | switch _ _ ih => exact ih hlog
  | @exec s s' log events op hrun henabled hop hexec ih =>
      rcases List.append_eq_append_iff.mp hlog with ⟨m, rfl, hm⟩ | ⟨m, rfl, hm⟩
      · -- the call returns in this very step
        obtain ⟨rfl, rfl, rfl, rfl, q, y, hframe⟩ :=
          eq_of_returned_mem hexec (by rw [hm]; simp : .returned C T x out ∈ events)
        have hnil : m = [] := by
          cases m with
          | nil => rfl
          | cons e m => simp at hm
        rw [hnil, List.append_nil]
        exact (hrun.history h₀).answered_call _ T q y (by rw [← cur, henabled.1]; decide) hframe
      · cases m with
        | nil =>
            obtain ⟨-, rfl, rfl, rfl, q, y, hframe⟩ :=
              eq_of_returned_mem hexec (by
                rw [List.nil_append] at hm
                rw [← hm]
                exact List.mem_cons_self : .returned C T x out ∈ events)
            rw [List.append_nil] at hrun
            exact (hrun.history h₀).answered_call _ T q y (by rw [← cur, henabled.1]; decide)
              hframe
        | cons e m =>
            rw [List.cons_append, List.cons.injEq] at hm
            rw [← hm.1] at ih
            exact ih rfl

/-- In every disciplined run, a call returns the tid of the thread it called and the words of the
`ipc_reply_recv` that answered it, and no message sent to any thread, in particular to one inside
a call, is lost: it has been received, is in the thread's buffer, or is queued. -/
theorem call_returns_reply (h₀ : s₀.Fresh) (hrun : Run Disciplined s₀ s log) :
    (∀ l l' C T x out, log = l ++ .returned C T x out :: l' → x = T ∧ CallAnswered l C T out) ∧
      ∀ C, issues C log = receipts C log ++ s.buffer C ++ s.requests C := by
  refine ⟨fun l l' C T x out hlog => hrun.returned h₀ hlog, fun C => ?_⟩
  simpa [noFlight] using (hrun.history h₀).account C

/-- Thread 1 calls the server 0, and a third thread sends to 1 once the reply is there. -/
theorem call_returns_reply_server : ∃ s log, boot.Fresh ∧ Run Disciplined boot s log ∧
    (∃ l, log = l ++ [.returned 1 0 0 (word 7)] ∧ CallAnswered l 1 0 (word 7)) ∧
    issues 1 log = [(2, 0, word 9)] ∧ s.requests 1 = [(2, 0, word 9)] := by
  obtain ⟨s, log, hrun, hcheck⟩ := exists_run_of_execAll Disciplined
    [.exec .recv, .switch 1, .exec (.call 0 (word 1)), .switch 0, .exec .resume,
      .exec (.replyRecv (word 7)), .switch 2, .exec (.send 1 (word 9)), .switch 1, .exec .resume]
    (fun x => decide (x.2.getLast? = some (.returned 1 0 0 (word 7)) ∧
      issues 1 x.2 = [(2, 0, word 9)] ∧ receipts 1 x.2 = [] ∧ x.1.buffer 1 = []))
    (by decide +kernel)
  obtain ⟨hlast, hissues, hreceipts, hbuffer⟩ := of_decide_eq_true hcheck
  obtain ⟨hreturned, haccount⟩ := call_returns_reply boot_fresh hrun
  obtain ⟨l, hl⟩ := List.getLast?_eq_some_iff.mp hlast
  refine ⟨s, log, boot_fresh, hrun, ⟨l, hl, (hreturned l [] 1 0 0 (word 7) hl).2⟩, hissues, ?_⟩
  have := haccount 1
  simpa only [hissues, hreceipts, hbuffer, List.nil_append] using this.symm

/-- Thread 0 calls thread 1, and a third thread sends to 0: the message ends the call. -/
theorem third_message_as_reply : ∃ s log, boot.Fresh ∧ Run (fun _ _ => True) boot s log ∧
    ∃ l l' C T x out, log = l ++ .returned C T x out :: l' ∧ x ≠ T ∧
      ∀ w, .replied T (some C) w ∉ log := by
  obtain ⟨s, log, hrun, hcheck⟩ := exists_run_of_execAll (fun _ _ => True)
    [.exec (.call 1 (word 1)), .switch 2, .exec (.send 0 (word 9)), .switch 0, .exec .resume]
    (fun x => decide (x.2 = [.called 0 1 1 (word 1), .sent 2 0 (word 9),
      .returned 0 1 2 (word 9)]))
    (by decide +kernel)
  have hlog : log = [.called 0 1 1 (word 1), .sent 2 0 (word 9), .returned 0 1 2 (word 9)] :=
    of_decide_eq_true hcheck
  refine ⟨s, log, boot_fresh, hrun, [.called 0 1 1 (word 1), .sent 2 0 (word 9)], [], 0, 1, 2,
    word 9, hlog, by decide, fun w hw => ?_⟩
  rw [hlog] at hw
  simp at hw

/-- In every disciplined run, whenever `ipc_reply_recv` delivers its reply to `C`, `C` is blocked in
a call of the replier, with the sequence number the replier recorded when it received that very
call, which is the last message it received. -/
theorem reply_reaches_call (h₀ : s₀.Fresh) (hrun : Run Disciplined s₀ s log) {words : Words}
    (henabled : s.Enabled (.replyRecv words)) {C : Tid} (hdest : s.replyDest = some C) :
    (s.thread C).state = .blocked ∧
      (∃ x, (s.thread C).frame = some (.call s.current s.cur.ipcPrevSeq x)) ∧
      ∃ sent, CallReceived log C s.current s.cur.ipcPrevSeq sent := by
  have hhist := hrun.history h₀
  rcases reply_cases hhist.linked words with ⟨hnone, -⟩ |
    ⟨C', n, -, hdest', -, hC, hprev, -, -, -⟩
  · rw [hnone] at hdest
    cases hdest
  · obtain rfl : C = C' := Option.some.inj (hdest.symm.trans hdest')
    obtain ⟨⟨x, hx⟩, -, hreceived⟩ := hhist.context_current henabled.2 hC hprev
    obtain ⟨hblocked, hframe⟩ := frame_of_waits hx
    exact ⟨hblocked, ⟨x, hframe⟩, hreceived⟩

/-- The server 0 is about to answer thread 1. -/
theorem reply_reaches_call_server : ∃ s log, boot.Fresh ∧ Run Disciplined boot s log ∧
    s.Enabled (.replyRecv (word 7)) ∧ s.replyDest = some 1 ∧
    (s.thread 1).state = .blocked ∧
    ∃ sent, CallReceived log 1 s.current s.cur.ipcPrevSeq sent := by
  obtain ⟨s, log, hrun, hcheck⟩ := exists_run_of_execAll Disciplined
    [.exec .recv, .switch 1, .exec (.call 0 (word 1)), .switch 0, .exec .resume]
    (fun x => decide (x.1.Enabled (.replyRecv (word 7)) ∧ x.1.replyDest = some 1))
    (by decide +kernel)
  obtain ⟨henabled, hdest⟩ := of_decide_eq_true hcheck
  obtain ⟨hblocked, -, hreceived⟩ := reply_reaches_call boot_fresh hrun henabled hdest
  exact ⟨s, log, boot_fresh, hrun, henabled, hdest, hblocked, hreceived⟩

/-- The call of thread 1 is ended by a third thread before the server 0 replies. The reply goes to
thread 1 all the same, which waits in `ipc_recv` by then. -/
theorem reply_to_receiver : ∃ s log, boot.Fresh ∧ Run (fun _ _ => True) boot s log ∧
    s.Enabled (.replyRecv (word 7)) ∧ s.replyDest = some 1 ∧
    (s.thread 1).state = .blocked ∧ (s.thread 1).frame = some .recv := by
  obtain ⟨s, log, hrun, hcheck⟩ := exists_run_of_execAll (fun _ _ => True)
    [.exec .recv, .switch 1, .exec (.call 0 (word 1)), .switch 2, .exec (.send 1 (word 9)),
      .switch 1, .exec .resume, .exec .recv, .switch 0, .exec .resume]
    (fun x => decide (x.1.Enabled (.replyRecv (word 7)) ∧ x.1.replyDest = some 1 ∧
      (x.1.thread 1).state = .blocked ∧ (x.1.thread 1).frame = some .recv))
    (by decide +kernel)
  exact ⟨s, log, boot_fresh, hrun, of_decide_eq_true hcheck⟩

/-! ### Nested calls

A server that calls another one before it answers keeps the sequence number of its client, as long
as no call reaches it in between. -/

/-- The sequence number of a call does not wrap to `0`, which stands for a plain message. -/
def NoWrap (s : IpcState) : Op → Prop
  | .call _ _ => s.cur.ipcCallSeq + 1 ≠ 0
  | .send _ _ | .recv | .replyRecv _ | .resume => True

instance (s : IpcState) : (op : Op) → Decidable (s.NoWrap op)
  | .call _ _ => inferInstanceAs (Decidable (_ ≠ _))
  | .send _ _ | .recv | .replyRecv _ | .resume => inferInstanceAs (Decidable True)

/-- `ipc_call` is what announces a call. -/
theorem eq_of_called_mem {s' : IpcState} {op : Op} {events : List Event}
    (h : s.exec op = some (s', events)) {C T : Tid} {q : BitVec 64} {words : Words}
    (he : .called C T q words ∈ events) : op = .call T words ∧ q = s.cur.ipcCallSeq + 1 := by
  cases op with
  | send T' w =>
      simp only [exec, Option.bind_eq_bind, Option.bind_eq_some_iff, Option.pure_def,
        Option.some.injEq, Prod.mk.injEq] at h
      obtain ⟨-, -, -, rfl⟩ := h
      simp at he
  | call T' w =>
      simp only [exec, Option.bind_eq_bind, Option.bind_eq_some_iff, Option.pure_def,
        Option.some.injEq, Prod.mk.injEq] at h
      obtain ⟨-, -, -, rfl⟩ := h
      simp_all
  -- The others log what they receive, or nothing.
  | recv =>
      obtain ⟨_, _, _, _, hreceived⟩ := mem_waitRequest h he
      cases hreceived
  | replyRecv w =>
      simp only [exec, ipcReplyRecv, Option.bind_eq_bind, Option.bind_eq_some_iff, Option.pure_def,
        Option.some.injEq, Prod.mk.injEq] at h
      obtain ⟨s₁, -, ⟨s₂, events'⟩, hwait, -, rfl⟩ := h
      simp only [List.mem_cons, reduceCtorEq, false_or] at he
      obtain ⟨_, _, _, _, hreceived⟩ := mem_waitRequest hwait he
      cases hreceived
  | resume =>
      simp only [exec, Option.map_eq_some_iff] at h
      obtain ⟨f, hf, hresume⟩ := h
      have hevents := congrArg Prod.snd hresume
      cases f <;> simp_all [resume]
      all_goals grind

/-- As long as no sequence number wraps, every call has one other than `0`. -/
theorem Run.called_ne_zero {cond : IpcState → Op → Prop} (hcond : ∀ s op, cond s op → s.NoWrap op)
    (hrun : Run cond s₀ s log) {C T : Tid} {q : BitVec 64} {words : Words}
    (he : .called C T q words ∈ log) : q ≠ 0 := by
  induction hrun with
  | init => simp at he
  | switch _ _ ih => exact ih he
  | exec _ _ hop hexec ih =>
      rcases List.mem_append.mp he with hold | hnew
      · exact ih hold
      · obtain ⟨rfl, rfl⟩ := eq_of_called_mem hexec hnew
        exact hcond _ _ hop

/-- The end of `ipc_reply_recv` leaves alone a thread that is not queued. -/
theorem waitRequest_thread {s' : IpcState} {f : Frame} {events : List Event} (h : s.Linked)
    (hcur : s.cur.state = .running) (hwait : s.waitRequest f = some (s', events)) {t : Tid}
    (ht : t ≠ s.current) (hhome : s.queues.home (.ipcList t) = none) :
    s'.thread t = s.thread t := by
  by_cases hep : s.cur.epState = .waitSend
  · obtain ⟨x, rest, hx, -, heq⟩ := waitRequest_eq_accepted h hcur f hep
    rw [hwait] at heq
    cases heq
    -- the sender accepted was on a list, which `t` is not
    have htx : t ≠ x := by
      rintro rfl
      rw [hhome] at hx
      cases hx
    apply Thread.ext <;> simp [ht, htx]
  · have heq := waitRequest_eq_listening h hcur f hep
    rw [hwait] at heq
    cases heq
    apply Thread.ext <;> simp [ht]

/-- The thread whose call the current thread has received last is the one it replies to. -/
theorem History.replyDest_eq (h : s.History log (fun _ => True) noFlight) {A : Tid}
    {x : Tid} (hA : A = s.cur.ipcSender) (hprev : s.cur.ipcPrevSeq ≠ 0)
    (hwaits : s.waits A = some (.call s.current s.cur.ipcPrevSeq x))
    (hregistered : s.registered A) : s.replyDest = some A := by
  have hslot : s.slot A = some (.ipcWaitList A) := slot_eq_wait_iff.mpr ⟨_, _, _, hwaits⟩
  have hep : (s.thread A).epState = .waitRecv := (h.linked.waitRecv_iff A).mpr (by simp [hslot])
  have hqueue : s.queues.queue A ≠ [] := by simp [h.linked.queue_slot A _ hslot]
  have hne : A ≠ s.current := (h.linked.call_ne A _ _ _ hwaits).symm
  have hseq := (h.open_call A _ _ _ hwaits).1
  rw [replyDest, ← hA, if_pos ⟨hprev, hregistered, hne, hseq, hep, hqueue⟩]

/-- The reply of the current thread reaches `A`, whose call is the last message it received. -/
theorem History.reply_delivers (h : s.History log (fun _ => True) noFlight) {A : Tid}
    {q : BitVec 64} {sent words : Words} (henabled : s.Enabled (.replyRecv words))
    (hlast : (receipts s.current log).getLast? = some (A, q, sent)) (hq : q ≠ 0)
    (hregistered : s.registered A) :
    CallReceived log A s.current q sent ∧ ∃ s' events x,
      s.exec (.replyRecv words) = some (s', .replied s.current (some A) words :: events) ∧
      (s'.thread A).state = .ready ∧ (s'.thread A).frame = some (.call s.current q x) ∧
      (s'.thread A).ipcSender = s.current ∧ (s'.thread A).ipcMsg = words := by
  obtain ⟨hcur, hframe⟩ := henabled
  -- what the current thread has recorded is its last receipt
  have hrecv : ¬ s.Receiving s.current := by
    unfold cur at hframe
    simp [Receiving, hframe]
  obtain ⟨hclient, hprev⟩ := (h.context s.current trivial).last hrecv _ hlast
  have hA : A = s.cur.ipcSender := by
    unfold cur at hframe
    rw [client, hframe] at hclient
    exact hclient.symm
  have hprev : s.cur.ipcPrevSeq = q := hprev
  obtain ⟨⟨x, hx⟩, hhome, sent', hreceived⟩ :=
    h.context_current hframe hA (by rw [hprev]; exact hq)
  have hdest := h.replyDest_eq hA (by rw [hprev]; exact hq) hx hregistered
  rw [hprev] at hx hreceived
  obtain rfl : sent = sent' := by simpa using hlast.symm.trans hreceived.getLast?_receipts
  refine ⟨hreceived, ?_⟩
  rcases reply_cases h.linked words with ⟨hnone, -⟩ |
    ⟨C, n, hn, hdest', hne, hC, -, -, hslot, hreply⟩
  · rw [hnone] at hdest
    cases hdest
  · obtain rfl : C = A := hC.trans hA.symm
    have hvacant : s.Vacant C := by simp [Vacant, hhome]
    have hlinked : (s.handed C s.current words none n hn).Linked :=
      h.linked.handed hslot hn hvacant
    have hcur' : (s.handed C s.current words none n hn).cur.state = .running := by
      simpa [cur, hne.symm] using hcur
    obtain ⟨s', events, hs', -, -⟩ := hlinked.waitRequest hcur' (f := .replyRecv) rfl
    have hthread := waitRequest_thread hlinked hcur' hs' hne
      (by simp [Function.update_apply, hhome])
    refine ⟨s', events, x, ?_, ?_⟩
    · rw [ipcReplyRecv_eq hreply hs', hdest]
    · rw [hthread]
      exact ⟨by simp, by simpa using (frame_of_waits hx).2, by simp, by simp⟩

/-- In every disciplined run in which no sequence number wraps, the reply of a server reaches the
client whose call is the last message the server has received, whatever calls the server has made
in between; and the clients queued at it leave its queue by being accepted only, in the order and
with the messages they came with. -/
theorem nested_call_keeps_client (h₀ : s₀.Fresh)
    (hrun : Run (fun s op => s.Disciplined op ∧ s.NoWrap op) s₀ s log) :
    (∀ A q sent words, s.Enabled (.replyRecv words) →
      (receipts s.current log).getLast? = some (A, q, sent) →
      .called A s.current q sent ∈ log → s.registered A →
      CallReceived log A s.current q sent ∧ ∃ s' events x,
        s.exec (.replyRecv words) = some (s', .replied s.current (some A) words :: events) ∧
        (s'.thread A).state = .ready ∧ (s'.thread A).frame = some (.call s.current q x) ∧
        (s'.thread A).ipcSender = s.current ∧ (s'.thread A).ipcMsg = words) ∧
    (∀ op, s.Enabled op → s.Disciplined op ∧ s.NoWrap op →
      ∃ s' events, s.exec op = some (s', events) ∧ s.Moves s' events) ∧
    ∀ T, issues T log = receipts T log ++ s.buffer T ++ s.requests T := by
  -- the history accounts for every request; the three parts are read off it
  have hhist := (hrun.mono fun _ _ _ _ _ _ hop => hop.1).history h₀
  refine ⟨fun A q sent words henabled hlast hcalled hregistered => ?_,
    fun op henabled hop => ?_, fun T => ?_⟩
  · exact hhist.reply_delivers henabled hlast
      (hrun.called_ne_zero (fun _ _ hop => hop.2) hcalled) hregistered
  · obtain ⟨s', events, hexec, -, hmoves⟩ := hhist.exec henabled hop.1
    exact ⟨s', events, hexec, hmoves⟩
  · simpa [noFlight] using hhist.account T

/-- The server 1 calls the server 2 before it answers thread 0, while thread 3 has queued up behind
that call of thread 0. -/
theorem nested_call_keeps_client_server : ∃ s log, boot.Fresh ∧
    Run (fun s op => s.Disciplined op ∧ s.NoWrap op) boot s log ∧
    CallReceived log 0 1 1 (word 1) ∧
    (∃ s' events, s.exec (.replyRecv (word 7)) =
      some (s', .replied 1 (some 0) (word 7) :: events)) ∧
    issues 1 log = [(0, 1, word 1), (3, 0, word 3)] ∧ s.requests 1 = [(3, 0, word 3)] := by
  obtain ⟨s, log, hrun, hcheck⟩ :=
    exists_run_of_execAll (fun s op => s.Disciplined op ∧ s.NoWrap op)
    [.switch 1, .exec .recv, .switch 0, .exec (.call 1 (word 1)), .switch 1, .exec .resume,
      .exec (.call 2 (word 2)), .switch 2, .exec .recv, .exec (.replyRecv (word 5)), .switch 1,
      .exec .resume, .switch 3, .exec (.send 1 (word 3)), .switch 1]
    (fun x => decide (x.1.Enabled (.replyRecv (word 7)) ∧ x.1.current = 1 ∧
      (receipts 1 x.2).getLast? = some (0, 1, word 1) ∧ .called 0 1 1 (word 1) ∈ x.2 ∧
      x.1.registered 0 ∧ issues 1 x.2 = [(0, 1, word 1), (3, 0, word 3)] ∧
      receipts 1 x.2 = [(0, 1, word 1)] ∧ x.1.buffer 1 = []))
    (by decide +kernel)
  obtain ⟨henabled, hcurrent, hlast, hcalled, hregistered, hissues, hreceipts, hbuffer⟩ :=
    of_decide_eq_true hcheck
  -- the server has a call of thread 0, has called thread 2 meanwhile and got a second client
  obtain ⟨hreply, -, haccount⟩ := nested_call_keeps_client boot_fresh hrun
  rw [hcurrent] at hreply
  obtain ⟨hreceived, s', events, -, hexec, -⟩ :=
    hreply 0 1 (word 1) (word 7) henabled hlast hcalled hregistered
  refine ⟨s, log, boot_fresh, hrun, hreceived, ⟨s', events, hexec⟩, hissues, ?_⟩
  have := haccount 1
  simpa [hissues, hreceipts, hbuffer] using this.symm

/-- Thread 3 is queued at the server 1 when 1 makes a nested call of the server 2. The reply of 2
takes the node of thread 3 off the queue of 1. -/
theorem reply_drops_queued_client : ∃ s log s' events, boot.Fresh ∧
    Run (fun _ _ => True) boot s log ∧
    log = [.called 0 1 1 (word 1), .sent 3 1 (word 3), .received 1 0 1 (word 1),
      .called 1 2 1 (word 2), .received 2 1 1 (word 2)] ∧
    s.current = 2 ∧ s.exec (.replyRecv (word 5)) = some (s', events) ∧
    .ipcList 3 ∈ s.queues.queue 1 ∧ .ipcList 3 ∉ s'.queues.queue 1 := by
  obtain ⟨s, log, hrun, hcheck⟩ := exists_run_of_execAll (fun _ _ => True)
    [.switch 1, .exec .recv, .switch 0, .exec (.call 1 (word 1)), .switch 3,
      .exec (.send 1 (word 3)), .switch 1, .exec .resume, .exec (.call 2 (word 2)), .switch 2,
      .exec .recv]
    (fun x => decide (x.2 = [.called 0 1 1 (word 1), .sent 3 1 (word 3), .received 1 0 1 (word 1),
        .called 1 2 1 (word 2), .received 2 1 1 (word 2)] ∧ x.1.current = 2 ∧
      Node.ipcList 3 ∈ x.1.queues.queue 1) &&
      (x.1.exec (.replyRecv (word 5))).any fun y : IpcState × List Event =>
        decide (Node.ipcList 3 ∉ y.1.queues.queue 1))
    (by decide +kernel)
  -- the reply goes to the server, which has a client queued that is then gone
  rw [Bool.and_eq_true, decide_eq_true_eq, Option.any_eq_true] at hcheck
  obtain ⟨⟨hlog, hcurrent, hmem⟩, ⟨s', events⟩, hexec, hgone⟩ := hcheck
  exact ⟨s, log, s', events, boot_fresh, hrun, hlog, hcurrent, hexec, hmem,
    of_decide_eq_true hgone⟩

/-! ### Clients and servers

When servers only receive and reply, nothing can come in between, and each request is answered
exactly once. -/

/-- Servers only receive and reply, and clients only send to and call servers. -/
def Flat (server : Tid → Prop) (s : IpcState) : Op → Prop
  | .send T _ | .call T _ => ¬ server s.current ∧ server T
  | .recv | .replyRecv _ => server s.current
  | .resume => True

instance (server : Tid → Prop) [DecidablePred server] (s : IpcState) :
    (op : Op) → Decidable (s.Flat server op)
  | .send _ _ | .call _ _ => inferInstanceAs (Decidable (_ ∧ _))
  | .recv | .replyRecv _ => inferInstanceAs (Decidable (server _))
  | .resume => inferInstanceAs (Decidable True)

/-- The frames of the threads change only by the current thread blocking and going on. -/
theorem waitRequest_frame {s' : IpcState} {f : Frame} {events : List Event}
    (h : s.waitRequest f = some (s', events)) (t : Tid) :
    (s'.thread t).frame = (s.thread t).frame ∨ (s'.thread t).frame = some f := by
  rw [waitRequest] at h
  split at h
  · obtain ⟨⟨x, s₁⟩, haccept, h⟩ := Option.bind_eq_some_iff.mp h
    obtain ⟨rfl, -⟩ := Prod.mk.inj (Option.some.inj h)
    exact Or.inl (ipcAccept_frame haccept t)
  · simp only [Option.bind_eq_bind, Option.bind_eq_some_iff, Option.pure_def,
      Option.some.injEq, Prod.mk.injEq] at h
    grind [schedBlock]

/-- The thread that the operation `t` is inside of has named. -/
def named (s : IpcState) (t : Tid) : Option Tid := (s.thread t).frame.bind Frame.target

/-- A thread is inside an operation on `T` only if it has just named `T`. -/
theorem named_exec {s' : IpcState} {op : Op} {events : List Event}
    (h : s.exec op = some (s', events)) {t T : Tid} (ht : s'.named t = some T) :
    s.named t = some T ∨ t = s.current ∧ op.target = some T := by
  -- the two ways in which operations end: blocked in a frame, or in `wait_request`
  have hblock : ∀ (s₁ : IpcState) (f : Frame), s₁.current = s.current →
      (∀ t, (s₁.thread t).frame = (s.thread t).frame) → s' = s₁.schedBlock f →
      s.named t = some T ∨ t = s.current ∧ f.target = some T := by
    rintro s₁ f hcurrent hframe rfl
    by_cases htc : t = s.current
    · simp_all [named, schedBlock, modify_thread]
    · simp_all [named, schedBlock, modify_thread]
  have hwait : ∀ (s₁ : IpcState) (f : Frame) (events' : List Event), f.target = none →
      (∀ t, (s₁.thread t).frame = (s.thread t).frame) → s₁.waitRequest f = some (s', events') →
      s.named t = some T := by
    intro s₁ f events' hf hframe hs'
    rw [named, ← hframe]
    rcases waitRequest_frame hs' t with heq | heq
    · rwa [named, heq] at ht
    · rw [named, heq, Option.bind_some, hf] at ht
      cases ht
  cases op with
  | send T' words =>
      simp only [exec, ipcSend, Option.bind_eq_bind, Option.bind_eq_some_iff, Option.pure_def,
        Option.some.injEq, Prod.mk.injEq] at h
      obtain ⟨s₁, ⟨⟨s₂, b⟩, hs₂, hs₁⟩, rfl, -⟩ := h
      obtain ⟨hcurrent, hframe⟩ := handOver_frame hs₂
      cases b with
      | true =>
          simp only [if_true] at hs₁
          left
          rwa [named, ← hs₁, hframe] at ht
      | false => exact hblock s₂ (.send T') hcurrent hframe hs₁.symm
  | call T' words =>
      simp only [exec, ipcCall, reserveSlot, Option.bind_eq_bind, Option.bind_eq_some_iff,
        Option.pure_def, Option.some.injEq, Prod.mk.injEq] at h
      obtain ⟨s₁, ⟨s₂, ⟨queues, -, rfl⟩, ⟨s₃, b⟩, hs₃, hs₁⟩, rfl, -⟩ := h
      obtain ⟨hcurrent, hframe⟩ := handOver_frame hs₃
      refine hblock s₃ _ hcurrent (fun u => (hframe u).trans ?_) hs₁.symm
      simp only [modify_thread]
      split_ifs <;> rfl
  | recv => exact Or.inl (hwait s .recv events rfl (fun _ => rfl) h)
  | replyRecv words =>
      simp only [exec, ipcReplyRecv, Option.bind_eq_bind, Option.bind_eq_some_iff, Option.pure_def,
        Option.some.injEq, Prod.mk.injEq] at h
      obtain ⟨s₁, hs₁, ⟨s₂, events'⟩, hs₂, rfl, -⟩ := h
      exact Or.inl (hwait s₁ .replyRecv events' rfl (reply_frame hs₁).2 hs₂)
  -- A thread that goes on leaves its frame, and enters none.
  | resume =>
      simp only [exec, Option.map_eq_some_iff] at h
      obtain ⟨f, -, hresume⟩ := h
      obtain ⟨x, hx⟩ := resume_thread (s := s) f t
      rw [hresume] at hx
      left
      rw [named, hx] at ht
      split_ifs at ht
      · cases ht
      · exact ht

/-- Who names a thread is a client, and the thread it names is a server. -/
theorem Run.flat_named {server : Tid → Prop} (h₀ : s₀.Fresh) (hrun : Run (Flat server) s₀ s log)
    {t T : Tid} (ht : s.named t = some T) : ¬ server t ∧ server T := by
  induction hrun with
  | init =>
      rw [named, (h₀.thread_fresh t).2.2.2.2] at ht
      cases ht
  | @switch s _ u _ hu ih =>
      obtain ⟨st, hst, -⟩ := switchTo_thread (s := s) u t
      exact ih (by rwa [named, hst] at ht)
  | @exec s _ _ _ op _ _ hop hexec ih =>
      -- a thread is named as before, or by the operation that the caller has just made
      rcases named_exec hexec ht with hold | ⟨rfl, hT⟩
      · exact ih hold
      · cases op with
        | send T' words | call T' words =>
            obtain rfl := Option.some.inj hT
            exact hop
        | recv | replyRecv words | resume => cases hT

/-- Flat use of the endpoints is disciplined. -/
theorem Run.disciplined_of_flat {server : Tid → Prop} (h₀ : s₀.Fresh)
    (hrun : Run (Flat server) s₀ s log) (hlinked : s.Linked) {op : Op} (hop : s.Flat server op) :
    s.Disciplined op := by
  have hnamed : ∀ t f T, s.waits t = some f → f.target = some T → ¬ server t ∧ server T := by
    intro t f T hf hT
    apply hrun.flat_named h₀
    rw [named, (frame_of_waits hf).2]
    exact hT
  have hcall : ∀ T, server T → ¬ s.InCall T := by
    rintro T hT ⟨T', q, x, hwaits⟩
    exact (hnamed T _ T' hwaits rfl).1 hT
  cases op with
  | send T words => exact hcall T hop.2
  | call T words =>
      refine ⟨?_, fun hep => ?_, hcall T hop.2⟩
      · rintro rfl
        exact hop.1 hop.2
      · -- whoever is queued at the current thread would have named it
        have hqueue : s.queues.queue s.current ≠ [] := by
          rw [ne_eq, ← hlinked.inactive_iff, ← cur, hep]
          decide
        obtain ⟨n, hn⟩ := List.exists_mem_of_ne_nil _ hqueue
        obtain ⟨t, -, hsend | ⟨q, x, hsend⟩⟩ := hlinked.mem_queue_waitSend hep hn
        · exact hop.1 (hnamed t _ _ hsend rfl).2
        · exact hop.1 (hnamed t _ _ hsend rfl).2
  | recv | replyRecv words | resume => exact trivial

theorem Run.flat_disciplined {server : Tid → Prop} (h₀ : s₀.Fresh)
    (hrun : Run (Flat server) s₀ s log) : Run Disciplined s₀ s log :=
  hrun.mono fun _ _ _ hrun hdisciplined _ hop =>
    hrun.disciplined_of_flat h₀ (hdisciplined.history h₀).linked hop

/-- Servers that only receive and reply, and clients that only send to and call servers: every
request is received exactly once and in the order in which it was issued, a plain sender is woken
exactly when its message is accepted, and a call returns at most once, with the words of the
`ipc_reply_recv` its server executed while the call was the last message it had received.
Between a call and its return there is no other event of the caller. -/
theorem flat_exactly_once {server : Tid → Prop} (h₀ : s₀.Fresh)
    (hrun : Run (Flat server) s₀ s log) :
    (∀ T, issues T log = receipts T log ++ s.buffer T ++ s.requests T) ∧
    (∀ op, s.Enabled op → s.Flat server op →
      ∃ s' events, s.exec op = some (s', events) ∧ s.Moves s' events) ∧
    (∀ t, (s.thread t).state = .ready → ∀ u, (s.switchTo t).waits u = s.waits u) ∧
    ∀ l l' C T x out, log = l ++ .returned C T x out :: l' → x = T ∧ CallAnswered l C T out := by
  have hdisciplined := hrun.flat_disciplined h₀
  have hhist := hdisciplined.history h₀
  refine ⟨fun T => ?_, fun op henabled hop => ?_, fun t ht u => waits_switchTo ht u,
    fun l l' C T x out hlog => hdisciplined.returned h₀ hlog⟩
  · simpa [noFlight] using hhist.account T
  · obtain ⟨s', events, hexec, -, hmoves⟩ :=
      hhist.exec henabled (hrun.disciplined_of_flat h₀ hhist.linked hop)
    exact ⟨s', events, hexec, hmoves⟩

/-- Two clients of the server 0: thread 1 calls it, and thread 2 sends to it meanwhile. -/
theorem flat_exactly_once_server : ∃ s log, boot.Fresh ∧ Run (Flat (· = 0)) boot s log ∧
    issues 0 log = [(1, 1, word 1), (2, 0, word 2)] ∧ s.requests 0 = [(2, 0, word 2)] ∧
    s.waits 2 = some (.send 0) ∧
    (∃ s' events, s.exec (.replyRecv (word 7)) = some (s', events) ∧ s.Moves s' events) := by
  obtain ⟨s, log, hrun, hcheck⟩ := exists_run_of_execAll (Flat (· = 0))
    [.exec .recv, .switch 1, .exec (.call 0 (word 1)), .switch 2, .exec (.send 0 (word 2)),
      .switch 0, .exec .resume]
    (fun x => decide (x.1.Enabled (.replyRecv (word 7)) ∧ x.1.Flat (· = 0) (.replyRecv (word 7)) ∧
      issues 0 x.2 = [(1, 1, word 1), (2, 0, word 2)] ∧ receipts 0 x.2 = [(1, 1, word 1)] ∧
      x.1.buffer 0 = [] ∧ x.1.waits 2 = some (.send 0)))
    (by decide +kernel)
  obtain ⟨henabled, hflat, hissues, hreceipts, hbuffer, hwaits⟩ := of_decide_eq_true hcheck
  -- two clients have called, one was received and is answered next
  obtain ⟨haccount, hexec, -, -⟩ := flat_exactly_once boot_fresh hrun
  refine ⟨s, log, boot_fresh, hrun, hissues, ?_, hwaits, hexec _ henabled hflat⟩
  have := haccount 0
  simpa [hissues, hreceipts, hbuffer] using this.symm

end IpcState

end Koharu
