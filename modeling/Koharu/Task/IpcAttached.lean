import Koharu.Task.IpcFrame

/-!
# Who is on a wait queue

`Linked` says by which operation each node has come to stand where it stands. Less is enough to know
that only threads that are blocked are on wait queues, and `Attached` says just that much. It does
not look at frames, so that threads may be blocked in something else, and it allows calls of
oneself.

In the middle of an operation the current thread is on a queue while it still runs. Therefore who
is taken to be asleep is a parameter of `AttachedFor`.
-/

namespace Koharu

namespace IpcState

variable {s s' : IpcState} {A B : Tid → Prop}

/-- The threads in `A` may be on wait queues, and no others are. -/
structure AttachedFor (A : Tid → Prop) (s : IpcState) : Prop where
  inactive : ∀ t, (s.thread t).epState = .inactive → s.queues.queue t = []
  waitSend : ∀ t, (s.thread t).epState = .waitSend → s.queues.queue t ≠ []
  waitRecv : ∀ t, (s.thread t).epState = .waitRecv →
    A t ∧ ∃ n, s.queues.queue t = [n] ∧ (n = .ipcList t ∨ n = .ipcWaitList t)
  wait_home : ∀ t h, s.queues.home (.ipcWaitList t) = some h →
    h = t ∧ (s.thread t).epState = .waitRecv
  list_home : ∀ t, s.queues.home (.ipcList t) ≠ none → A t

/-- Only threads that are blocked are on wait queues. -/
def Attached (s : IpcState) : Prop := s.AttachedFor fun t => (s.thread t).state = .blocked

theorem AttachedFor.detached (h : s.AttachedFor A) {t : Tid} (ht : ¬ A t) : s.Detached t := by
  have hep : (s.thread t).epState ≠ .waitRecv := fun hep => ht (h.waitRecv t hep).1
  refine ⟨hep, not_not.mp fun hne => ht (h.list_home t hne), not_not.mp fun hne => ?_⟩
  obtain ⟨T, hT⟩ := Option.ne_none_iff_exists'.mp hne
  exact hep (h.wait_home t T hT).2

/-- Only the queues and the states of the endpoints matter, and more threads may be asleep. -/
theorem AttachedFor.congr (h : s.AttachedFor A) (hqueues : s'.queues = s.queues)
    (hep : ∀ t, (s'.thread t).epState = (s.thread t).epState)
    (hAB : ∀ t, A t → ¬ s.Detached t → B t) : s'.AttachedFor B := by
  -- a thread that listens or is on a list is not detached, so that `B` has it
  have hlinked : ∀ t, (s.thread t).epState = .waitRecv ∨ s.queues.home (.ipcList t) ≠ none →
    B t := by
    intro t ht
    refine hAB t ?_ fun hdetached => ?_
    · exact ht.elim (fun hep => (h.waitRecv t hep).1) (h.list_home t)
    · exact ht.elim hdetached.epState fun hne => hne hdetached.list
  obtain ⟨h1, h2, h3, h4, h5⟩ := h
  constructor <;> simp only [hqueues, hep]
  · exact h1
  · exact h2
  · exact fun t ht => ⟨hlinked t (Or.inl ht), (h3 t ht).2⟩
  · exact h4
  · exact fun t ht => hlinked t (Or.inr ht)

/-- Only threads that are blocked and linked have to stay blocked. -/
theorem Attached.congr (h : s.Attached) (hqueues : s'.queues = s.queues)
    (hep : ∀ t, (s'.thread t).epState = (s.thread t).epState)
    (hstate : ∀ t, (s.thread t).state = .blocked → ¬ s.Detached t →
    (s'.thread t).state = .blocked) :
    s'.Attached :=
  AttachedFor.congr h hqueues hep hstate

/-- In the end the current thread is blocked. -/
theorem AttachedFor.schedBlock (h : s.AttachedFor A)
    (hA : ∀ t, A t → (s.thread t).state = .blocked ∨ t = s.current) (f : Frame) :
    (s.schedBlock f).Attached := by
  refine h.congr rfl (fun t => ?_) fun t ht _ => ?_
  · by_cases htc : t = s.current <;> simp [IpcState.schedBlock, modify_thread, htc]
  · by_cases htc : t = s.current
    · simp [IpcState.schedBlock, modify_thread, htc]
    · simpa [IpcState.schedBlock, modify_thread, htc] using hA t ht

/-! ### The parts of the operations

What each part needs for the threads on wait queues to be blocked ones afterwards. -/

/-- A message is delivered to a thread that waits, unless its own request is queued elsewhere. -/
theorem AttachedFor.deliver (h : s.AttachedFor A) {r : Tid} (hr : (s.thread r).epState = .waitRecv)
    (hvacant : s.Vacant r) (x : Tid) (words : Words) (prevSeq : Option (BitVec 64)) :
    ∃ s', s.deliver r x words prevSeq = some s' ∧ s'.AttachedFor (fun t => A t ∧ t ≠ r) ∧
      s'.current = s.current ∧ ∀ t, t ≠ r → s'.thread t = s.thread t := by
  obtain ⟨-, n, hqueue, hown⟩ := h.waitRecv r hr
  have hne : s.queues.queue r ≠ [] := by simp [hqueue]
  obtain ⟨s', hs'⟩ := deliver_succeeds hne x words prevSeq
  obtain ⟨node, hn, hqueues, hcurrent, hthread, -, hep⟩ := deliver_fields hs'
  have hnode : node = n := by
    have hmem : node ∈ s.queues.queue r := (s.queues.mem_queue r node).mpr hn
    rw [hqueue] at hmem
    exact List.mem_singleton.mp hmem
  subst hnode
  -- the node taken off the queue is the only one of the thread that is linked
  have hlast : ∀ m, m = .ipcList r ∨ m = .ipcWaitList r → s.queues.home m ≠ none → m = node := by
    intro m hm hne
    obtain ⟨T, hT⟩ := Option.ne_none_iff_exists'.mp hne
    have hTr : T = r := by
      rcases hm with rfl | rfl
      · exact hvacant T hT
      · exact (h.wait_home r T hT).1
    have hmem := (s.queues.mem_queue T m).mpr hT
    rw [hTr, hqueue] at hmem
    exact List.mem_singleton.mp hmem
  have hempty : s'.queues.queue r = [] := by simp [hqueues, hqueue]
  rw [if_pos hempty] at hep
  refine ⟨s', hs', ?_, hcurrent, hthread⟩
  obtain ⟨h1, h2, h3, h4, h5⟩ := h
  constructor <;> intro t <;> simp only [hqueues] at hempty ⊢ <;> grind

/-- The current thread is put at the end of the queue of a thread that does not wait. -/
theorem AttachedFor.post (h : s.AttachedFor A) {T : Tid} (hT : (s.thread T).epState ≠ .waitRecv)
    (hn : s.queues.home (.ipcList s.current) = none)
    (hqueues : s'.queues = s.queues.snocAt (.ipcList s.current) T hn)
    (hep : ∀ t, (s'.thread t).epState = if t = T then .waitSend else (s.thread t).epState) :
    s'.AttachedFor fun t => A t ∨ t = s.current := by
  have hnil : (s.queues.snocAt (.ipcList s.current) T hn).queue T ≠ [] := by simp
  obtain ⟨h1, h2, h3, h4, h5⟩ := h
  constructor <;> intro t <;> simp only [hqueues, hep] <;> grind

/-- The current thread waits at its own endpoint, by one of its nodes. -/
theorem AttachedFor.wait (h : s.AttachedFor A) (hsend : s.cur.epState ≠ .waitSend)
    (hrecv : s.cur.epState ≠ .waitRecv) {n : Node}
    (hown : n = .ipcList s.current ∨ n = .ipcWaitList s.current) (hn : s.queues.home n = none)
    (s₁ : IpcState) (hqueues : s₁.queues = s.queues.snocAt n s.current hn)
    (hep : ∀ t, (s₁.thread t).epState = if t = s.current then .waitRecv else (s.thread t).epState) :
    s₁.AttachedFor fun t => A t ∨ t = s.current := by
  have hempty : s.queues.queue s.current = [] := by
    apply h.inactive
    cases hst : (s.thread s.current).epState with
    | inactive => rfl
    | waitSend => exact absurd hst hsend
    | waitRecv => exact absurd hst hrecv
  obtain ⟨h1, h2, h3, h4, h5⟩ := h
  constructor <;> intro t <;> simp only [hqueues, hep] <;> grind

/-- A message is handed over, and then the current thread may block. -/
theorem AttachedFor.handOver (h : s.AttachedFor A)
    (hA : ∀ t, A t → (s.thread t).state = .blocked ∨ t = s.current)
    (hn : s.queues.home (.ipcList s.current) = none) {T : Tid}
    (hvacant : (s.thread T).epState = .waitRecv → s.Vacant T) (words : Words) (seq : BitVec 64) :
    ∃ s' delivered, s.handOver T words seq = some (s', delivered) ∧
      (∀ f, (s'.schedBlock f).Attached) ∧
      (delivered = true → (∀ t, A t → (s.thread t).state = .blocked) → s'.Attached) := by
  -- the message is delivered to a receiver that waits, otherwise posted
  by_cases hep : (s.thread T).epState = .waitRecv
  · obtain ⟨s', hs', hattached, hcurrent, hthread⟩ :=
      h.deliver hep (hvacant hep) s.current words (some seq)
    refine ⟨s', true, ?_, hattached.schedBlock fun t ht => ?_, fun _ hblocked => ?_⟩
    · rw [IpcState.handOver, if_pos hep, ipcDeliverMsg, hs']
      rfl
    · rw [hthread t ht.2, hcurrent]
      exact hA t ht.1
    · apply hattached.congr rfl (fun _ => rfl)
      intro t ht _
      rw [hthread t ht.2]
      exact hblocked t ht.1
  · let posted : IpcState := { ((s.modify s.current fun th => { th with ipcMsg := words }).modify T
      fun th => { th with epState := .waitSend }) with
        queues := s.queues.snocAt (.ipcList s.current) T hn }
    have hposted : posted.AttachedFor fun t => A t ∨ t = s.current := by
      apply h.post hep hn rfl
      intro t
      by_cases hT : t = T <;> by_cases hc : t = s.current <;> simp [posted, modify_thread, hT, hc]
      split <;> rfl
    refine ⟨posted, false, ?_, hposted.schedBlock fun t ht => ?_, by simp⟩
    · simp only [IpcState.handOver, if_neg hep, modify_queues, modify_current,
        ListStore.pushBack_eq_some T hn]
      rfl
    -- posting changes no thread's state
    · have hstate : (posted.thread t).state = (s.thread t).state := by
        by_cases hT : t = T <;> by_cases hc : t = s.current <;>
          simp [posted, modify_thread, hT, hc] <;> split <;> simp_all
      rw [hstate]
      exact ht.elim (hA t) Or.inr

/-- The first sender is taken off the current thread's queue, and woken unless it is in a call. -/
theorem Attached.ipcAccept (h : s.Attached) (hcur : s.cur.state ≠ .blocked)
    (hep : s.cur.epState = .waitSend) :
    ∃ x s', s.ipcAccept s.current = some (x, s') ∧ s'.Attached := by
  obtain ⟨n, rest, hqueue⟩ := List.exists_cons_of_ne_nil (h.waitSend s.current hep)
  have hn : s.queues.home n = some s.current := ListStore.home_of_mem (hqueue ▸ List.mem_cons_self)
  cases n with
  | ipcWaitList t =>
      -- the reply slot of a call is not on the queue of an endpoint with senders
      obtain ⟨rfl, hrecv⟩ := h.wait_home t _ hn
      rw [cur, hrecv] at hep
      cases hep
  | ipcList x =>
      have hx : (s.thread x).state = .blocked := h.list_home x (by simp [hn])
      have hxc : x ≠ s.current := by
        rintro rfl
        exact hcur hx
      refine ⟨x, _, ipcAccept_eq_accepted hqueue hn hxc hx, ?_⟩
      have hwaits := fun t => h.wait_home t
      obtain ⟨h1, h2, h3, h4, h5⟩ := h
      constructor <;> intro t <;>
        simp only [accepted_thread_epState, accepted_thread_state, accepted_queues] <;>
        grind [cur]

/-- The end of `ipc_recv` and `ipc_reply_recv`. -/
theorem Attached.waitRequest (h : s.Attached) (hcur : s.cur.state ≠ .blocked) (frame : Frame) :
    ∃ s' events, s.waitRequest frame = some (s', events) ∧ s'.Attached := by
  rw [IpcState.waitRequest]
  split
  next hep =>
    obtain ⟨x, s', haccept, hattached⟩ := h.ipcAccept hcur hep
    exact ⟨s', _, by rw [haccept]; rfl, hattached⟩
  next hep =>
    have hdetached := h.detached hcur
    let listens : IpcState := { (s.modify s.current fun th => { th with epState := .waitRecv }) with
      queues := s.queues.snocAt (.ipcList s.current) s.current hdetached.list }
    -- the caller listens and goes on its own list, as its frame says
    have hlistens := h.wait hep hdetached.epState (Or.inl rfl) hdetached.list listens rfl
      fun t => by by_cases ht : t = s.current <;> simp [listens, modify_thread, ht]
    refine ⟨listens.schedBlock frame, [], ?_, hlistens.schedBlock (fun t ht => ?_) frame⟩
    · simp only [modify_queues, modify_current, ListStore.pushBack_eq_some _ hdetached.list]
      rfl
    · by_cases htc : t = s.current <;> simp_all [listens, modify_thread]

/-- The first half of `ipc_reply_recv`. -/
theorem Attached.reply (h : s.Attached) (hvacant : ∀ C, s.replyDest = some C → s.Vacant C)
    (words : Words) : ∃ s', s.reply words = some s' ∧ s'.Attached ∧ s'.cur = s.cur := by
  unfold IpcState.reply
  cases hdest : s.replyDest with
  | none => exact ⟨s, rfl, h, rfl⟩
  | some C =>
      -- the destination listens, and it is not the server itself
      have hcond : C ≠ s.current ∧ (s.thread C).epState = .waitRecv := by
        simp only [replyDest, Option.ite_none_right_eq_some, Option.some.injEq] at hdest
        obtain ⟨⟨-, -, hne, -, hep, -⟩, rfl⟩ := hdest
        exact ⟨hne, hep⟩
      obtain ⟨s', hs', hattached, hcurrent, hthread⟩ :=
        h.deliver hcond.2 (hvacant C hdest) s.current words none
      refine ⟨s', hs', hattached.congr rfl (fun _ => rfl) fun t ht _ => ?_, ?_⟩
      · rw [hthread t ht.2]
        exact ht.1
      · rw [cur, hcurrent, hthread _ (Ne.symm hcond.1), cur]

/-! ### The operations

The parts are put together. A careless operation is one that wakes a thread without unlinking it. -/

/-- What an operation must not do for the wait queues to hold threads that are blocked: call while
senders are queued at the caller's own endpoint, or hand something to a thread whose own request is
still queued. -/
def Careful (s : IpcState) : Op → Prop
  | .send T _ => (s.thread T).epState = .waitRecv → s.Vacant T
  | .call T _ => s.cur.epState ≠ .waitSend ∧ ((s.thread T).epState = .waitRecv → s.Vacant T)
  | .replyRecv _ => ∀ C, s.replyDest = some C → s.Vacant C
  | .recv | .resume => True

/-- A careful operation succeeds, and afterwards only threads that are blocked are on wait
queues. -/
theorem Attached.exec {op : Op} (h : s.Attached) (hcur : s.cur.state ≠ .blocked)
    (hop : s.Careful op) (hresume : op = .resume → s.cur.frame ≠ none) :
    ∃ s' events, s.exec op = some (s', events) ∧ s'.Attached := by
  have hdetached := h.detached hcur
  cases op with
  | send T words =>
      obtain ⟨s', delivered, hs', hblock, hattached⟩ :=
        h.handOver (fun t => Or.inl) hdetached.list hop words 0
      refine ⟨if delivered then s' else s'.schedBlock (.send T), [.sent s.current T words], ?_, ?_⟩
      · rw [IpcState.exec, ipcSend, hs']
        rfl
      · cases delivered with
        | true => exact hattached rfl fun t ht => ht
        | false => exact hblock _
  | recv => exact h.waitRequest hcur .recv
  | call T words =>
      let reserves : IpcState := { (s.modify s.current fun th =>
        { th with ipcCallSeq := th.ipcCallSeq + 1, epState := .waitRecv }) with
          queues := s.queues.snocAt (.ipcWaitList s.current) s.current hdetached.wait }
      have hreserve : s.reserveSlot = some reserves := by
        rw [reserveSlot, modify_queues, modify_current, ListStore.pushBack_eq_some _ hdetached.wait]
        rfl
      have hslot := h.wait hop.1 hdetached.epState (Or.inr rfl) hdetached.wait reserves rfl
        fun t => by by_cases ht : t = s.current <;> simp [reserves, modify_thread, ht]
      have hhome : ∀ t, reserves.queues.home (.ipcList t) = s.queues.home (.ipcList t) := by
        intro t
        simp [reserves]
      -- a call of oneself is handed to the slot that has just been reserved
      have hvacant : (reserves.thread T).epState = .waitRecv → reserves.Vacant T := by
        intro hep T' hT'
        by_cases hTc : T = s.current
        · subst hTc
          rw [hhome, hdetached.list] at hT'
          cases hT'
        · refine hop.2 ?_ T' (hhome T ▸ hT')
          simpa [reserves, modify_thread, hTc] using hep
      obtain ⟨s', delivered, hs', hblock, -⟩ := hslot.handOver
        (fun t ht => by by_cases htc : t = s.current <;> simp_all [reserves, modify_thread])
        ((hhome _).trans hdetached.list) hvacant words reserves.cur.ipcCallSeq
      refine ⟨_, [.called s.current T (s.cur.ipcCallSeq + 1) words], ?_,
        hblock (.call T reserves.cur.ipcCallSeq reserves.cur.ipcSender)⟩
      rw [IpcState.exec, ipcCall, hreserve]
      simp only [Option.bind_eq_bind, Option.bind_some, hs', Option.pure_def]
  | replyRecv words =>
      obtain ⟨s₁, hs₁, hattached, hsame⟩ := h.reply hop words
      obtain ⟨s', events, hs', hattached'⟩ :=
        hattached.waitRequest (by rw [hsame]; exact hcur) .replyRecv
      exact ⟨s', _, ipcReplyRecv_eq hs₁ hs', hattached'⟩
  | resume =>
      obtain ⟨f, hf⟩ := Option.ne_none_iff_exists'.mp (hresume rfl)
      refine ⟨_, _, by rw [IpcState.exec, hf]; rfl,
        h.congr (resume_queues f) (fun t => ?_) fun t ht _ => ?_⟩
      all_goals obtain ⟨x, hx⟩ := resume_thread (s := s) f t
      all_goals rw [hx]
      all_goals by_cases htc : t = s.current <;> simp_all [cur]

end IpcState

end Koharu
