import Koharu.Task.IpcInvariant
import Koharu.Task.System

/-!
# What an operation does to other threads

An operation of `kernel/task/ipc.c` changes the thread that executes it and the threads in
`System.candidates`: the target, the thread a reply goes to and the sender whose message is
accepted. Of those it wakes only threads that wait at an endpoint. Nothing is assumed of the queues
here.

`Stirs l` says that the threads in `l` may have been woken. It is proved for the parts of `ipc.c`,
which are the delivery of a message, the acceptance of one and the end of a receive, and two of them
after each other stir what each of them stirs (`Stirs.trans`). A woken thread was linked at an
endpoint, which is what the scheduler needs to know to put it on a run queue.
-/

namespace Koharu

namespace IpcState

variable {s s₁ s' : IpcState}

theorem modify_modify (s : IpcState) (t : Tid) (f g : Thread → Thread) :
    (s.modify t f).modify t g = s.modify t fun th => g (f th) := by
  simp [modify]

/-- The thread is on no wait queue, and its endpoint does not say that it waits. -/
structure Detached (s : IpcState) (t : Tid) : Prop where
  epState : (s.thread t).epState ≠ .waitRecv
  list : s.queues.home (.ipcList t) = none
  wait : s.queues.home (.ipcWaitList t) = none

/-- Taking a node off its queue detaches nobody less. -/
theorem Detached.erase {t r : Tid} {n : Node} (h : s.Detached t) (hn : s.queues.home n = some r)
    (hqueues : s'.queues = s.queues.eraseAt n r hn) (hep : (s'.thread t).epState ≠ .waitRecv) :
    s'.Detached t := by
  refine ⟨hep, ?_, ?_⟩ <;> rw [hqueues, ListStore.eraseAt_home_apply]
  · rw [h.list, ite_self]
  · rw [h.wait, ite_self]

/-- Linking a node of another thread does not matter. -/
theorem Detached.push {t r : Tid} {n : Node} {queues : ListStore Tid Node} (h : s.Detached t)
    (hpush : s.queues.pushBack n r = some queues) (hn : n ≠ .ipcList t ∧ n ≠ .ipcWaitList t)
    (hqueues : s'.queues = queues) (hep : (s'.thread t).epState ≠ .waitRecv) : s'.Detached t := by
  by_cases hhome : s.queues.home n = none
  · rw [ListStore.pushBack_eq_some r hhome] at hpush
    cases hpush
    refine ⟨hep, ?_, ?_⟩ <;> rw [hqueues, ListStore.snocAt_home_apply]
    · rw [if_neg (Ne.symm hn.1), h.list]
    · rw [if_neg (Ne.symm hn.2), h.wait]
  · rw [ListStore.pushBack_eq_none r hhome] at hpush
    cases hpush

/-- The threads in `l` may have been woken, and what the current thread has done otherwise is not
seen in the states. -/
structure Stirs (l : List Tid) (s s' : IpcState) : Prop where
  current : s'.current = s.current
  thread : ∀ t, t ≠ s.current → t ∉ l → s'.thread t = s.thread t
  state : ∀ t, (s'.thread t).state = (s.thread t).state ∨
    (s.thread t).state = .blocked ∧ (s'.thread t).state = .ready ∧ t ∈ l ∧ ¬ s.Detached t
  detached : ∀ t, t ≠ s.current → s.Detached t → s'.Detached t

theorem Stirs.trans {l l' : List Tid} (h : Stirs l s s₁) (h' : Stirs l' s₁ s')
    (hcur : s.cur.state ≠ .blocked) : Stirs (l ++ l') s s' where
  current := h'.current.trans h.current
  thread t ht hmem := by
    obtain ⟨hl, hl'⟩ := not_or.mp (List.mem_append.not.mp hmem)
    rw [h'.thread t (h.current ▸ ht) hl', h.thread t ht hl]
  state t := by
    -- a thread woken by the first part is not blocked any more, so the second does not wake it
    -- again
    rcases h.state t with hst | ⟨hb, hr, hmem, hwaits⟩
    · rcases h'.state t with hst' | ⟨hb', hr', hmem', hwaits'⟩
      · exact Or.inl (hst'.trans hst)
      · have htc : t ≠ s.current := by
          rintro rfl
          exact hcur (hst ▸ hb')
        exact Or.inr ⟨hst ▸ hb', hr', List.mem_append_right l hmem', mt (h.detached t htc) hwaits'⟩
    · rcases h'.state t with hst' | ⟨hb', -⟩
      · exact Or.inr ⟨hb, hst'.trans hr, List.mem_append_left l' hmem, hwaits⟩
      · rw [hr] at hb'
        cases hb'
  detached t ht hdetached := h'.detached t (h.current ▸ ht) (h.detached t ht hdetached)

/-- Changing the current thread, but not its state, and whatever of the target. -/
theorem stirs_of_thread {l : List Tid} (hcurrent : s'.current = s.current)
    (hthread : ∀ t, t ≠ s.current → t ∉ l → s'.thread t = s.thread t)
    (hstate : ∀ t, (s'.thread t).state = (s.thread t).state)
    (hdetached : ∀ t, t ≠ s.current → s.Detached t → s'.Detached t) : Stirs l s s' :=
  ⟨hcurrent, hthread, fun t => Or.inl (hstate t), hdetached⟩

/-! ### The parts of the operations

What the parts change and what they leave alone, in a form that does not unfold them again. -/

/-- They succeed if a node is linked. -/
theorem deliver_succeeds {r : Tid} (h : s.queues.queue r ≠ []) (x : Tid) (words : Words)
    (prevSeq : Option (BitVec 64)) : ∃ s', s.deliver r x words prevSeq = some s' := by
  obtain ⟨node, rest, hqueue⟩ := List.exists_cons_of_ne_nil h
  have hn : s.queues.home node = some r := ListStore.home_of_mem (hqueue ▸ List.mem_cons_self)
  simp [deliver, hqueue, ListStore.unlink_eq_some hn]

/-- What `ipc_deliver_msg` and `ipc_deliver_reply` do to the queues and the threads. -/
theorem deliver_fields {r x : Tid} {words : Words} {prevSeq : Option (BitVec 64)}
    (h : s.deliver r x words prevSeq = some s') :
    ∃ node, ∃ hn : s.queues.home node = some r, s'.queues = s.queues.eraseAt node r hn ∧
      s'.current = s.current ∧ (∀ t, t ≠ r → s'.thread t = s.thread t) ∧
      (s'.thread r).state =
        (if (s.thread r).state = .blocked then .ready else (s.thread r).state) ∧
      (s'.thread r).epState =
        if s'.queues.queue r = [] then .inactive else (s.thread r).epState := by
  obtain ⟨node, hnode, h⟩ := Option.bind_eq_some_iff.mp h
  obtain ⟨queues, hunlink, h⟩ := Option.bind_eq_some_iff.mp h
  have hn : s.queues.home node = some r := ListStore.home_of_mem (List.mem_of_mem_head? hnode)
  rw [ListStore.unlink_eq_some hn] at hunlink
  cases hunlink
  refine ⟨node, hn, ?_⟩
  -- whether the queue is empty now, and whether the receiver is blocked
  by_cases hempty : (s.queues.eraseAt node r hn).queue r = [] <;>
    by_cases hb : (s.thread r).state = .blocked <;>
    (simp only [hempty, if_true, if_false, modify_thread, hb, Option.pure_def,
      Option.some.injEq] at h
     subst h
     simp +contextual [schedWakeup, modify_thread, hb, hempty, -ListStore.eraseAt_queue])

/-- They wake the receiver, which waits at its endpoint. -/
theorem deliver_stirs {r x : Tid} {words : Words} {prevSeq : Option (BitVec 64)}
    (hr : (s.thread r).epState = .waitRecv) (h : s.deliver r x words prevSeq = some s') :
    Stirs [r] s s' := by
  obtain ⟨node, hn, hqueues, hcurrent, hthread, hstate, -⟩ := deliver_fields h
  refine ⟨hcurrent, fun t _ ht => hthread t (List.ne_of_not_mem_cons ht), fun t => ?_,
    fun t _ hdetached => ?_⟩
  -- only the receiver's state changes, and only if it was blocked
  · by_cases ht : t = r
    · subst ht
      rw [hstate]
      split
      next hb => exact Or.inr ⟨hb, rfl, List.mem_singleton_self t, fun h => h.epState hr⟩
      next => exact Or.inl rfl
    · exact Or.inl (by rw [hthread t ht])
  · have htr : t ≠ r := by
      rintro rfl
      exact hdetached.epState hr
    exact hdetached.erase hn hqueues (by rw [hthread t htr]; exact hdetached.epState)

/-- What `ipc_accept` does: the first sender is woken if it is blocked in `ipc_send`. -/
theorem ipcAccept_stirs {x : Tid} (h : s.ipcAccept s.current = some (x, s')) :
    Stirs (System.sender s) s s' := by
  rw [ipcAccept] at h
  split at h
  next snd rest hqueue =>
    have hn : s.queues.home (.ipcList snd) = some s.current :=
      ListStore.home_of_mem (hqueue ▸ List.mem_cons_self)
    have hsender : System.sender s = [snd] := by rw [System.sender, hqueue]
    rw [ListStore.unlink_eq_some hn, Option.bind_eq_bind, Option.bind_some] at h
    rw [hsender]
    generalize (if (s.thread snd).epState = .waitRecv then (s.thread snd).ipcCallSeq else 0) =
      seq at h
    -- the part that changes the current thread only
    have hmid : ∀ (s₁ : IpcState) (f : Thread → Thread),
        s₁ = { s with queues := s.queues.eraseAt (.ipcList snd) s.current hn }.modify s.current f →
        (∀ th, (f th).state = th.state) → Stirs [snd] s
          (if (s₁.thread snd).epState ≠ .waitRecv ∧ (s₁.thread snd).state = .blocked then
            s₁.schedWakeup snd else s₁) := by
      rintro s₁ f rfl hf
      have hst : ∀ t, ((({ s with queues := s.queues.eraseAt (.ipcList snd) s.current hn } :
          IpcState).modify s.current f).thread t).state = (s.thread t).state := by
        intro t
        rw [modify_thread]
        split
        · exact hf _
        · rfl
      have hlinked : ¬ s.Detached snd := by
        intro hdetached
        rw [hdetached.list] at hn
        cases hn
      split
      next hwake =>
        refine ⟨rfl, fun t ht hmem => ?_, fun t => ?_, fun t ht hdetached => ?_⟩
        · have hts := List.ne_of_not_mem_cons hmem
          simp [schedWakeup, modify_thread, ht, hts]
        · by_cases hts : t = snd
          · subst hts
            refine Or.inr ⟨(hst t).symm.trans hwake.2, ?_, List.mem_singleton_self t, hlinked⟩
            simp [schedWakeup, modify_thread]
          · left
            rw [schedWakeup, modify_thread, if_neg hts]
            exact hst t
        · have hts : t ≠ snd := by
            rintro rfl
            exact hlinked hdetached
          apply hdetached.erase hn rfl
          simpa [schedWakeup, modify_thread, ht, hts] using hdetached.epState
      next =>
        refine stirs_of_thread rfl (fun t ht _ => ?_) hst fun t ht hdetached => ?_
        · rw [modify_thread, if_neg ht]
        · apply hdetached.erase hn rfl
          simpa [modify_thread, ht] using hdetached.epState
    by_cases hempty : (s.queues.eraseAt (.ipcList snd) s.current hn).queue s.current = []
    · simp only [hempty, if_true, modify_modify] at h
      cases h
      exact hmid _ _ rfl fun _ => rfl
    · simp only [hempty, if_false] at h
      cases h
      exact hmid _ _ rfl fun _ => rfl
  next => cases h

/-- What `ipc_send` and `ipc_call` do to hand a message over. -/
theorem handOver_stirs {T : Tid} {words : Words} {seq : BitVec 64} {delivered : Bool}
    (h : s.handOver T words seq = some (s', delivered)) : Stirs [T] s s' := by
  rw [handOver] at h
  split at h
  -- a listening thread is delivered to; else the caller joins the queue and nobody is woken
  next hep =>
    obtain ⟨s₁, hdeliver, hret⟩ := Option.bind_eq_some_iff.mp h
    cases hret
    exact deliver_stirs hep hdeliver
  next =>
    obtain ⟨queues, hpush, hret⟩ := Option.bind_eq_some_iff.mp h
    cases hret
    refine stirs_of_thread rfl (fun t ht htT => ?_) (fun t => ?_) fun t ht hdetached => ?_
    · have hne := List.ne_of_not_mem_cons htT
      simp [modify_thread, ht, hne]
    · by_cases ht : t = T <;> by_cases hc : t = s.current <;> simp [modify_thread, ht, hc] <;>
        split <;> simp_all
    · apply hdetached.push hpush (by simpa using Ne.symm ht) rfl
      by_cases htT : t = T
      · simp [modify_thread, htT]
      · simpa [modify_thread, ht, htT] using hdetached.epState

/-- The end of `ipc_recv` and `ipc_reply_recv`. -/
theorem waitRequest_stirs {frame : Frame} {events : List Event}
    (h : s.waitRequest frame = some (s', events)) :
    ∃ s₁, Stirs (System.sender s) s s₁ ∧ (s' = s₁ ∨ s' = s₁.schedBlock frame) := by
  rw [waitRequest] at h
  split at h
  -- a sender is accepted, whom that may wake; or the caller goes to sleep itself
  · obtain ⟨⟨x, s₁⟩, haccept, hret⟩ := Option.bind_eq_some_iff.mp h
    obtain ⟨rfl, -⟩ := Prod.mk.inj (Option.some.inj hret)
    exact ⟨s₁, ipcAccept_stirs haccept, Or.inl rfl⟩
  · obtain ⟨queues, hpush, hret⟩ := Option.bind_eq_some_iff.mp h
    obtain ⟨rfl, -⟩ := Prod.mk.inj (Option.some.inj hret)
    refine ⟨{ s.modify s.current fun th => { th with epState := .waitRecv } with queues },
      stirs_of_thread rfl (fun t ht _ => ?_) (fun t => ?_) fun t ht hdetached => ?_, Or.inr rfl⟩
    · simp [modify_thread, ht]
    · by_cases ht : t = s.current <;> simp [modify_thread, ht]
    · apply hdetached.push hpush (by simpa using Ne.symm ht) rfl
      simpa [modify_thread, ht] using hdetached.epState

/-- The first half of `ipc_reply_recv`. The queue of the thread that replies stays as it is. -/
theorem reply_stirs {words : Words} (h : s.reply words = some s') :
    Stirs s.replyDest.toList s s' ∧ s'.queues.queue s.current = s.queues.queue s.current := by
  unfold reply at h
  cases hdest : s.replyDest with
  | none =>
      rw [hdest] at h
      cases h
      exact ⟨stirs_of_thread rfl (fun _ _ _ => rfl) (fun _ => rfl) fun _ _ => id, rfl⟩
  | some r =>
      rw [hdest] at h
      -- the destination listens, so that `deliver` takes it off its own queue, not the server's
      have hcond : r ≠ s.current ∧ (s.thread r).epState = .waitRecv := by
        simp only [replyDest, Option.ite_none_right_eq_some, Option.some.injEq] at hdest
        obtain ⟨⟨-, -, hne, -, hep, -⟩, rfl⟩ := hdest
        exact ⟨hne, hep⟩
      obtain ⟨node, hn, hqueues, -⟩ := deliver_fields h
      refine ⟨deliver_stirs hcond.2 h, ?_⟩
      rw [hqueues, ListStore.eraseAt_queue, Function.update_of_ne (Ne.symm hcond.1)]

/-! ### The operations

The same for whole operations, as the system calls use it. -/

/-- An operation wakes some of the threads it may wake, and at the end it may block. -/
theorem exec_stirs {op : Op} {events : List Event} (hcur : s.cur.state ≠ .blocked)
    (h : s.exec op = some (s', events)) :
    ∃ s₁, Stirs (System.candidates s op) s s₁ ∧ (s' = s₁ ∨ ∃ f, s' = s₁.schedBlock f) := by
  cases op with
  | send T words =>
      obtain ⟨s₂, hsend, hret⟩ := Option.bind_eq_some_iff.mp h
      obtain ⟨⟨s₁, delivered⟩, hover, hblock⟩ := Option.bind_eq_some_iff.mp hsend
      cases hret
      refine ⟨s₁, handOver_stirs hover, ?_⟩
      dsimp only at hblock
      split at hblock <;> cases hblock
      · exact Or.inl rfl
      · exact Or.inr ⟨_, rfl⟩
  | recv =>
      obtain ⟨s₁, hstirs, hend⟩ := waitRequest_stirs h
      exact ⟨s₁, hstirs, hend.imp_right fun h => ⟨_, h⟩⟩
  | call T words =>
      obtain ⟨s₂, hcall, hret⟩ := Option.bind_eq_some_iff.mp h
      obtain ⟨s₃, hreserve, hrest⟩ := Option.bind_eq_some_iff.mp hcall
      obtain ⟨⟨s₁, delivered⟩, hover, hblock⟩ := Option.bind_eq_some_iff.mp hrest
      obtain ⟨queues, hpush, hreserved⟩ := Option.bind_eq_some_iff.mp hreserve
      cases hret
      cases hblock
      cases hreserved
      -- reserving the reply slot changes the current thread, and links the other of its nodes
      have hreserve : Stirs [] s { s.modify s.current fun th =>
          { th with ipcCallSeq := th.ipcCallSeq + 1, epState := .waitRecv } with queues } := by
        refine stirs_of_thread rfl (fun t ht _ => ?_) (fun t => ?_) fun t ht hdetached => ?_
        · simp [modify_thread, ht]
        · by_cases ht : t = s.current <;> simp [modify_thread, ht]
        · apply hdetached.push hpush (by simpa using Ne.symm ht) rfl
          simpa [modify_thread, ht] using hdetached.epState
      exact ⟨s₁, hreserve.trans (handOver_stirs hover) hcur, Or.inr ⟨_, rfl⟩⟩
  | replyRecv words =>
      obtain ⟨s₂, hreply, hrest⟩ := Option.bind_eq_some_iff.mp h
      obtain ⟨⟨s₃, events'⟩, hwait, hret⟩ := Option.bind_eq_some_iff.mp hrest
      cases hret
      obtain ⟨hstirs, hqueue⟩ := reply_stirs hreply
      obtain ⟨s₁, hstirs', hend⟩ := waitRequest_stirs hwait
      have hsender : System.sender s₂ = System.sender s := by
        rw [System.sender, hstirs.current, hqueue, System.sender]
      rw [hsender] at hstirs'
      exact ⟨s₁, hstirs.trans hstirs' hcur, hend.imp_right fun h => ⟨_, h⟩⟩
  | resume =>
      obtain ⟨f, -, hret⟩ := Option.map_eq_some_iff.mp h
      have hs' : (s.resume f).1 = s' := congrArg Prod.fst hret
      subst hs'
      have hthread : ∀ t, t ≠ s.current → (s.resume f).1.thread t = s.thread t := by
        intro t ht
        obtain ⟨x, hx⟩ := resume_thread (s := s) f t
        rw [hx, if_neg ht]
      refine ⟨_, stirs_of_thread (by cases f <;> rfl) (fun t ht _ => hthread t ht) (fun t => ?_)
        fun t ht hdetached => ?_, Or.inl rfl⟩
      · obtain ⟨x, hx⟩ := resume_thread (s := s) f t
        rw [hx]
        split
        next ht => rw [ht, cur]
        next => rfl
      · refine ⟨?_, ?_, ?_⟩
        · rw [hthread t ht]
          exact hdetached.epState
        all_goals rw [resume_queues]
        · exact hdetached.list
        · exact hdetached.wait

end IpcState

end Koharu
