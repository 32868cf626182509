import Koharu.Lib.Machine
import Koharu.User.RootServer
import Koharu.User.VmaLookup

/-!
# The heap that the root server gives to a child

Each message that asks for memory gets the range behind the one before it, and a record in
`child_vmas` that says so. `serve` has the address in its reply before `vma_insert` has accepted the
range, and does not take it back; it rounds the size up in a word; and the pages at `SHARED_VA` and
`UTBC_VA` have no record.

* `HeapService.lawful_of_run`: as long as there is room for each request that gets its pages, the
  ranges are disjoint, there, clear, recorded and not the root server's own.
-/

namespace Koharu

/-! ### What the service is for

What a child may rely on when it gets an address: pages of its own that are clear, and that no later
request gets. -/

/-- A reply with an address in it. -/
structure HeapReply where
  /-- `msg[1]`. -/
  size : BitVec 64
  /-- `reply[0]`. -/
  start : Addr
  /-- What there is when it is sent. -/
  server : RootServer

namespace HeapReply

variable (r : HeapReply)

/-- The number of pages that were asked for. -/
def pageCount : ℕ := (r.size.toNat + 4095) / 4096

/-- The `k`-th page of the range. -/
def page (k : ℕ) : Addr := r.start + BitVec.ofNat 64 k * pageSize

/-- The end of the range. -/
def endAddr : ℕ := r.start.toNat + r.pageCount * 4096

/-- An address of the range. -/
def Contains (x : ℕ) : Prop := r.start.toNat ≤ x ∧ x < r.endAddr

/-- The child has all pages of the range, and they are clear. -/
def Clear (env : RootEnv) : Prop :=
  ∀ k < r.pageCount, ∃ frame, r.server.memory.spaces env.child (r.page k) = some frame ∧
    ∀ a, Kernel.pageOf a = frame → r.server.memory.bytes a = 0

/-- The range is recorded as one of the heap. -/
def Recorded (s : VmaState Unit) : Prop :=
  ∃ v ∈ (s.sets ()).tree, (s.vmaPool v).start = r.start ∧
    (s.vmaPool v).endAddr.toNat = r.endAddr ∧ (s.vmaPool v).kind = vmaHeap

end HeapReply

/-- The pages that the child has been given. -/
def RootServer.childPages (env : RootEnv) (s : RootServer) : Set Addr :=
  {page | s.memory.spaces env.child page ≠ none}

/-- What the root server does for the child before it serves. -/
inductive RootCall
  | loadSegment (ph : Segment)
  | mapStack
  | mapShared
  | mapUtcb (childTid pagerTid : BitVec 64)

/-- The root server, and what it has given out. -/
structure HeapService where
  server : RootServer
  replies : List HeapReply

/-- What the service owes the child, with the pages that the child had before. -/
structure HeapService.Lawful (env : RootEnv) (before : Set Addr) (c : HeapService) : Prop where
  disjoint : c.replies.Pairwise fun r r' => ∀ x, ¬ (r.Contains x ∧ r'.Contains x)
  clear : ∀ r ∈ c.replies, r.Clear env
  recorded : ∀ r ∈ c.replies, r.Recorded c.server.vmas
  apart : ∀ r ∈ c.replies, ∀ k < r.pageCount, r.page k ∉ before

/-! ### Runs

First segments are loaded for the child, and then its requests are served, whatever they ask for. -/

namespace RootServer

variable (img : Image) (env : RootEnv)

/-- One of the functions that give pages to the child. -/
def call : RootCall → Attempt RootServer Unit
  | .loadSegment ph => loadSegment img env ph
  | .mapStack => mapStack img env
  | .mapShared => mapShared img env
  | .mapUtcb childTid pagerTid => mapUtcb img env childTid pagerTid

/-- `root_main`, which goes on to `serve` also when one of them has failed. -/
def loadStep (s : RootServer) (c : RootCall) : Option RootServer := some ((call img env c).run s).2

/-- A segment without pages is not recorded where another record starts. -/
def LoadOk (s : RootServer) : RootCall → Prop
  | .loadSegment ph => s.vmas.CallOk (.insert () ph.vaStart ph.vaEnd 0 0)
  | .mapStack => True
  | .mapShared => True
  | .mapUtcb _ _ => True

/-- All pages of a request are granted. -/
structure Granted (s : RootServer) (size : BitVec 64) : Prop where
  pool : 0 < (heapPages size).toNat → s.pager.setBits ≠ []
  map : ∀ k < 2 * (heapPages size).toNat, env.granted (s.asked + k) = true

/-- There is room for a request. -/
structure Room (before : Set Addr) (s : RootServer) (size : BitVec 64) : Prop where
  /-- The size can be rounded up. -/
  rounds : size.toNat + 4095 < 2 ^ 64
  /-- The range is in the lower half of the address space. -/
  lower : s.heap.toNat + (heapPages size).toNat * 4096 ≤ 2 ^ 47
  /-- There is a record left. -/
  free : s.vmas.vmaFree ≠ none
  /-- No record starts or ends in the range. -/
  clear : ∀ v ∈ (s.vmas.sets ()).tree,
    (s.vmas.vmaPool v).start < s.heap ∧ (s.vmas.vmaPool v).endAddr ≤ s.heap ∨
      s.heap < (s.vmas.vmaPool v).start ∧
        s.heap.toNat + (heapPages size).toNat * 4096 ≤ (s.vmas.vmaPool v).start.toNat
  /-- The pages of the range that the child had before have a record. -/
  recorded : ∀ k < (heapPages size).toNat, s.heap + BitVec.ofNat 64 k * pageSize ∈ before →
    ∃ v ∈ (s.vmas.sets ()).tree, s.heap + BitVec.ofNat 64 k * pageSize ∈ s.vmas.interval v

end RootServer

namespace HeapService

/-- One message. -/
def step (img : Image) (env : RootEnv) (c : HeapService) (m : ℤ × Words) : Option HeapService :=
  (c.server.serve img env m.1 m.2).map fun x : Words × RootServer =>
    { server := x.2
      replies := if RootServer.firstWord x.1 = 0 then c.replies else
        ⟨RootServer.secondWord m.2, RootServer.firstWord x.1, x.2⟩ :: c.replies }

/-- The condition on a message: if it asks for memory and gets all pages, there is room. -/
def Servable (env : RootEnv) (before : Set Addr) (c : HeapService) (m : ℤ × Words) : Prop :=
  0 < m.1 → env.child ≠ 0 →
    RootServer.firstWord m.2 = reqAlloc ∨ RootServer.firstWord m.2 = reqMap →
      c.server.Granted env (RootServer.secondWord m.2) →
        c.server.Room before (RootServer.secondWord m.2)

end HeapService

/-! ### One request

A request does not get all its pages, or it is recorded and `heap` goes on behind it. -/

namespace RootServer

variable {img : Image} {env : RootEnv} {before : Set Addr} {s : RootServer} {size : BitVec 64}

theorem toNat_heapPages (h : size.toNat + 4095 < 2 ^ 64) :
    (heapPages size).toNat = (size.toNat + 4095) / 4096 := by
  have hpage : pageSize.toNat = 4096 := rfl
  have hone : (1 : BitVec 64).toNat = 1 := rfl
  rw [heapPages, BitVec.toNat_ushiftRight, Nat.shiftRight_eq_div_pow, BitVec.toNat_sub,
    BitVec.toNat_add, hpage, hone]
  omega

theorem heapPages_lt (size : BitVec 64) : (heapPages size).toNat < 2 ^ 52 := by
  rw [heapPages, BitVec.toNat_ushiftRight, Nat.shiftRight_eq_div_pow]
  have := (size + pageSize - 1).isLt
  omega

/-- The end of a range that is in the lower half. -/
theorem toNat_heapEnd {heap : Addr} (h : heap.toNat + (heapPages size).toNat * 4096 ≤ 2 ^ 47) :
    (heap + heapPages size * pageSize).toNat = heap.toNat + (heapPages size).toNat * 4096 := by
  rw [BitVec.toNat_add, BitVec.toNat_mul, show pageSize.toNat = 4096 from rfl]
  omega

/-- An address in a range that is in the lower half. -/
theorem toNat_heapPage {heap : Addr} {n k : ℕ} (h : heap.toNat + n * 4096 ≤ 2 ^ 47) (hk : k < n) :
    (heap + BitVec.ofNat 64 k * pageSize).toNat = heap.toNat + k * 4096 := by
  rw [BitVec.toNat_add, BitVec.toNat_mul, BitVec.toNat_ofNat, show pageSize.toNat = 4096 from rfl]
  omega

/-- What comes of a request: it does not get all its pages, or there is a record for it and `heap`
goes on behind it. -/
theorem serveHeap_cases (hself : env.child ≠ env.self) (hrep : s.vmas.Rep)
    (hroom : s.Granted env size → s.Room before size) :
    (∃ s', s.serveHeap img env size = (noReply, s') ∧ s'.book = s.book) ∨
      ∃ s', s.serveHeap img env size = (addressReply s.heap, s') ∧ s.Room before size ∧
        s'.heap = s.heap + heapPages size * pageSize ∧
        (∃ v, s.vmas.Gains s'.vmas () s.heap (s.heap + heapPages size * pageSize) protReadWrite
          vmaHeap v) ∧
        ∃ s₁, NewPages env s.heap 0 (heapPages size).toNat s s₁ ∧ s'.memory = s₁.memory := by
  have hbook : ((newPages img env s.heap (heapPages size).toNat 0).run s).2.book = s.book :=
    leaves_newPages _ _ _ s
  unfold serveHeap
  cases hrun : (newPages img env s.heap (heapPages size).toNat 0).run s with
  | mk u s₁ =>
  rw [hrun] at hbook
  cases u with
  | none => exact Or.inl ⟨s₁, rfl, hbook⟩
  | some u =>
    obtain ⟨hvmas, hheap⟩ := Prod.mk.inj hbook
    have hpages := newPages_of_run hself _ 0 (by have := heapPages_lt size; omega) hrun
    have hroom := hroom ⟨hpages.pool, hpages.granted⟩
    -- there is room, so that the record is made
    have hclear : ∀ v ∈ (s.vmas.sets ()).tree,
        (s.vmas.vmaPool v).start < s.heap ∧ (s.vmas.vmaPool v).endAddr ≤ s.heap ∨
          s.heap < (s.vmas.vmaPool v).start ∧
            s.heap + heapPages size * pageSize ≤ (s.vmas.vmaPool v).start := by
      intro v hv
      rw [BitVec.le_def (x := s.heap + _), toNat_heapEnd hroom.lower]
      exact hroom.clear v hv
    obtain ⟨hok, v, hgains⟩ := hrep.gains_of_clear protReadWrite vmaHeap hroom.free hclear
    have hinsert : (vmaInsert s₁.heap (s₁.heap + heapPages size * pageSize) protReadWrite
        vmaHeap).run s₁ = (some (), { s₁ with vmas :=
          (s.vmas.vmaInsert () s.heap (s.heap + heapPages size * pageSize) protReadWrite
            vmaHeap).2 }) := by
      rw [Attempt.run, vmaInsert, hvmas, hheap]
      simp only [hok, if_true]
    dsimp only
    rw [hinsert]
    dsimp only
    rw [hheap]
    exact Or.inr ⟨_, rfl, hroom, rfl, ⟨v, hgains⟩, s₁, hpages, rfl⟩

/-- What becomes of the records and of `heap` while the child is loaded. -/
theorem rep_call (hrep : s.vmas.Rep) {c : RootCall} (hok : s.LoadOk c) :
    ((call img env c).run s).2.vmas.Rep ∧ ((call img env c).run s).2.heap = s.heap := by
  have hsame : ∀ x : Attempt RootServer Unit, Attempt.Leaves book x →
      (x.run s).2.vmas.Rep ∧ (x.run s).2.heap = s.heap := by
    intro x hx
    obtain ⟨hvmas, hheap⟩ := Prod.mk.inj (hx s)
    exact ⟨hvmas ▸ hrep, hheap⟩
  -- the record comes last
  have hinsert : ∀ (x : Attempt RootServer Unit) (start endAddr prot kind : Addr),
      Attempt.Leaves book x → s.vmas.CallOk (.insert () start endAddr 0 0) →
        ((x >>= fun _ => vmaInsert start endAddr prot kind).run s).2.vmas.Rep ∧
          ((x >>= fun _ => vmaInsert start endAddr prot kind).run s).2.heap = s.heap := by
    intro x start endAddr prot kind hx hok
    have hbook := hx s
    cases hrun : x.run s with
    | mk u s₁ =>
    rw [hrun] at hbook
    obtain ⟨hvmas, hheap⟩ := Prod.mk.inj hbook
    cases u with
    | none =>
        rw [Attempt.run_bind_of_none hrun]
        exact ⟨hvmas ▸ hrep, hheap⟩
    | some u =>
        rw [Attempt.run_bind hrun]
        refine ⟨?_, hheap⟩
        show (s₁.vmas.vmaInsert () start endAddr prot kind).2.Rep
        rw [hvmas]
        exact hrep.insert prot kind hok
  cases c with
  | loadSegment ph => exact hinsert _ _ _ _ _ (leaves_loadPages ph _) hok
  | mapStack =>
      apply hinsert _ _ _ _ _ (leaves_newPages _ _ _)
      intro _ hle
      exact absurd hle (by decide)
  | mapShared => exact hsame _ leaves_mapShared
  | mapUtcb childTid pagerTid => exact hsame _ (leaves_mapUtcb childTid pagerTid)

end RootServer

/-! ### All requests

By induction on the messages: the ranges with a reply are apart. -/

namespace HeapService

variable {img : Image} {env : RootEnv} {before : Set Addr} {c c' : HeapService} {m : ℤ × Words}

/-- What the messages keep. -/
structure Sound (env : RootEnv) (before : Set Addr) (c : HeapService) : Prop where
  rep : c.server.vmas.Rep
  pos : 0 < c.server.heap.toNat
  /-- `heap` is behind all that has been given out. -/
  behind : ∀ r ∈ c.replies, r.endAddr ≤ c.server.heap.toNat
  lawful : c.Lawful env before

/-- A reply without an address. -/
theorem Sound.refuse (h : Sound env before c) {s' : RootServer} (hbook : s'.book = c.server.book) :
    Sound env before { c with server := s' } := by
  obtain ⟨hvmas, hheap⟩ := Prod.mk.inj hbook
  refine ⟨hvmas ▸ h.rep, hheap ▸ h.pos, fun r hr => hheap ▸ h.behind r hr, h.lawful.disjoint,
    h.lawful.clear, fun r hr => ?_, h.lawful.apart⟩
  show r.Recorded s'.vmas
  rw [hvmas]
  exact h.lawful.recorded r hr

/-- A record that is there stays. -/
theorem recorded_of_gains {r : HeapReply} {s s' : VmaState Unit}
    {start endAddr prot kind : BitVec 64} {v : VmaId} (hrep : s.Rep)
    (hgains : s.Gains s' () start endAddr prot kind v) (h : r.Recorded s) : r.Recorded s' := by
  obtain ⟨w, hw, hstart, hend, hkind⟩ := h
  have hne : w ≠ v := by
    rintro rfl
    exact hrep.ordered.notMem_tree hgains.free.1 () hw
  obtain ⟨l₁, l₂, htree, htree', -⟩ := hgains.tree
  obtain ⟨hstart', hend', -, hkind'⟩ := hgains.others w hne
  refine ⟨w, ?_, hstart'.trans hstart, by rw [hend', hend], hkind'.trans hkind⟩
  rw [htree, List.mem_append] at hw
  rw [htree', List.mem_append, List.mem_cons]
  exact hw.imp_right Or.inr

/-- A reply with an address. -/
theorem Sound.accept (h : Sound env before c) {size : BitVec 64} {s' : RootServer}
    (hroom : c.server.Room before size)
    (hheap : s'.heap = c.server.heap + RootServer.heapPages size * pageSize)
    (hgains : ∃ v, c.server.vmas.Gains s'.vmas () c.server.heap
      (c.server.heap + RootServer.heapPages size * pageSize) protReadWrite vmaHeap v)
    (hpages : ∃ s₁, RootServer.NewPages env c.server.heap 0 (RootServer.heapPages size).toNat
      c.server s₁ ∧ s'.memory = s₁.memory) :
    Sound env before ⟨s', ⟨size, c.server.heap, s'⟩ :: c.replies⟩ := by
  obtain ⟨v, hgains⟩ := hgains
  obtain ⟨s₁, hpages, hmemory⟩ := hpages
  have hcount : HeapReply.pageCount ⟨size, c.server.heap, s'⟩ = (RootServer.heapPages size).toNat :=
    (RootServer.toNat_heapPages hroom.rounds).symm
  have hend : HeapReply.endAddr ⟨size, c.server.heap, s'⟩ = s'.heap.toNat := by
    rw [hheap, RootServer.toNat_heapEnd hroom.lower, HeapReply.endAddr, hcount]
  have hle : c.server.heap.toNat ≤ s'.heap.toNat := by
    rw [hheap, RootServer.toNat_heapEnd hroom.lower]
    omega
  refine ⟨hgains.rep, h.pos.trans_le hle, fun r hr => ?_, ⟨?_, fun r hr => ?_, fun r hr => ?_,
    fun r hr k hk => ?_⟩⟩
  · rcases List.mem_cons.mp hr with rfl | hr
    · exact hend.le
    · exact (h.behind r hr).trans hle
  · -- the new range starts where the others have ended
    refine List.pairwise_cons.mpr ⟨fun r hr x hx => ?_, h.lawful.disjoint⟩
    have hbehind := h.behind r hr
    obtain ⟨⟨hstart, -⟩, -, hlt⟩ := hx
    exact absurd (hbehind.trans hstart) (not_le.mpr hlt)
  · rcases List.mem_cons.mp hr with rfl | hr
    · intro k hk
      rw [hcount] at hk
      obtain ⟨frame, hmapped, hclear⟩ := hpages.frame k hk
      rw [Nat.zero_add] at hmapped
      refine ⟨frame, ?_, fun a ha => ?_⟩
      · rw [hmemory]
        exact hmapped
      · rw [hmemory]
        exact hclear a ha
    · exact h.lawful.clear r hr
  · rcases List.mem_cons.mp hr with rfl | hr
    · obtain ⟨l₁, l₂, -, htree, -⟩ := hgains.tree
      obtain ⟨hstart, hendAddr, -, hkind⟩ := hgains.contents
      refine ⟨v, ?_, hstart, ?_, hkind⟩
      · rw [htree]
        exact List.mem_append_right l₁ List.mem_cons_self
      · rw [hendAddr, hend, hheap]
    · exact recorded_of_gains h.rep hgains (h.lawful.recorded r hr)
  · rcases List.mem_cons.mp hr with rfl | hr
    · -- a page that the child had before has a record, and no record is in the range
      intro hbefore
      rw [hcount] at hk
      obtain ⟨w, hw, hge, hlt⟩ := hroom.recorded k hk hbefore
      have hpage := RootServer.toNat_heapPage hroom.lower hk
      rw [BitVec.le_def, hpage] at hge
      rw [BitVec.lt_def, hpage] at hlt
      rcases hroom.clear w hw with ⟨-, hout⟩ | ⟨-, hout⟩
      · rw [BitVec.le_def] at hout
        omega
      · omega
    · exact h.lawful.apart r hr k hk

/-- One message. -/
theorem Sound.step (hself : env.child ≠ env.self) (h : Sound env before c)
    (hcond : Servable env before c m) (hstep : step img env c m = some c') :
    Sound env before c' := by
  obtain ⟨⟨reply, s'⟩, hserve, rfl⟩ := Option.map_eq_some_iff.mp hstep
  have hrefuse : ∀ {s' : RootServer}, s'.book = c.server.book → Sound env before
      ⟨s', if RootServer.firstWord RootServer.noReply = 0 then c.replies else
        ⟨RootServer.secondWord m.2, RootServer.firstWord RootServer.noReply, s'⟩ :: c.replies⟩ := by
    intro s' hbook
    rw [if_pos RootServer.firstWord_noReply]
    exact h.refuse hbook
  -- every path but the one for a heap request answers with no words
  rw [RootServer.serve] at hserve
  split at hserve
  · cases hserve
    exact hrefuse rfl
  next hsender =>
  split at hserve
  · cases hserve
    exact hrefuse rfl
  split at hserve
  · cases hserve
  split at hserve
  next hrequest =>
    rw [not_or, not_le] at hsender
    rw [Option.some_inj] at hserve
    -- the request is refused, or an interval has come to the set and its pages are there
    rcases RootServer.serveHeap_cases hself h.rep (hcond hsender.1 hsender.2 hrequest) with
      ⟨s₁, heq, hbook⟩ | ⟨s₁, heq, hroom, hheap, hgains, hpages⟩
    · obtain ⟨rfl, rfl⟩ := Prod.mk.inj (heq.symm.trans hserve)
      exact hrefuse hbook
    · obtain ⟨rfl, rfl⟩ := Prod.mk.inj (heq.symm.trans hserve)
      have hne : c.server.heap ≠ 0 := by
        intro hzero
        have hpos := h.pos
        rw [hzero] at hpos
        exact absurd hpos (lt_irrefl 0)
      dsimp only
      rw [RootServer.firstWord_addressReply, if_neg hne]
      exact h.accept hroom hheap hgains hpages
  next =>
    cases hserve
    exact hrefuse rfl

/-- For each child, whatever is loaded for it and whatever it asks for: as long as there is room for
each request that gets all its pages, no two ranges that are given out overlap, all their pages are
there and clear, they are recorded, and none of their pages is one that the child had before. -/
theorem lawful_of_run (hself : env.child ≠ env.self) {pool : ℕ → UInt8} {frameCount : ℕ}
    {memory : RootMemory} {s : RootServer}
    (hload : Machine.Run (RootServer.loadStep img env) RootServer.LoadOk
      (RootServer.start pool frameCount memory) s)
    (hrun : Machine.Run (step img env) (Servable env (s.childPages env)) ⟨s, []⟩ c) :
    c.Lawful env (s.childPages env) := by
  -- loading inserts segments and leaves the heap where it starts
  have hloaded : s.vmas.Rep ∧ s.heap = childHeapVa := by
    refine hload.invariant (I := fun s => s.vmas.Rep ∧ s.heap = childHeapVa)
      ⟨VmaState.rep_zero (), rfl⟩ fun s s' call h hok hstep => ?_
    obtain rfl := Option.some.inj hstep
    exact ⟨(RootServer.rep_call h.1 hok).1, (RootServer.rep_call h.1 hok).2.trans h.2⟩
  refine (hrun.invariant (I := Sound env (s.childPages env)) ⟨hloaded.1, ?_, fun r hr => ?_,
    ⟨List.Pairwise.nil, fun r hr => ?_, fun r hr => ?_, fun r hr => ?_⟩⟩
    fun c c' m h hcond hstep => h.step hself hcond hstep).lawful
  · rw [hloaded.2]
    decide
  · cases hr
  · cases hr
  · cases hr
  · cases hr

/-! ### A small pool

Two requests that are served, and the request of size zero that blocks all later records. -/

/-- The child that `straddling` is loaded for, with all its pages. The pool has two frames, and
nothing in memory is clear. -/
def loadedChild : RootServer :=
  let s := RootServer.start (fun _ => 3) 2 ⟨fun _ _ => none, fun _ => 1⟩
  let s := ((RootServer.loadSegment straddling grantsAll (straddling.segment 0)).run s).2
  let s := ((RootServer.mapStack straddling grantsAll).run s).2
  let s := ((RootServer.mapShared straddling grantsAll).run s).2
  ((RootServer.mapUtcb straddling grantsAll 2 1).run s).2

theorem load_loadedChild : Machine.Run (RootServer.loadStep straddling grantsAll) RootServer.LoadOk
    (RootServer.start (fun _ => 3) 2 ⟨fun _ _ => none, fun _ => 1⟩) loadedChild := by
  have hsegment : ¬ (straddling.segment 0).vaEnd ≤ (straddling.segment 0).vaStart := by
    decide +kernel
  refine Machine.Run.step (a := .mapUtcb 2 1) ?_ trivial rfl
  refine Machine.Run.step (a := .mapShared) ?_ trivial rfl
  refine Machine.Run.step (a := .mapStack) ?_ trivial rfl
  refine Machine.Run.step (a := .loadSegment (straddling.segment 0)) .init (fun _ hle => ?_) rfl
  exact absurd hle hsegment

/-- A request of a size. -/
def request (size : BitVec 64) : ℤ × Words := (2, #v[reqAlloc, size, 0, 0, 0])

/-- There is room for a request whose pages the child has not had before. -/
theorem servable_of_room {env : RootEnv} {s : RootServer} {c : HeapService} {size : BitVec 64}
    (h : size.toNat + 4095 < 2 ^ 64 ∧
      c.server.heap.toNat + (RootServer.heapPages size).toNat * 4096 ≤ 2 ^ 47 ∧
      c.server.vmas.vmaFree ≠ none ∧
      (∀ v ∈ (c.server.vmas.sets ()).tree,
        (c.server.vmas.vmaPool v).start < c.server.heap ∧
            (c.server.vmas.vmaPool v).endAddr ≤ c.server.heap ∨
          c.server.heap < (c.server.vmas.vmaPool v).start ∧
            c.server.heap.toNat + (RootServer.heapPages size).toNat * 4096 ≤
              (c.server.vmas.vmaPool v).start.toNat) ∧
      ∀ k < (RootServer.heapPages size).toNat,
        s.memory.spaces env.child (c.server.heap + BitVec.ofNat 64 k * pageSize) = none) :
    Servable env (s.childPages env) c (request size) := by
  obtain ⟨hrounds, hlower, hfree, hclear, hnone⟩ := h
  -- no page of the range is mapped, so that there is none to keep
  exact fun _ _ _ _ => ⟨hrounds, hlower, hfree, hclear, fun k hk hbefore =>
    absurd (hnone k hk) hbefore⟩

/-- Two requests, of two pages and of one. -/
theorem lawful_of_run_twoRequests : ∃ c : HeapService,
    Machine.Run (step straddling grantsAll)
      (Servable grantsAll (loadedChild.childPages grantsAll)) ⟨loadedChild, []⟩ c ∧
      c.replies.map HeapReply.start = [0x700000002000#64, 0x700000000000#64] ∧
      c.Lawful grantsAll (loadedChild.childPages grantsAll) := by
  have hcheck : ((step straddling grantsAll ⟨loadedChild, []⟩ (request 0x1001#64)).any fun c =>
      decide ((0x1000#64).toNat + 4095 < 2 ^ 64 ∧
        c.server.heap.toNat + (RootServer.heapPages 0x1000#64).toNat * 4096 ≤ 2 ^ 47 ∧
        c.server.vmas.vmaFree ≠ none ∧
        (∀ v ∈ (c.server.vmas.sets ()).tree,
          (c.server.vmas.vmaPool v).start < c.server.heap ∧
              (c.server.vmas.vmaPool v).endAddr ≤ c.server.heap ∨
            c.server.heap < (c.server.vmas.vmaPool v).start ∧
              c.server.heap.toNat + (RootServer.heapPages 0x1000#64).toNat * 4096 ≤
                (c.server.vmas.vmaPool v).start.toNat) ∧
        ∀ k < (RootServer.heapPages 0x1000#64).toNat,
          loadedChild.memory.spaces grantsAll.child (c.server.heap + BitVec.ofNat 64 k * pageSize) =
          none) &&
      (step straddling grantsAll c (request 0x1000#64)).any fun c' =>
        decide (c'.replies.map HeapReply.start = [0x700000002000#64, 0x700000000000#64])) =
          true := by
    decide +kernel
  obtain ⟨c, hfirst, hcheck⟩ := (Option.any_eq_true _ _).mp hcheck
  obtain ⟨hroom, hcheck⟩ := Bool.and_eq_true_iff.mp hcheck
  obtain ⟨c', hsecond, hcheck⟩ := (Option.any_eq_true _ _).mp hcheck
  -- the condition of the first request is checked as it stands, that of the second by its parts
  have hservable : Servable grantsAll (loadedChild.childPages grantsAll) ⟨loadedChild, []⟩
      (request 0x1001#64) := servable_of_room (by decide +kernel)
  have hrun := (Machine.Run.init.step _ hservable hfirst).step _
    (servable_of_room (of_decide_eq_true hroom)) hsecond
  exact ⟨c', hrun, of_decide_eq_true hcheck, lawful_of_run (by decide) load_loadedChild hrun⟩

/-- After a request of size zero no other one gets a record, and the same page is given out
twice. -/
theorem page_given_twice : ∃ c : HeapService,
    Machine.Run (RootServer.loadStep straddling grantsAll) RootServer.LoadOk
      (RootServer.start (fun _ => 3) 2 ⟨fun _ _ => none, fun _ => 1⟩) loadedChild ∧
      Machine.Run (step straddling grantsAll) (fun _ _ => True) ⟨loadedChild, []⟩ c ∧
      ¬ c.Lawful grantsAll (loadedChild.childPages grantsAll) := by
  -- a request for no bytes, and two for a page each
  have hcheck : ((step straddling grantsAll ⟨loadedChild, []⟩ (request 0)).any fun c =>
      (step straddling grantsAll c (request 0x1000#64)).any fun c' =>
        (step straddling grantsAll c' (request 0x1000#64)).any fun c'' =>
          decide ((c''.replies.map fun r => (r.start, r.size)) = [(0x700000000000#64, 0x1000#64),
            (0x700000000000#64, 0x1000#64), (0x700000000000#64, 0)])) = true := by
    decide +kernel
  obtain ⟨c, hfirst, hcheck⟩ := (Option.any_eq_true _ _).mp hcheck
  obtain ⟨c', hsecond, hcheck⟩ := (Option.any_eq_true _ _).mp hcheck
  obtain ⟨c'', hthird, hcheck⟩ := (Option.any_eq_true _ _).mp hcheck
  have hreplies := of_decide_eq_true hcheck
  refine ⟨c'', load_loadedChild,
    ((Machine.Run.init.step _ trivial hfirst).step _ trivial hsecond).step
    _ trivial hthird, fun hlawful => ?_⟩
  obtain ⟨r₁, l, hl, hr₁, hrest⟩ := List.map_eq_cons_iff.mp hreplies
  obtain ⟨r₂, l', rfl, hr₂, -⟩ := List.map_eq_cons_iff.mp hrest
  have hdisjoint := hlawful.disjoint
  rw [hl] at hdisjoint
  have hcontains : ∀ r : HeapReply, (r.start, r.size) = (0x700000000000#64, 0x1000#64) →
      r.Contains 0x700000000000 := by
    intro r hr
    obtain ⟨hstart, hsize⟩ := Prod.mk.inj hr
    rw [HeapReply.Contains, HeapReply.endAddr, HeapReply.pageCount, hstart, hsize]
    decide
  exact (List.pairwise_cons.mp hdisjoint).1 r₂ List.mem_cons_self _
    ⟨hcontains r₁ hr₁, hcontains r₂ hr₂⟩

end HeapService

end Koharu
