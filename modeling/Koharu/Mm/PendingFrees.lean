import Koharu.Lib.Chain
import Koharu.Lib.Machine
import Koharu.Mm.HeapPages

/-!
# Blocks that other CPUs free

`kfree` on the CPU that owns a block gives it back to the heap. On other CPUs it pushes the block on
the `pending_free_list` of the owner, without a lock, and the owner takes the whole list at some
later time. The machine of this file has the loads, stores and exchanges of `tlsf_push_pending` and
`tlsf_flush_pending` as steps of their own, on any number of CPUs, next to the calls that move pages
between the page allocator and the heaps. What has become of the blocks is kept in a log.

* `Rep`: the invariant. A block that was freed and is not back yet is on one of three kinds of
  lists: the pending blocks of its CPU, those that the CPU has taken, or the block that a CPU is
  pushing;
* `Listed.push`, `Listed.swap`, `Listed.flush`, `Listed.freed`: what the steps do to these lists;
* `frees_exactly_once`: every block comes back once, to the CPU it was taken from.

The owner of a block is read off the page it is in. If the page allocator hands out a page twice,
the page has one owner and is in the heaps of two CPUs (`page_in_two_heaps`).
-/

namespace Koharu

open Tlsf (blockStartOffset)
open Pmm (pmmInit)

/-- How far a CPU has come in `tlsf_push_pending` or `tlsf_flush_pending`. -/
inductive HeapPc
  | idle
  /-- At the load of the head of the list. -/
  | load (target : CpuId) (block : Addr)
  /-- At the store to `block->next_free`. -/
  | link (target : CpuId) (block oldHead : Addr)
  /-- At the compare-and-swap. -/
  | cas (target : CpuId) (block oldHead : Addr)
  /-- At the load of `pending->next_free`. -/
  | walk (pending : Addr)
  /-- At `tlsf_free`. -/
  | free (pending next : Addr)
  deriving DecidableEq

/-- The test of the loop in `tlsf_flush_pending`. -/
def HeapPc.loopTest (pending : Addr) : HeapPc := if pending = 0 then .idle else .walk pending

/-- What has happened to blocks, which are named by the pointers that `kmalloc` returns. -/
inductive HeapEvent
  /-- `kmalloc` has taken the block from the heap of the CPU. -/
  | kmalloc (cpu : CpuId) (ptr : Addr)
  | kfree (ptr : Addr)
  /-- `tlsf_free`, on the heap of the CPU. -/
  | tlsfFree (cpu : CpuId) (ptr : Addr)
  deriving DecidableEq

/-- The block that an event is about. -/
def HeapEvent.ptr : HeapEvent → Addr
  | .kmalloc _ p | .kfree p | .tlsfFree _ p => p

/-- What has become of a block. -/
inductive PtrState
  | free
  | inUse (cpu : CpuId)
  /-- It was freed, and is not back in the heap. -/
  | released (cpu : CpuId)
  deriving DecidableEq

/-- What `kfree` makes of a block. -/
def PtrState.release : PtrState → PtrState
  | .inUse cpu => .released cpu
  | st => st

/-- What has become of a block, after these events. The last one is the first. -/
def ptrState (p : Addr) : List HeapEvent → PtrState
  | [] => .free
  | .kmalloc cpu q :: log => if q = p then .inUse cpu else ptrState p log
  | .kfree q :: log => if q = p then (ptrState p log).release else ptrState p log
  | .tlsfFree _ q :: log => if q = p then .free else ptrState p log

/-- The heaps of all CPUs. -/
structure SmpHeaps where
  pmm : Pmm
  /-- The blocks of pages that are allocated and in no heap. -/
  taken : Finset Block
  /-- The blocks of pages that were added to the heap of a CPU. -/
  pools : Finset (CpuId × Block)
  /-- `mem_map[pfn].owner_cpu_id`. -/
  owner : ℕ → CpuId
  /-- `pending_free_list`, where `0` is `NULL`. -/
  pendingFree : CpuId → Addr
  /-- `next_free` in the headers of blocks. -/
  nextFree : Addr → Addr
  pc : CpuId → HeapPc
  log : List HeapEvent

/-- The steps. -/
inductive HeapAction
  /-- `kmalloc`, `krealloc` or `percpu_tlsf_init` adds pages to the heap of the CPU. -/
  | grow (cpu : CpuId) (order : ℤ)
  /-- `pmm_alloc_pages` and `pmm_free_pages` for others. -/
  | takePages (order : ℤ)
  | freePages (b : Block)
  /-- `tlsf_malloc` in `kmalloc` finds this block. -/
  | kmalloc (cpu : CpuId) (ptr : Addr)
  | kfree (cpu : CpuId) (ptr : Addr)
  /-- `tlsf_realloc` frees a block that it has moved. -/
  | moved (cpu : CpuId) (ptr : Addr)
  /-- The next step of `tlsf_push_pending`. A compare-and-swap may fail for no reason. -/
  | push (cpu : CpuId) (spurious : Bool)
  /-- The exchange in `tlsf_flush_pending`. -/
  | flush (cpu : CpuId)
  /-- The next step of its loop. -/
  | walk (cpu : CpuId)
  /-- Some store to where the link of a block is, as long as the block is not pending. -/
  | store (block value : Addr)

namespace SmpHeaps

/-- Before `percpu_tlsf_init`. -/
def boot (pmm : Pmm) (owner : ℕ → CpuId) (nextFree : Addr → Addr) : SmpHeaps where
  pmm := pmm
  taken := ∅
  pools := ∅
  owner := owner
  pendingFree _ := 0
  nextFree := nextFree
  pc _ := .idle
  log := []

/-- Take a block of pages, write its owner to every page, and add it to the heap. -/
def growPool (s : SmpHeaps) (cpu : CpuId) (order : ℤ) : Option SmpHeaps := do
  let alloc ← s.pmm.pmmAllocPages order
  let phys := alloc.1.getD 0
  if phys = 0 then return { s with pmm := alloc.2 }
  else
    let base := Pmm.physToPfn phys
    return { s with
      pmm := alloc.2
      owner := fun pfn => if base ≤ pfn ∧ pfn < base + 2 ^ order.toNat then cpu else s.owner pfn
      pools := insert (cpu, ⟨base, order.toNat⟩) s.pools }

/-- The block is in the pages of the heap. -/
def InHeap (s : SmpHeaps) (cpu : CpuId) (p : Addr) : Prop :=
  ∃ x ∈ s.pools, x.1 = cpu ∧ x.2.base ≤ virtToPfn p ∧ virtToPfn p < x.2.base + 2 ^ x.2.order

instance (s : SmpHeaps) (cpu : CpuId) (p : Addr) : Decidable (s.InHeap cpu p) :=
  inferInstanceAs (Decidable (∃ x ∈ s.pools, _))

/-- `kfree`, up to the first step of `tlsf_push_pending`. -/
def kfree (s : SmpHeaps) (cpu : CpuId) (p : Addr) : SmpHeaps :=
  let owner := s.owner (virtToPfn p)
  if owner = cpu then { s with log := .tlsfFree cpu p :: .kfree p :: s.log }
  else { s with
    log := .kfree p :: s.log
    pc := Function.update s.pc cpu (.load owner (tlsfPtrToBlock p)) }

/-- A step of `tlsf_push_pending`. -/
def pushStep (s : SmpHeaps) (cpu : CpuId) (spurious : Bool) : Option SmpHeaps :=
  match s.pc cpu with
  | .load target block =>
      some { s with pc := Function.update s.pc cpu (.link target block (s.pendingFree target)) }
  | .link target block oldHead => some { s with
      nextFree := Function.update s.nextFree block oldHead
      pc := Function.update s.pc cpu (.cas target block oldHead) }
  | .cas target block oldHead =>
      if spurious = false ∧ s.pendingFree target = oldHead then some { s with
        pendingFree := Function.update s.pendingFree target block
        pc := Function.update s.pc cpu .idle }
      else some { s with pc := Function.update s.pc cpu (.load target block) }
  | _ => none

/-- The exchange in `tlsf_flush_pending`. A CPU without a heap has no list. -/
def flushStep (s : SmpHeaps) (cpu : CpuId) : SmpHeaps :=
  if ∃ x ∈ s.pools, x.1 = cpu then { s with
    pendingFree := Function.update s.pendingFree cpu 0
    pc := Function.update s.pc cpu (.loopTest (s.pendingFree cpu)) }
  else s

/-- A step of the loop in `tlsf_flush_pending`. -/
def walkStep (s : SmpHeaps) (cpu : CpuId) : Option SmpHeaps :=
  match s.pc cpu with
  | .walk pending =>
      some { s with pc := Function.update s.pc cpu (.free pending (s.nextFree pending)) }
  | .free pending next => some { s with
      log := .tlsfFree cpu (pending + blockStartOffset) :: s.log
      pc := Function.update s.pc cpu (.loopTest next) }
  | _ => none

/-- One step. Interrupts are off during a push or a flush, so the CPU does nothing else.
`tlsf_malloc` finds a block of the heap that is not in use, and `kfree` is called for a block that
is. -/
def step (s : SmpHeaps) : HeapAction → Option SmpHeaps
  | .grow cpu order => if s.pc cpu = .idle then s.growPool cpu order else none
  | .takePages order => do
      let alloc ← s.pmm.pmmAllocPages order
      match alloc.1 with
      | none => return { s with pmm := alloc.2 }
      | some phys => return { s with
          pmm := alloc.2
          taken := insert ⟨Pmm.physToPfn phys, order.toNat⟩ s.taken }
  | .freePages b =>
      if b ∈ s.taken then do
        let pmm ← s.pmm.pmmFreePages (pfnToPhys b.base) b.order
        return { s with pmm, taken := s.taken.erase b }
      else none
  | .kmalloc cpu p =>
      if s.pc cpu = .idle ∧ s.InHeap cpu p ∧ ptrState p s.log = .free then
        some { s with log := .kmalloc cpu p :: s.log }
      else none
  | .kfree cpu p =>
      match ptrState p s.log with
      | .inUse _ => if s.pc cpu = .idle then some (s.kfree cpu p) else none
      | _ => none
  -- `tlsf_realloc` frees the old block when it has moved the contents
  | .moved cpu p =>
      if s.pc cpu = .idle ∧ ptrState p s.log = .inUse cpu then
        some { s with log := .tlsfFree cpu p :: s.log }
      else none
  | .push cpu spurious => s.pushStep cpu spurious
  | .flush cpu => if s.pc cpu = .idle then some (s.flushStep cpu) else none
  | .walk cpu => s.walkStep cpu
  | .store block value =>
      -- the program may store to any block but a released one, whose link is in it
      match ptrState (block + blockStartOffset) s.log with
      | .released _ => none
      | _ => some { s with nextFree := Function.update s.nextFree block value }

/-- A release of pages meets no buddy of the wrong order. -/
def Merges (s : SmpHeaps) : HeapAction → Prop
  | .freePages b => s.pmm.Mergeable b.base b.order
  | _ => True

end SmpHeaps

/-! ### The log

The log records what was taken and given back. What may follow in it is decided by the state of one
pointer. -/

section Log

variable {p : Addr} {c : CpuId} {log later earlier : List HeapEvent}

/-- The events that may follow a log. -/
def HeapEvent.After (log : List HeapEvent) : HeapEvent → Prop
  | .kmalloc _ p => ptrState p log = .free
  | .kfree p => ∃ c, ptrState p log = .inUse c
  | .tlsfFree c p => ptrState p log = .inUse c ∨ ptrState p log = .released c

/-- Every event follows those before it. -/
def Orderly : List HeapEvent → Prop
  | [] => True
  | e :: log => e.After log ∧ Orderly log

/-- A release leads to a released pointer from one in use or released on the same CPU. -/
theorem PtrState.release_eq_released {st : PtrState} :
    st.release = .released c ↔ st = .inUse c ∨ st = .released c := by
  cases st <;> simp [release]

/-- What happens to other blocks does not matter. -/
theorem ptrState_cons_of_ne {e : HeapEvent} (hne : e.ptr ≠ p) :
    ptrState p (e :: log) = ptrState p log := by
  cases e <;> exact if_neg hne

/-- After a block was taken from a heap, it is in use, or `kfree` was called and it was not passed
on, or it was passed to the CPU it is from. -/
theorem Orderly.history (h : Orderly (later ++ .kmalloc c p :: earlier))
    (hnew : ∀ d, .kmalloc d p ∉ later) :
    (ptrState p (later ++ .kmalloc c p :: earlier) = .inUse c ∧
      .kfree p ∉ later ∧ ∀ d, .tlsfFree d p ∉ later) ∨
    (ptrState p (later ++ .kmalloc c p :: earlier) = .released c ∧ ∀ d, .tlsfFree d p ∉ later) ∨
    (ptrState p (later ++ .kmalloc c p :: earlier) = .free ∧
      later.count (.tlsfFree c p) = 1 ∧ ∀ d ≠ c, .tlsfFree d p ∉ later) := by
  induction later with
  | nil => exact Or.inl ⟨if_pos rfl, List.not_mem_nil, fun _ => List.not_mem_nil⟩
  | cons e later ih =>
      rw [List.cons_append] at h ⊢
      obtain ⟨hafter, hrest⟩ := h
      have ih := ih hrest fun d hd => hnew d (List.mem_cons_of_mem e hd)
      -- only the events before `e` matter from here on
      generalize later ++ .kmalloc c p :: earlier = log at hafter ih
      by_cases hptr : e.ptr = p
      · cases e with
        | kmalloc d q =>
            obtain rfl : q = p := hptr
            exact absurd List.mem_cons_self (hnew d)
        | kfree q =>
            obtain rfl : q = p := hptr
            obtain ⟨d, hd⟩ := hafter
            rcases ih with ⟨hstate, -, hnone⟩ | ⟨hstate, -⟩ | ⟨hstate, -⟩
            · refine Or.inr (Or.inl ⟨?_, fun d hmem => ?_⟩)
              · rw [ptrState, if_pos rfl, hstate, PtrState.release]
              · exact hnone d ((List.mem_cons.mp hmem).resolve_left HeapEvent.noConfusion)
            · rw [hstate] at hd
              cases hd
            · rw [hstate] at hd
              cases hd
        | tlsfFree d q =>
            obtain rfl : q = p := hptr
            obtain ⟨hcd, hnone⟩ : d = c ∧ ∀ d, .tlsfFree d q ∉ later := by
              rcases ih with ⟨hstate, -, hnone⟩ | ⟨hstate, hnone⟩ | ⟨hstate, -⟩ <;>
                rw [HeapEvent.After, hstate] at hafter <;> simp at hafter
              · exact ⟨hafter.symm, hnone⟩
              · exact ⟨hafter.symm, hnone⟩
            subst hcd
            refine Or.inr (Or.inr ⟨if_pos rfl, ?_, fun c hc hmem => ?_⟩)
            · rw [List.count_cons_self, List.count_eq_zero.mpr (hnone d)]
            · rcases List.mem_cons.mp hmem with heq | hmem
              · exact hc (HeapEvent.tlsfFree.inj heq).1
              · exact hnone c hmem
      · have hmem : ∀ e' : HeapEvent, e'.ptr = p → (e' ∈ e :: later ↔ e' ∈ later) := by
          rintro e' rfl
          rw [List.mem_cons, or_iff_right]
          rintro rfl
          exact hptr rfl
        have hcount : (e :: later).count (.tlsfFree c p) = later.count (.tlsfFree c p) := by
          apply List.count_cons_of_ne
          rintro rfl
          exact hptr rfl
        rw [ptrState_cons_of_ne hptr, hmem _ rfl, hcount]
        simp only [hmem (.tlsfFree _ p) rfl]
        exact ih

end Log

/-! ### The lists

The pending lists, what a processor has taken off its list, and the blocks that are being pushed, as
one store of lists whose heads are places. -/

/-- Where a block is until it is back in its heap. -/
inductive Place
  /-- On the list of pending blocks of the CPU. -/
  | pending (cpu : CpuId)
  /-- With the `tlsf_flush_pending` of the CPU. -/
  | taken (cpu : CpuId)
  /-- With the `tlsf_push_pending` of a CPU, for the other one. -/
  | pushed (cpu target : CpuId)
  deriving DecidableEq

/-- The CPU whose heap the block goes to. -/
def Place.target : Place → CpuId
  | .pending cpu | .taken cpu | .pushed _ cpu => cpu

/-- The pointer to a block, unless there is none. -/
def toPtr (block : Addr) : Option Addr :=
  if block = 0 then none else some (block + blockStartOffset)

/-- The first block that `tlsf_flush_pending` still has to free. -/
def HeapPc.first : HeapPc → Option Addr
  | .walk pending | .free pending _ => toPtr pending
  | _ => none

/-- The block that is pushed, and to which CPU. -/
def HeapPc.pushes : HeapPc → Option (CpuId × Addr)
  | .load target block | .link target block _ | .cas target block _ =>
      some (target, block + blockStartOffset)
  | _ => none

/-- What the CPU knows of the links. -/
def HeapPc.Knows (nextFree : Addr → Addr) : HeapPc → Prop
  | .cas _ block oldHead => nextFree block = oldHead
  | .walk pending => pending ≠ 0
  | .free pending next => pending ≠ 0 ∧ nextFree pending = next
  | _ => True

/-- The link of a block, as a pointer. -/
def nextPtr (nextFree : Addr → Addr) (p : Addr) : Option Addr :=
  toPtr (nextFree (p - blockStartOffset))

namespace SmpHeaps

/-- The blocks that are not back yet are where `st` has them. -/
structure Listed (s : SmpHeaps) (st : ListStore Place Addr) : Prop where
  pending : ∀ c, Chain.Segment (nextPtr s.nextFree) (toPtr (s.pendingFree c))
    (st.queue (.pending c)) none
  taken : ∀ c, Chain.Segment (nextPtr s.nextFree) (s.pc c).first (st.queue (.taken c)) none
  pushed : ∀ d c p, st.home p = some (.pushed d c) ↔ (s.pc d).pushes = some (c, p)
  released : ∀ c p, ptrState p s.log = .released c ↔ ∃ place, st.home p = some place ∧
    place.target = c
  knows : ∀ c, (s.pc c).Knows s.nextFree

/-- The invariant. -/
structure Rep (s : SmpHeaps) : Prop where
  pages : HeapPages s.pmm s.taken s.pools s.owner
  /-- A block that is not in a heap is in the pages of the heap it is from. -/
  inHeap : ∀ c p, ptrState p s.log = .inUse c ∨ ptrState p s.log = .released c → s.InHeap c p
  orderly : Orderly s.log
  listed : ∃ st, s.Listed st

variable {s s' : SmpHeaps} {st : ListStore Place Addr} {c cpu target : CpuId}
  {p block value : Addr} {pc : HeapPc}

/-- The loop goes on with the pointer that it tests. -/
@[simp]
theorem first_loopTest (block : Addr) : (HeapPc.loopTest block).first = toPtr block := by
  rw [HeapPc.loopTest]
  split
  case isTrue h => exact (if_pos h).symm
  case isFalse => rfl

/-- The test of the loop pushes nothing. -/
@[simp]
theorem pushes_loopTest (block : Addr) : (HeapPc.loopTest block).pushes = none := by
  rw [HeapPc.loopTest]
  split <;> rfl

/-- It needs to know nothing about the list. -/
theorem knows_loopTest (nextFree : Addr → Addr) (block : Addr) :
    (HeapPc.loopTest block).Knows nextFree := by
  rw [HeapPc.loopTest]
  split
  case isTrue => trivial
  case isFalse h => exact h

/-- A pending block was freed. -/
theorem Listed.exists_released (h : s.Listed st) {place : Place} (hp : st.home p = some place) :
    ptrState p s.log = .released place.target :=
  (h.released _ _).mpr ⟨place, hp, rfl⟩

/-- Only one CPU pushes a block. -/
theorem Listed.home_of_pushes (h : s.Listed st) (hpc : (s.pc cpu).pushes = some (target, p)) :
    st.home p = some (.pushed cpu target) :=
  (h.pushed cpu target p).mpr hpc

/-- The first block of those that were taken is with the CPU. -/
theorem Listed.home_of_first (h : s.Listed st) (hpc : (s.pc cpu).first = some p) :
    ∃ rest, st.queue (.taken cpu) = p :: rest ∧ st.home p = some (.taken cpu) := by
  have hchain := h.taken cpu
  cases hqueue : st.queue (.taken cpu) with
  | nil =>
      rw [hqueue, Chain.segment_nil, hpc] at hchain
      cases hchain
  | cons q rest =>
      rw [hqueue, hpc] at hchain
      obtain rfl := Option.some.inj hchain.1
      exact ⟨rest, rfl, ListStore.home_of_mem (hqueue ▸ List.mem_cons_self)⟩

/-- A CPU that is not flushing has no list taken. -/
theorem Listed.queue_taken_eq_nil (h : s.Listed st) (hpc : (s.pc cpu).first = none) :
    st.queue (.taken cpu) = [] := by
  have hchain := h.taken cpu
  rw [hpc] at hchain
  have hhead := hchain.head
  exact List.head?_eq_none_iff.mp hhead.symm

/-- A step that neither moves a block nor writes a link. -/
theorem Listed.goto (h : s.Listed st) (hfirst : pc.first = (s.pc cpu).first)
    (hpushes : pc.pushes = (s.pc cpu).pushes) (hknows : pc.Knows s.nextFree) :
    Listed { s with pc := Function.update s.pc cpu pc } st := by
  -- only the program counter of `cpu` changes, and what the lists say of it stays
  refine ⟨h.pending, fun c => ?_, fun d c p => ?_, h.released, fun c => ?_⟩
  · dsimp only
    by_cases hc : c = cpu
    · rw [hc, Function.update_self, hfirst]
      exact h.taken cpu
    · rw [Function.update_of_ne hc]
      exact h.taken c
  · dsimp only
    by_cases hd : d = cpu
    · rw [hd, Function.update_self, hpushes]
      exact h.pushed cpu c p
    · rw [Function.update_of_ne hd]
      exact h.pushed d c p
  · dsimp only
    by_cases hc : c = cpu
    · rw [hc, Function.update_self]
      exact hknows
    · rw [Function.update_of_ne hc]
      exact h.knows c

/-- The link of a block that is on no list is written. -/
theorem Listed.link (h : s.Listed st)
    (hout : ∀ place, st.home (block + blockStartOffset) = some place → ∃ d c, place = .pushed d c)
    (hcas : ∀ d c old, s.pc d ≠ .cas c block old) :
    Listed { s with nextFree := Function.update s.nextFree block value } st := by
  -- only a block that is being pushed has its link written, and no list contains it yet
  have hlink : ∀ place, (∀ d c, place ≠ .pushed d c) → ∀ p ∈ st.queue place,
      nextPtr (Function.update s.nextFree block value) p = nextPtr s.nextFree p := by
    intro place hplace p hp
    have hne : p - blockStartOffset ≠ block := by
      rintro rfl
      rw [BitVec.sub_add_cancel] at hout
      obtain ⟨d, c, rfl⟩ := hout place (ListStore.home_of_mem hp)
      exact hplace d c rfl
    rw [nextPtr, Function.update_of_ne hne, nextPtr]
  refine ⟨fun c => ?_, fun c => ?_, h.pushed, h.released, fun c => ?_⟩
  · exact (h.pending c).congr (hlink _ fun _ _ => Place.noConfusion)
  · exact (h.taken c).congr (hlink _ fun _ _ => Place.noConfusion)
  · have hknows := h.knows c
    have hcas := hcas c
    dsimp only
    cases hpc : s.pc c with
    | cas target block' old =>
        rw [hpc] at hknows hcas
        have hne : block' ≠ block := by
          rintro rfl
          exact hcas target old rfl
        exact (Function.update_of_ne hne _ _).trans hknows
    | free pending next =>
        rw [hpc] at hknows
        have hne : pending ≠ block := by
          rintro rfl
          obtain ⟨-, -, hhome⟩ := @Listed.home_of_first s st c (pending + blockStartOffset) h (by
            rw [hpc, HeapPc.first, toPtr, if_neg hknows.1])
          obtain ⟨d, c', hplace⟩ := hout _ hhome
          cases hplace
        exact ⟨hknows.1, (Function.update_of_ne hne _ _).trans hknows.2⟩
    | walk pending =>
        rw [hpc] at hknows
        exact hknows
    | idle | load | link => trivial

/-- What is logged of a block that was not freed moves nothing. -/
theorem Listed.log (h : s.Listed st) {log : List HeapEvent}
    (hlog : ∀ c p, ptrState p log = .released c ↔ ptrState p s.log = .released c) :
    Listed { s with log } st :=
  ⟨h.pending, h.taken, h.pushed, fun c p => (hlog c p).trans (h.released c p), h.knows⟩

/-- A CPU begins to push a block that was in use. -/
theorem Listed.push (h : s.Listed st) (hidle : s.pc cpu = .idle)
    (huse : ptrState (block + blockStartOffset) s.log = .inUse target) :
    ∃ st, Listed { s with
      log := .kfree (block + blockStartOffset) :: s.log
      pc := Function.update s.pc cpu (.load target block) } st := by
  obtain ⟨p, hp⟩ : ∃ p, p = block + blockStartOffset := ⟨_, rfl⟩
  rw [← hp] at huse ⊢
  have hnone : st.home p = none := by
    by_contra hne
    obtain ⟨place, hplace⟩ := Option.ne_none_iff_exists'.mp hne
    rw [h.exists_released hplace] at huse
    cases huse
  refine ⟨st.consAt p (.pushed cpu target) hnone, fun c => ?_, fun c => ?_, fun d c q => ?_,
    fun c q => ?_, fun c => ?_⟩
  · simp only [ListStore.consAt_queue_apply, reduceCtorEq, if_false]
    exact h.pending c
  · simp only [ListStore.consAt_queue_apply, reduceCtorEq, if_false]
    by_cases hc : c = cpu
    · have htaken := h.taken c
      rw [hc, hidle] at htaken
      rw [hc, Function.update_self]
      exact htaken
    · rw [Function.update_of_ne hc]
      exact h.taken c
  · rw [ListStore.consAt_home_apply]
    dsimp only
    have hpushed := h.pushed d c q
    by_cases hd : d = cpu
    · -- before, the CPU was pushing nothing
      subst hd
      have hother : st.home q ≠ some (.pushed d c) := by
        intro hq
        have hpushes := hpushed.mp hq
        rw [hidle] at hpushes
        cases hpushes
      rw [Function.update_self, HeapPc.pushes, ← hp]
      by_cases hq : q = p
      · rw [if_pos hq, hq]
        simp
      · rw [if_neg hq]
        exact iff_of_false hother fun heq => hq (Prod.ext_iff.mp (Option.some.inj heq)).2.symm
    · rw [Function.update_of_ne hd, ← hpushed]
      by_cases hq : q = p
      · rw [if_pos hq, hq, hnone]
        refine iff_of_false (fun heq => hd ?_) (by simp)
        exact (Place.pushed.inj (Option.some.inj heq)).1.symm
      · rw [if_neg hq]
  · rw [ListStore.consAt_home_apply, ptrState]
    by_cases hq : q = p
    · subst hq
      rw [if_pos rfl, if_pos rfl, PtrState.release_eq_released, huse]
      simp [Place.target]
    · rw [if_neg hq, if_neg (Ne.symm hq)]
      exact h.released c q
  · dsimp only
    by_cases hc : c = cpu
    · rw [hc, Function.update_self]
      trivial
    · rw [Function.update_of_ne hc]
      exact h.knows c

/-- The compare-and-swap succeeds: the block is the first of the pending ones. -/
theorem Listed.swap (h : s.Listed st) (hpc : s.pc cpu = .cas target block (s.pendingFree target))
    (hblock : block ≠ 0) :
    ∃ st, Listed { s with
      pendingFree := Function.update s.pendingFree target block
      pc := Function.update s.pc cpu .idle } st := by
  obtain ⟨p, hp⟩ : ∃ p, p = block + blockStartOffset := ⟨_, rfl⟩
  have hpushes : (s.pc cpu).pushes = some (target, p) := by rw [hpc, hp, HeapPc.pushes]
  have hhome := h.home_of_pushes hpushes
  have hfreed : (st.eraseAt p _ hhome).home p = none := by
    rw [ListStore.eraseAt_home_apply, if_pos rfl]
  refine ⟨(st.eraseAt p _ hhome).consAt p (.pending target) hfreed, fun c => ?_, fun c => ?_,
    fun d c q => ?_, fun c q => ?_, fun c => ?_⟩
  · simp only [ListStore.consAt_queue_apply, ListStore.eraseAt_queue_apply, reduceCtorEq, if_false,
      Place.pending.injEq]
    by_cases hc : c = target
    · -- the link of the block is what the head was, so the old list follows it
      have hknows := h.knows cpu
      rw [hpc] at hknows
      rw [hc, if_pos rfl, Function.update_self]
      refine ⟨by rw [toPtr, if_neg hblock, hp], ?_⟩
      rw [nextPtr, hp, BitVec.add_sub_cancel, show s.nextFree block = _ from hknows]
      exact h.pending target
    · rw [if_neg hc, Function.update_of_ne hc]
      exact h.pending c
  · simp only [ListStore.consAt_queue_apply, ListStore.eraseAt_queue_apply, reduceCtorEq, if_false]
    by_cases hc : c = cpu
    · have htaken := h.taken c
      rw [hc, hpc] at htaken
      rw [hc, Function.update_self]
      exact htaken
    · rw [Function.update_of_ne hc]
      exact h.taken c
  · rw [ListStore.consAt_home_apply, ListStore.eraseAt_home_apply]
    dsimp only
    have hpushed := h.pushed d c q
    by_cases hd : d = cpu
    · subst hd
      rw [Function.update_self]
      by_cases hq : q = p
      · rw [if_pos hq]
        exact iff_of_false (by simp) (by simp [HeapPc.pushes])
      · rw [if_neg hq, if_neg hq, hpushed, hpushes]
        refine iff_of_false (fun heq => hq ?_) (by simp [HeapPc.pushes])
        exact (Prod.ext_iff.mp (Option.some.inj heq)).2.symm
    · rw [Function.update_of_ne hd, ← hpushed]
      by_cases hq : q = p
      · rw [if_pos hq, hq, hhome]
        refine iff_of_false (by simp) fun heq => hd ?_
        exact (Place.pushed.inj (Option.some.inj heq)).1.symm
      · rw [if_neg hq, if_neg hq]
  · rw [ListStore.consAt_home_apply, ListStore.eraseAt_home_apply]
    apply (h.released c q).trans
    by_cases hq : q = p
    · rw [if_pos hq, hq, hhome]
      simp [Place.target]
    · rw [if_neg hq, if_neg hq]
  · dsimp only
    by_cases hc : c = cpu
    · rw [hc, Function.update_self]
      trivial
    · rw [Function.update_of_ne hc]
      exact h.knows c

/-- The exchange: all pending blocks are with the CPU. -/
theorem Listed.flush (h : s.Listed st) (hidle : s.pc cpu = .idle) :
    ∃ st, Listed { s with
      pendingFree := Function.update s.pendingFree cpu 0
      pc := Function.update s.pc cpu (.loopTest (s.pendingFree cpu)) } st := by
  -- a CPU that is idle has taken no list, so the pending list is moved as a whole
  have hnil : st.queue (.taken cpu) = [] := h.queue_taken_eq_nil (by rw [hidle]; rfl)
  refine ⟨st.moveAll (.pending cpu) (.taken cpu) hnil (by simp), fun c => ?_, fun c => ?_,
    fun d c q => ?_, fun c q => ?_, fun c => ?_⟩
  · simp only [ListStore.moveAll_queue_apply, reduceCtorEq, if_false, Place.pending.injEq]
    by_cases hc : c = cpu
    · rw [hc, if_pos rfl, Function.update_self]
      exact Chain.segment_nil.mpr (if_pos rfl)
    · rw [if_neg hc, Function.update_of_ne hc]
      exact h.pending c
  · simp only [ListStore.moveAll_queue_apply, reduceCtorEq, if_false, Place.taken.injEq]
    by_cases hc : c = cpu
    · rw [hc, if_pos rfl, Function.update_self, first_loopTest]
      exact h.pending cpu
    · rw [if_neg hc, Function.update_of_ne hc]
      exact h.taken c
  · rw [ListStore.moveAll_home_apply]
    dsimp only
    have hpushed := h.pushed d c q
    have hhome : (if st.home q = some (.pending cpu) then some (.taken cpu) else st.home q) =
        some (.pushed d c) ↔ st.home q = some (.pushed d c) := by
      split
      case isTrue hq =>
        rw [hq]
        simp
      case isFalse => rfl
    rw [hhome, hpushed]
    by_cases hd : d = cpu
    · rw [hd, Function.update_self, pushes_loopTest, hidle]
      rfl
    · rw [Function.update_of_ne hd]
  · rw [ListStore.moveAll_home_apply]
    apply (h.released c q).trans
    split
    case isTrue hq =>
      rw [hq]
      simp [Place.target]
    case isFalse => rfl
  · dsimp only
    by_cases hc : c = cpu
    · rw [hc, Function.update_self]
      exact knows_loopTest _ _
    · rw [Function.update_of_ne hc]
      exact h.knows c

/-- `tlsf_free` in the loop: the first block is back, and the next one is the first. -/
theorem Listed.freed (h : s.Listed st) {next : Addr} (hpc : s.pc cpu = .free block next) :
    ptrState (block + blockStartOffset) s.log = .released cpu ∧
    ∃ st, Listed { s with
      log := .tlsfFree cpu (block + blockStartOffset) :: s.log
      pc := Function.update s.pc cpu (.loopTest next) } st := by
  obtain ⟨p, hp⟩ : ∃ p, p = block + blockStartOffset := ⟨_, rfl⟩
  have hknows := h.knows cpu
  rw [hpc] at hknows
  have hfirst : (s.pc cpu).first = some p := by
    rw [hpc, HeapPc.first, toPtr, if_neg hknows.1, hp]
  -- the block is the first of those that the CPU has taken
  obtain ⟨rest, hqueue, hhome⟩ := h.home_of_first hfirst
  rw [← hp]
  refine ⟨h.exists_released hhome, st.eraseAt p _ hhome, fun c => ?_, fun c => ?_,
    fun d c q => ?_, fun c q => ?_, fun c => ?_⟩
  · simp only [ListStore.eraseAt_queue_apply, reduceCtorEq, if_false]
    exact h.pending c
  · simp only [ListStore.eraseAt_queue_apply, Place.taken.injEq]
    by_cases hc : c = cpu
    -- the link was read before the block was freed
    · have hchain := h.taken cpu
      rw [hqueue, Chain.segment_cons, nextPtr, hp, BitVec.add_sub_cancel, hknows.2] at hchain
      rw [hc, if_pos rfl, Function.update_self, first_loopTest, hqueue, List.erase_cons_head]
      exact hchain.2
    · rw [if_neg hc, Function.update_of_ne hc]
      exact h.taken c
  · rw [ListStore.eraseAt_home_apply]
    dsimp only
    have hpushed := h.pushed d c q
    have hhome' : (if q = p then none else st.home q) = some (.pushed d c) ↔
        st.home q = some (.pushed d c) := by
      split
      case isTrue hq =>
        rw [hq, hhome]
        simp
      case isFalse => rfl
    rw [hhome', hpushed]
    by_cases hd : d = cpu
    · rw [hd, Function.update_self, pushes_loopTest, hpc]
      rfl
    · rw [Function.update_of_ne hd]
  · rw [ListStore.eraseAt_home_apply, ptrState]
    by_cases hq : q = p
    · rw [if_pos hq, if_pos hq.symm]
      simp
    · rw [if_neg hq, if_neg (Ne.symm hq)]
      exact h.released c q
  · dsimp only
    by_cases hc : c = cpu
    · rw [hc, Function.update_self]
      exact knows_loopTest _ _
    · rw [Function.update_of_ne hc]
      exact h.knows c

/-! ### The invariant

Each action moves one block from one place to the next, or none. The links in memory are those of
the store, except for a block that is being pushed, whose link is known to the pusher alone. -/

/-- At boot the lists stand for what they should. -/
theorem rep_boot {pmm : Pmm} (hpmm : pmm.Inv ∅) (owner : ℕ → CpuId) (nextFree : Addr → Addr) :
    (boot pmm owner nextFree).Rep where
  pages := ⟨hpmm, Finset.disjoint_empty_left _, fun c b hb => absurd hb (Finset.notMem_empty _)⟩
  inHeap c p hp := by
    rcases hp with hp | hp <;> cases hp
  orderly := trivial
  listed := by
    refine ⟨ListStore.empty, fun c => ?_, fun c => rfl, fun d c p => ?_, fun c p => ?_, fun c => ?_⟩
    · exact Chain.segment_nil.mpr (if_pos rfl)
    · simp [ListStore.empty, boot, HeapPc.pushes]
    · simp [ListStore.empty, boot, ptrState]
    · trivial

/-- The page of a block belongs to the CPU of its heap. -/
theorem Rep.owner_of_inHeap (h : s.Rep) (hp : s.InHeap c p) : s.owner (virtToPfn p) = c := by
  obtain ⟨⟨d, b⟩, hb, rfl, hin⟩ := hp
  exact h.pages.owner d b hb _ (Block.mem_frames.mpr hin)

/-- A pointer into a heap is not `NULL`, and the header before it is not at `NULL`. -/
theorem Rep.ptr_of_inHeap (h : s.Rep) (hp : s.InHeap c p) :
    p ≠ 0 ∧ p - blockStartOffset ≠ 0 := by
  obtain ⟨⟨d, b⟩, hb, -, hin⟩ := hp
  exact h.pages.ptr_of_frame hb (Block.mem_frames.mpr hin)

/-- A block stays in its heap while pools are added. -/
theorem InHeap.mono {c : CpuId} (hp : s.InHeap c p) (hsub : s.pools ⊆ s'.pools) :
    s'.InHeap c p := by
  obtain ⟨x, hx, hrest⟩ := hp
  exact ⟨x, hsub hx, hrest⟩

/-- Pages are added to a heap. -/
theorem Rep.growPool (h : s.Rep) {order : ℤ} (hgrow : s.growPool cpu order = some s') : s'.Rep := by
  obtain ⟨⟨phys, pmm⟩, halloc, hrest⟩ := Option.bind_eq_some_iff.mp hgrow
  rcases h.pages.alloc order with hnull | ⟨pfn, pmm', hcall, hphys, -, -, -, hpages, -⟩
  · rw [hnull] at halloc
    cases halloc
    obtain rfl := Option.some.inj hrest
    exact h
  · rw [hcall] at halloc
    cases halloc
    dsimp only [Option.getD_some] at hrest
    rw [if_neg hphys, Pmm.physToPfn_pfnToPhys] at hrest
    obtain rfl := Option.some.inj hrest
    obtain ⟨st, hst⟩ := h.listed
    exact ⟨hpages cpu, fun c p hp => (h.inHeap c p hp).mono (Finset.subset_insert _ _), h.orderly,
      st, hst.pending, hst.taken, hst.pushed, hst.released, hst.knows⟩

/-- Pages that go to others. -/
theorem Rep.takePages (h : s.Rep) {order : ℤ} (hstep : s.step (.takePages order) = some s') :
    s'.Rep := by
  obtain ⟨⟨phys, pmm⟩, halloc, hrest⟩ := Option.bind_eq_some_iff.mp hstep
  obtain ⟨st, hst⟩ := h.listed
  rcases h.pages.alloc order with hnull | ⟨pfn, pmm', hcall, -, -, -, -, -, hpages⟩
  · rw [hnull] at halloc
    cases halloc
    obtain rfl := Option.some.inj hrest
    exact h
  · rw [hcall] at halloc
    cases halloc
    obtain rfl := Option.some.inj hrest
    refine ⟨?_, h.inHeap, h.orderly, st, hst.pending, hst.taken, hst.pushed, hst.released,
      hst.knows⟩
    rwa [Pmm.physToPfn_pfnToPhys]

/-- Pages of others are released. -/
theorem Rep.freePages (h : s.Rep) {b : Block} (hmerge : s.pmm.Mergeable b.base b.order)
    (hstep : s.step (.freePages b) = some s') : s'.Rep := by
  rw [step] at hstep
  split at hstep
  case isFalse => cases hstep
  case isTrue hb =>
    obtain ⟨pmm, hfree, hrest⟩ := Option.bind_eq_some_iff.mp hstep
    obtain rfl := Option.some.inj hrest
    obtain ⟨pmm', hcall, hpages⟩ := h.pages.free hb hmerge
    rw [hcall] at hfree
    cases hfree
    obtain ⟨st, hst⟩ := h.listed
    exact ⟨hpages, h.inHeap, h.orderly, st, hst.pending, hst.taken, hst.pushed, hst.released,
      hst.knows⟩

/-- A block is taken from a heap. -/
theorem Rep.kmalloc (h : s.Rep) (hp : s.InHeap c p) (hfree : ptrState p s.log = .free) :
    Rep { s with log := .kmalloc c p :: s.log } := by
  obtain ⟨st, hst⟩ := h.listed
  refine ⟨h.pages, fun d q hq => ?_, ⟨hfree, h.orderly⟩, st,
    hst.log fun d q => ?_⟩
  -- for a free address nothing was on a list, and now it is in use
  · by_cases hne : p = q
    · subst hne
      rw [ptrState, if_pos rfl] at hq
      obtain rfl : c = d := by simpa using hq
      exact hp
    · rw [ptrState, if_neg hne] at hq
      exact h.inHeap d q hq
  · by_cases hne : p = q
    · rw [ptrState, if_pos hne, ← hne, hfree]
      simp
    · rw [ptrState, if_neg hne]

/-- A block that was in use is back in its heap. -/
theorem Rep.back (h : s.Rep) {log : List HeapEvent} (horderly : Orderly log)
    (huse : ∃ d, ptrState p s.log = .inUse d)
    (hlog : ∀ q, ptrState q log = if p = q then .free else ptrState q s.log) :
    Rep { s with log } := by
  obtain ⟨st, hst⟩ := h.listed
  refine ⟨h.pages, fun d q hq => h.inHeap d q ?_, horderly, st, hst.log fun d q => ?_⟩
  · dsimp only at hq
    rw [hlog] at hq
    split at hq
    case isTrue => simp at hq
    case isFalse => exact hq
  · rw [hlog]
    split
    case isTrue heq =>
      -- an address in use is on no list, and neither is a free one
      obtain ⟨d', huse⟩ := huse
      rw [← heq, huse]
      simp
    case isFalse => rfl

/-- `kfree`, on the CPU of the block or on another one. -/
theorem Rep.kfree (h : s.Rep) (huse : ptrState p s.log = .inUse c) (hidle : s.pc cpu = .idle) :
    (s.kfree cpu p).Rep := by
  have hp := h.inHeap c p (Or.inl huse)
  have howner := h.owner_of_inHeap hp
  have hafter : Orderly (.kfree p :: s.log) := ⟨⟨c, huse⟩, h.orderly⟩
  have hreleased : ptrState p (.kfree p :: s.log) = .released c := by
    rw [ptrState, if_pos rfl, huse, PtrState.release]
  rw [SmpHeaps.kfree, howner]
  split
  case isTrue heq =>
    -- the CPU's own block goes back to its heap
    subst heq
    refine h.back ⟨Or.inr hreleased, hafter⟩ ⟨c, huse⟩ fun q => ?_
    by_cases hq : p = q
    · rw [ptrState, if_pos hq, if_pos hq]
    · rw [ptrState, if_neg hq, ptrState, if_neg hq, if_neg hq]
  case isFalse =>
    -- a block of another CPU is to be pushed on the list of that CPU
    obtain ⟨hne, -⟩ := h.ptr_of_inHeap hp
    have hblock : tlsfPtrToBlock p + blockStartOffset = p := by
      rw [tlsfPtrToBlock, if_neg hne, BitVec.sub_add_cancel]
    obtain ⟨st, hst⟩ := h.listed
    refine ⟨h.pages, fun d q hq => h.inHeap d q ?_, hafter, ?_⟩
    · by_cases hpq : p = q
      · subst hpq
        rw [hreleased] at hq
        obtain rfl : c = d := by simpa using hq
        exact Or.inl huse
      · rwa [ptrState, if_neg hpq] at hq
    · have hpush := @Listed.push s st cpu c (tlsfPtrToBlock p) hst hidle (by rwa [hblock])
      rwa [hblock] at hpush

/-- A step of a push. -/
theorem Rep.pushStep (h : s.Rep) {spurious : Bool} (hstep : s.pushStep cpu spurious = some s') :
    s'.Rep := by
  obtain ⟨st, hst⟩ := h.listed
  unfold SmpHeaps.pushStep at hstep
  cases hpc : s.pc cpu with
  | load target block =>
      rw [hpc] at hstep
      obtain rfl := Option.some.inj hstep
      exact ⟨h.pages, h.inHeap, h.orderly, st,
        hst.goto (by rw [hpc]; rfl) (by rw [hpc]; rfl) trivial⟩
  | link target block oldHead =>
      rw [hpc] at hstep
      obtain rfl := Option.some.inj hstep
      have hhome := @Listed.home_of_pushes s st cpu target (block + blockStartOffset) hst
        (by rw [hpc]; rfl)
      -- no other CPU is pushing this block, and it is on no list yet
      have hlinked := @Listed.link s st block oldHead hst
        (fun place hplace => ⟨cpu, target, Option.some.inj (hplace.symm.trans hhome)⟩) (by
          intro d c old hd
          have hhome' := @Listed.home_of_pushes s st d c (block + blockStartOffset) hst
            (by rw [hd]; rfl)
          obtain ⟨rfl, -⟩ := Place.pushed.inj (Option.some.inj (hhome'.symm.trans hhome))
          rw [hpc] at hd
          cases hd)
      refine ⟨h.pages, h.inHeap, h.orderly, st, hlinked.goto ?_ ?_ ?_⟩
      · rw [hpc]
        rfl
      · rw [hpc]
        rfl
      · exact Function.update_self ..
  | cas target block oldHead =>
      rw [hpc] at hstep
      dsimp only at hstep
      split at hstep
      case isTrue hswap =>
        obtain rfl := Option.some.inj hstep
        obtain ⟨-, rfl⟩ := hswap
        have hhome := @Listed.home_of_pushes s st cpu target (block + blockStartOffset) hst
          (by rw [hpc]; rfl)
        have hblock := (h.ptr_of_inHeap (h.inHeap _ _ (Or.inr (hst.exists_released hhome)))).2
        rw [BitVec.add_sub_cancel] at hblock
        exact ⟨h.pages, h.inHeap, h.orderly, hst.swap hpc hblock⟩
      case isFalse =>
        obtain rfl := Option.some.inj hstep
        exact ⟨h.pages, h.inHeap, h.orderly, st,
          hst.goto (by rw [hpc]; rfl) (by rw [hpc]; rfl) trivial⟩
  | idle | walk | free =>
      rw [hpc] at hstep
      cases hstep

/-- A step of the loop in `tlsf_flush_pending`. -/
theorem Rep.walkStep (h : s.Rep) (hstep : s.walkStep cpu = some s') : s'.Rep := by
  obtain ⟨st, hst⟩ := h.listed
  have hknows := hst.knows cpu
  unfold SmpHeaps.walkStep at hstep
  -- reading the link moves on in the block; freeing it takes the head off the processor's own list
  cases hpc : s.pc cpu with
  | walk pending =>
      rw [hpc] at hstep hknows
      obtain rfl := Option.some.inj hstep
      exact ⟨h.pages, h.inHeap, h.orderly, st,
        hst.goto (by rw [hpc]; rfl) (by rw [hpc]; rfl) ⟨hknows, rfl⟩⟩
  | free pending next =>
      rw [hpc] at hstep
      obtain rfl := Option.some.inj hstep
      obtain ⟨hreleased, hlisted⟩ := hst.freed hpc
      refine ⟨h.pages, fun d q hq => h.inHeap d q ?_, ⟨Or.inr hreleased, h.orderly⟩,
        hlisted⟩
      by_cases hpq : pending + blockStartOffset = q
      · rw [ptrState, if_pos hpq] at hq
        simp at hq
      · rwa [ptrState, if_neg hpq] at hq
  | idle | load | link | cas =>
      rw [hpc] at hstep
      cases hstep

/-- Every step keeps the invariant, if releases of pages meet no buddy of the wrong order. -/
theorem Rep.step {a : HeapAction} (h : s.Rep) (hmerge : s.Merges a) (hstep : s.step a = some s') :
    s'.Rep := by
  cases a with
  -- One case for each action; those that take several steps of the code have lemmas of their own.
  | grow cpu order =>
      rw [SmpHeaps.step] at hstep
      split at hstep
      case isTrue => exact h.growPool hstep
      case isFalse => cases hstep
  | takePages order => exact h.takePages hstep
  | freePages b => exact h.freePages hmerge hstep
  | kmalloc cpu p =>
      rw [SmpHeaps.step] at hstep
      split at hstep
      case isTrue hp =>
        obtain rfl := Option.some.inj hstep
        exact h.kmalloc hp.2.1 hp.2.2
      case isFalse => cases hstep
  | kfree cpu p =>
      rw [SmpHeaps.step] at hstep
      split at hstep
      next c huse =>
        split at hstep
        case isTrue hidle =>
          obtain rfl := Option.some.inj hstep
          exact h.kfree huse hidle
        case isFalse => cases hstep
      next => cases hstep
  | moved cpu p =>
      rw [SmpHeaps.step] at hstep
      split at hstep
      case isTrue hp =>
        obtain rfl := Option.some.inj hstep
        exact h.back ⟨Or.inl hp.2, h.orderly⟩ ⟨cpu, hp.2⟩ fun q => rfl
      case isFalse => cases hstep
  | push cpu spurious => exact h.pushStep hstep
  | flush cpu =>
      rw [SmpHeaps.step] at hstep
      split at hstep
      case isTrue hidle =>
        obtain rfl := Option.some.inj hstep
        rw [flushStep]
        split
        case isTrue =>
          obtain ⟨st, hst⟩ := h.listed
          exact ⟨h.pages, h.inHeap, h.orderly, hst.flush hidle⟩
        case isFalse => exact h
      case isFalse => cases hstep
  | walk cpu => exact h.walkStep hstep
  | store block value =>
      obtain ⟨st, hst⟩ := h.listed
      rw [SmpHeaps.step] at hstep
      split at hstep
      next => cases hstep
      next hnot =>
        obtain rfl := Option.some.inj hstep
        -- a store to a block that is on a list is no step
        have hnone : ∀ place, st.home (block + blockStartOffset) ≠ some place := fun place hplace =>
          hnot _ (hst.exists_released hplace)
        refine ⟨h.pages, h.inHeap, h.orderly, st, hst.link ?_ ?_⟩
        · exact fun place hplace => absurd hplace (hnone place)
        · intro d c old hd
          exact hnone _ (hst.home_of_pushes (by rw [hd]; rfl))

/-! ### Every block comes back once

When nothing is on its way any more, the log has each release of a block followed by one return to
its heap. -/

/-- No block is on its way back to the heap of the CPU. -/
structure Quiet (s : SmpHeaps) (c : CpuId) : Prop where
  idle : s.pc c = .idle
  empty : s.pendingFree c = 0
  pushed : ∀ d p, (s.pc d).pushes ≠ some (c, p)

/-- Blocks come back to the heaps they are from, and pages name the heap they are in. -/
structure Exact (s : SmpHeaps) : Prop where
  owner : ∀ c b, (c, b) ∈ s.pools → ∀ pfn ∈ b.frames, s.owner pfn = c
  /-- Since a block was taken from a heap, it was passed to `tlsf_free` once at most, and on this
  heap only. -/
  atMostOnce : ∀ c p later earlier, s.log = later ++ .kmalloc c p :: earlier →
    (∀ d, .kmalloc d p ∉ later) →
    later.count (.tlsfFree c p) ≤ 1 ∧ ∀ d ≠ c, .tlsfFree d p ∉ later
  /-- If `kfree` was called, and nothing is on its way, it was. -/
  once : ∀ c p later earlier, s.log = later ++ .kmalloc c p :: earlier →
    (∀ d, .kmalloc d p ∉ later) → .kfree p ∈ later → s.Quiet c → later.count (.tlsfFree c p) = 1
  /-- When all pushes are over, a flush leaves nothing on its way. -/
  flushed : ∀ c, s.pc c = .idle → (∀ d p, (s.pc d).pushes ≠ some (c, p)) →
    ∃ n s', Machine.execAll step (fun _ _ => True) s (.flush c :: List.replicate n (.walk c)) =
    some s' ∧
      s'.Quiet c

/-- The null pointer is no block. -/
theorem toPtr_eq_none (block : Addr) : toPtr block = none ↔ block = 0 := by
  rw [toPtr]
  split
  case isTrue h => exact iff_of_true rfl h
  case isFalse h => exact iff_of_false (by simp) h

/-- While nothing is on its way, no block that was freed is away from its heap. -/
theorem Rep.not_released (h : s.Rep) (hquiet : s.Quiet c) (p : Addr) :
    ptrState p s.log ≠ .released c := by
  obtain ⟨st, hst⟩ := h.listed
  intro hreleased
  obtain ⟨place, hplace, htarget⟩ := (hst.released c p).mp hreleased
  have hmem := (st.mem_queue place p).mpr hplace
  -- it would be on the pending list, which is empty, on the list taken, which an idle processor has
  -- not, or still on its way
  cases place with
  | pending cpu =>
      obtain rfl : cpu = c := htarget
      have hchain := hst.pending cpu
      rw [hquiet.empty, (toPtr_eq_none 0).mpr rfl] at hchain
      rw [List.head?_eq_none_iff.mp hchain.head.symm] at hmem
      exact absurd hmem List.not_mem_nil
  | taken cpu =>
      obtain rfl : cpu = c := htarget
      rw [hst.queue_taken_eq_nil (by rw [hquiet.idle]; rfl)] at hmem
      exact absurd hmem List.not_mem_nil
  | pushed cpu target =>
      obtain rfl : target = c := htarget
      exact hquiet.pushed cpu p ((hst.pushed cpu target p).mp hplace)

/-- The loop of `tlsf_flush_pending` ends when it has freed all blocks that it has taken. -/
theorem exists_walk (l : List Addr) (hpc : s.pc c = .loopTest block)
    (hchain : Chain.Segment (nextPtr s.nextFree) (toPtr block) l none) :
    ∃ n s', Machine.execAll step (fun _ _ => True) s (List.replicate n (.walk c)) = some s' ∧
      s'.pc = Function.update s.pc c .idle ∧ s'.pendingFree = s.pendingFree := by
  induction l generalizing s block with
  | nil =>
      obtain rfl := (toPtr_eq_none block).mp hchain
      have hidle : s.pc c = .idle := hpc
      exact ⟨0, s, rfl, by rw [← hidle, Function.update_eq_self], rfl⟩
  | cons p l ih =>
      have hne : block ≠ 0 := by
        intro hzero
        rw [(toPtr_eq_none block).mpr hzero] at hchain
        cases hchain.1
      have hp : block + blockStartOffset = p := by
        have hfirst := hchain.1
        rw [toPtr, if_neg hne] at hfirst
        exact Option.some.inj hfirst
      have hwalk : s.pc c = .walk block := hpc.trans (if_neg hne)
      -- the loop loads the link, frees the block and goes on with what the link was
      obtain ⟨s₁, hs₁⟩ : ∃ s₁ : SmpHeaps, s₁ = { s with
        pc := Function.update s.pc c (.free block (s.nextFree block)) } := ⟨_, rfl⟩
      have hload : s.walkStep c = some s₁ := by rw [walkStep, hwalk, hs₁]
      obtain ⟨s₂, hs₂⟩ : ∃ s₂ : SmpHeaps, s₂ = { s₁ with
        log := .tlsfFree c (block + blockStartOffset) :: s₁.log
        pc := Function.update s₁.pc c (.loopTest (s.nextFree block)) } := ⟨_, rfl⟩
      have hfree : s₁.walkStep c = some s₂ := by
        rw [walkStep, show s₁.pc c = .free block (s.nextFree block) by
          rw [hs₁]
          exact Function.update_self .., hs₂]
      have hrest : Chain.Segment (nextPtr s₂.nextFree) (toPtr (s.nextFree block)) l none := by
        have hnext := hchain.2
        rw [nextPtr, ← hp, BitVec.add_sub_cancel] at hnext
        rw [hs₂, hs₁]
        exact hnext
      obtain ⟨n, s', hexec, hpc', hpending⟩ := @ih s₂ (s.nextFree block)
        (by rw [hs₂]; exact Function.update_self ..) hrest
      refine ⟨n + 2, s', ?_, ?_, ?_⟩
      · rw [List.replicate_succ, List.replicate_succ, Machine.execAll, if_pos trivial, step, hload,
          Option.bind_some, Machine.execAll, if_pos trivial, step, hfree, Option.bind_some, hexec]
      · rw [hpc', hs₂, hs₁, Function.update_idem, Function.update_idem]
      · rw [hpending, hs₂, hs₁]

/-- When all pushes are over, a flush leaves nothing on its way. -/
theorem Rep.exists_flush (h : s.Rep) (hidle : s.pc c = .idle)
    (hpushed : ∀ d p, (s.pc d).pushes ≠ some (c, p)) :
    ∃ n s', Machine.execAll SmpHeaps.step (fun _ _ => True) s
      (.flush c :: List.replicate n (.walk c)) = some s' ∧ s'.Quiet c := by
  obtain ⟨st, hst⟩ := h.listed
  have hchain := hst.pending c
  by_cases hpool : ∃ x ∈ s.pools, x.1 = c
  · obtain ⟨s₁, hs₁⟩ : ∃ s₁ : SmpHeaps, s₁ = { s with
      pendingFree := Function.update s.pendingFree c 0
      pc := Function.update s.pc c (.loopTest (s.pendingFree c)) } := ⟨_, rfl⟩
    have hflush : s.step (.flush c) = some s₁ := by
      rw [SmpHeaps.step, if_pos hidle, flushStep, if_pos hpool, hs₁]
    obtain ⟨n, s', hexec, hpc, hpending⟩ :=
      @exists_walk s₁ c (s.pendingFree c) (st.queue (.pending c))
      (by rw [hs₁]; exact Function.update_self ..) (by rw [hs₁]; exact hchain)
    refine ⟨n, s', ?_, ?_, ?_, fun d p => ?_⟩
    · rw [Machine.execAll, if_pos trivial, hflush, Option.bind_some, hexec]
    · rw [hpc, Function.update_self]
    · rw [hpending, hs₁]
      exact Function.update_self ..
    · rw [hpc, hs₁, Function.update_idem]
      by_cases hd : d = c
      · rw [hd, Function.update_self]
        simp [HeapPc.pushes]
      · rw [Function.update_of_ne hd]
        exact hpushed d p
  · -- without a heap there is no block of it
    have hnil : st.queue (.pending c) = [] := by
      refine List.eq_nil_iff_forall_not_mem.mpr fun p hp => hpool ?_
      have hreleased := hst.exists_released (ListStore.home_of_mem hp)
      obtain ⟨x, hx, heq, -⟩ := h.inHeap _ _ (Or.inr hreleased)
      exact ⟨x, hx, heq⟩
    rw [hnil] at hchain
    refine ⟨0, s, ?_, hidle, (toPtr_eq_none _).mp hchain, hpushed⟩
    rw [List.replicate_zero, Machine.execAll, if_pos trivial, SmpHeaps.step, if_pos hidle,
      flushStep, if_neg hpool]
    rfl

/-- The invariant gives the exact count of frees. -/
theorem Rep.exact (h : s.Rep) : s.Exact where
  owner := h.pages.owner
  atMostOnce c p later earlier hlog hnew := by
    rcases (hlog ▸ h.orderly).history hnew with ⟨-, -, hnone⟩ | ⟨-, hnone⟩ | ⟨-, hcount, hother⟩
    · exact ⟨(List.count_eq_zero.mpr (hnone c)).le.trans (Nat.zero_le _), fun d _ => hnone d⟩
    · exact ⟨(List.count_eq_zero.mpr (hnone c)).le.trans (Nat.zero_le _), fun d _ => hnone d⟩
    · exact ⟨hcount.le, hother⟩
  once c p later earlier hlog hnew hfreed hquiet := by
    have hstate := h.not_released hquiet p
    rw [hlog] at hstate
    rcases (hlog ▸ h.orderly).history hnew with ⟨-, hnot, -⟩ | ⟨hreleased, -⟩ | ⟨-, hcount, -⟩
    · exact absurd hfreed hnot
    · exact absurd hreleased hstate
    · exact hcount
  flushed c hidle hpushed := h.exists_flush hidle hpushed

/-- From what `pmm_init` builds for a well-formed memory map: whatever the CPUs do, every block that
was freed comes back once, to the CPU it was taken from, if no release of pages meets a buddy of the
wrong order. -/
theorem frees_exactly_once {info : MmapInfo} (hwf : info.WellFormed) {beyond : ℕ → Bool} {pmm : Pmm}
    (hinit : pmmInit info beyond = some (some pmm)) (owner : ℕ → CpuId) (nextFree : Addr → Addr)
    (hrun : Machine.Run step Merges (boot pmm owner nextFree) s) : s.Exact := by
  have hinv : pmm.Inv ∅ := by
    rcases Pmm.pmmInit_spec hwf beyond with hnone | ⟨pmm', hcall, hinv⟩
    · rw [hnone] at hinit
      cases hinit
    · rw [hcall] at hinit
      cases hinit
      exact hinv
  have hrep : s.Rep :=
    hrun.invariant (I := Rep) (rep_boot hinv owner nextFree) fun _ _ _ h hmerge hstep =>
      h.step hmerge hstep
  exact hrep.exact

instance (s : SmpHeaps) (a : HeapAction) : Decidable (s.Merges a) :=
  match a with
  | .freePages b => inferInstanceAs (Decidable (s.pmm.Mergeable b.base b.order))
  | .grow _ _ | .takePages _ | .kmalloc _ _ | .kfree _ _ | .moved _ _ | .push _ _ | .flush _
  | .walk _ | .store _ _ => inferInstanceAs (Decidable True)

/-- One usable region of 256 frames from `0x100` on. -/
def oneMegabyte : MmapInfo where
  maxPhysAddr := 0x200000
  entries := [⟨0x100000, 0x100000, .usable⟩]

/-- The memory map of the example is well formed. -/
theorem oneMegabyte_wellFormed : oneMegabyte.WellFormed where
  aligned e he _ := by
    obtain rfl : e = ⟨0x100000, 0x100000, .usable⟩ := by simpa [oneMegabyte] using he
    decide
  disjoint := List.pairwise_singleton _ _

/-- A run from `pmm_init` on this region, found by execution. -/
theorem exists_run (cond : SmpHeaps → HeapAction → Prop) [∀ s a, Decidable (cond s a)]
    (as : List HeapAction) (check : SmpHeaps → Bool)
    (hcheck : ((pmmInit oneMegabyte fun _ => false).any fun r => r.any fun pmm =>
      (Machine.execAll step cond (boot pmm (fun _ => 0) fun _ => 0) as).any check) = true) :
    ∃ pmm s, pmmInit oneMegabyte (fun _ => false) = some (some pmm) ∧
      Machine.Run step cond (boot pmm (fun _ => 0) fun _ => 0) s ∧ check s = true := by
  obtain ⟨r, hr, hreturned⟩ := (Option.any_eq_true _ _).mp hcheck
  obtain ⟨pmm, rfl, hexecuted⟩ := (Option.any_eq_true _ _).mp hreturned
  obtain ⟨s, hrun, hchecked⟩ := Machine.exists_run_of_execAll step cond _ as check hexecuted
  exact ⟨pmm, s, hr, hrun, hchecked⟩

/-- A block of CPU 1 that CPU 2 frees, with one compare-and-swap that fails. -/
theorem frees_exactly_once_remote :
    ∃ pmm s, pmmInit oneMegabyte (fun _ => false) = some (some pmm) ∧
    Machine.Run step Merges (boot pmm (fun _ => 0) fun _ => 0) s ∧
    s.log = [.tlsfFree 1 0xFFFF800000110010, .kfree 0xFFFF800000110010,
      .kmalloc 1 0xFFFF800000110010] ∧ s.Exact := by
  obtain ⟨pmm, s, hinit, hrun, hcheck⟩ := exists_run Merges
    [.grow 1 4, .kmalloc 1 0xFFFF800000110010, .kfree 2 0xFFFF800000110010, .push 2 false,
      .push 2 false, .push 2 true, .push 2 false, .push 2 false, .push 2 false, .flush 1, .walk 1,
      .walk 1]
    (fun s => decide (s.log = [.tlsfFree 1 0xFFFF800000110010, .kfree 0xFFFF800000110010,
      .kmalloc 1 0xFFFF800000110010])) (by decide +kernel)
  exact ⟨pmm, s, hinit, hrun, of_decide_eq_true hcheck,
    frees_exactly_once oneMegabyte_wellFormed hinit _ _ hrun⟩

/-- The page allocator merges stacks of threads with a smaller block, as if the pages behind it were
free. These are in the heap of CPU 1, and CPU 2 gets them, too. A block that CPU 1 takes from its
heap and frees is passed to `tlsf_free` on the heap of CPU 2. -/
theorem page_in_two_heaps : ∃ pmm s, oneMegabyte.WellFormed ∧
    pmmInit oneMegabyte (fun _ => false) = some (some pmm) ∧
    Machine.Run step (fun _ _ => True) (boot pmm (fun _ => 0) fun _ => 0) s ∧ ¬ s.Exact := by
  obtain ⟨pmm, s, hinit, hrun, hcheck⟩ := exists_run (fun _ _ => True)
    [.grow 1 4, .grow 1 4, .grow 1 4, .takePages 3, .takePages 3, .grow 1 4, .takePages 3,
      .takePages 3, .kmalloc 1 0xFFFF800000154010, .freePages ⟨328, 3⟩, .freePages ⟨320, 3⟩,
      .freePages ⟨352, 3⟩, .grow 2 4, .grow 2 4, .kfree 1 0xFFFF800000154010, .push 1 false,
      .push 1 false, .push 1 false, .flush 2, .walk 2, .walk 2]
    (fun s => decide (s.log = [.tlsfFree 2 0xFFFF800000154010, .kfree 0xFFFF800000154010,
      .kmalloc 1 0xFFFF800000154010])) (by decide +kernel)
  refine ⟨pmm, s, oneMegabyte_wellFormed, hinit, hrun, fun hexact => ?_⟩
  have hlog := of_decide_eq_true hcheck
  have hother := (hexact.atMostOnce 1 0xFFFF800000154010 [_, _] [] hlog (by simp)).2
  exact hother 2 (by decide) List.mem_cons_self

end SmpHeaps

end Koharu
