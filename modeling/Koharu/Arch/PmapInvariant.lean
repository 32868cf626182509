import Koharu.Arch.Pmap
import Mathlib.Logic.Relation

/-!
# The page tables form trees

`PmState.Wf` says that the tables of a set of address spaces form separated trees whose pages the
allocator has handed out. `PmState.Step` is what every function of `pmap.c` guarantees for these
trees and for the memory around them, and `PmState.leaf` what the tables say about an address.

All of it is relative to the entries of the top level that belong to the trees, so that it can be
used for the lower half of every address space, and for the upper half of the kernel's.
-/

namespace Koharu

open Radix

/-! ### Entries

Which table an entry links to, as an `Option`: none if the entry is not present or maps a huge page.
This is the `child` of the trees in `Lib/Radix`. -/

namespace Entry

/-- The table an entry links to. -/
def child (e : Entry) : Option Addr := if e.present && !e.huge then some e.addr else none

/-- An entry that is zero is not present. -/
@[simp]
theorem present_zero : Entry.present 0#64 = false := by decide

/-- It maps no huge page. -/
@[simp]
theorem huge_zero : Entry.huge 0#64 = false := by decide

/-- It links to no table. -/
@[simp]
theorem child_zero : Entry.child 0#64 = none := by decide

/-- Nor does any other entry that is not present. -/
theorem child_of_not_present {e : Entry} (h : e.present = false) : e.child = none := by
  simp [child, h]

/-- An entry that maps a huge page does not link to a table. -/
theorem child_of_huge {e : Entry} (h : e.huge = true) : e.child = none := by
  simp [child, h]

/-- All other entries link to the table at their address. -/
theorem child_eq_some {e : Entry} (hpresent : e.present = true) (hhuge : e.huge = false) :
    e.child = some e.addr := by
  simp [child, hpresent, hhuge]

/-- These are the entries with links. -/
theorem child_eq_some_iff {e : Entry} {t : Addr} :
    e.child = some t ↔ e.present = true ∧ e.huge = false ∧ e.addr = t := by
  rw [child]
  split <;> simp_all

/-- Bits outside the mask of an address that lies within it. -/
theorem and_eq_zero_of_mask {t m b : BitVec 64} (ht : t &&& m = t)
    (h : m &&& b = 0#64) : t &&& b = 0#64 := by
  rw [← ht, BitVec.and_assoc, h, BitVec.and_zero]

/-- An entry with this bit is present. -/
theorem present_or {t bits : Entry} (h : bits &&& ptePresent = ptePresent) :
    Entry.present (t ||| bits) = true := by
  have hbit : (t ||| bits) &&& ptePresent = (t &&& ptePresent) ||| ptePresent := by
    rw [BitVec.and_or_distrib_right, h]
  rw [Entry.present, bne_iff_ne, hbit]
  intro hzero
  have := congrArg (fun e : Entry => e.getLsbD 0) hzero
  simp [ptePresent] at this

end Entry

/-- All flags of a link at once. -/
theorem tableEntry_eq (t : Addr) :
    tableEntry t = t ||| (ptePresent ||| pteWritable ||| pteUser) := by
  rw [tableEntry, BitVec.or_assoc, BitVec.or_assoc, BitVec.or_assoc]

/-- A link is present. -/
@[simp]
theorem present_tableEntry (t : Addr) : (tableEntry t).present = true := by
  rw [tableEntry_eq]
  exact Entry.present_or (by decide)

section TableEntry

variable {t : Addr} (ht : t &&& pteAddrMask = t)

include ht

/-- A link is not for a huge page, as the table is aligned. -/
theorem huge_tableEntry : (tableEntry t).huge = false := by
  have hzero : tableEntry t &&& pdeHuge = 0#64 := by
    rw [tableEntry_eq, BitVec.and_or_distrib_right,
      Entry.and_eq_zero_of_mask (b := pdeHuge) ht (by decide)]
    decide
  simp [Entry.huge, hzero]

/-- A link points to the table. -/
theorem addr_tableEntry : (tableEntry t).addr = t := by
  rw [Entry.addr, tableEntry_eq, BitVec.and_or_distrib_right, ht]
  have hflags : (ptePresent ||| pteWritable ||| pteUser) &&& pteAddrMask = 0#64 := by decide
  rw [hflags, BitVec.or_zero]

/-- A link links to the table. -/
theorem child_tableEntry : (tableEntry t).child = some t := by
  rw [Entry.child_eq_some (present_tableEntry t) (huge_tableEntry ht), addr_tableEntry ht]

end TableEntry

/-- The flags of a page say that it is present. -/
theorem pteFlags_and_present (flags : BitVec 32) : pteFlags flags &&& ptePresent = ptePresent := by
  unfold pteFlags
  split_ifs <;> decide

/-- The entry of a page is present. -/
theorem present_pageEntry (pa : Addr) (flags : BitVec 32) :
    (pageEntry pa flags).present = true := by
  apply Entry.present_or
  rw [BitVec.and_or_distrib_right, pteFlags_and_present]
  split_ifs <;> decide

/-- The entry of a page points to the frame. -/
theorem addr_pageEntry (pa : Addr) (flags : BitVec 32) :
    (pageEntry pa flags).addr = pa &&& pteAddrMask := by
  have hflags : (pteFlags flags ||| if hasProt flags protWc then ptePat else 0) &&& pteAddrMask =
      0#64 := by
    unfold pteFlags
    split_ifs <;> decide
  rw [Entry.addr, pageEntry, BitVec.and_or_distrib_right, hflags, BitVec.or_zero,
    BitVec.and_assoc, BitVec.and_self]

/-- The entry of a huge page is present. -/
theorem present_hugeEntry (pa : Addr) (flags : BitVec 32) :
    (hugeEntry pa flags).present = true := by
  apply Entry.present_or
  rw [BitVec.and_or_distrib_right, BitVec.and_or_distrib_right, pteFlags_and_present]
  split_ifs <;> decide

/-- The entry of a huge page points to its frames. -/
theorem hugeEntry_and_mask (pa : Addr) (flags : BitVec 32) :
    hugeEntry pa flags &&& pdAddrMask = pa &&& pdAddrMask := by
  have hflags : (pteFlags flags ||| pdeHuge ||| if hasProt flags protWc then pdePat else 0) &&&
      pdAddrMask = 0#64 := by
    unfold pteFlags
    split_ifs <;> decide
  rw [hugeEntry, BitVec.and_or_distrib_right, hflags, BitVec.or_zero, BitVec.and_assoc,
    BitVec.and_self]

/-- The entry of a huge page says so. -/
theorem huge_hugeEntry (pa : Addr) (flags : BitVec 32) : (hugeEntry pa flags).huge = true := by
  have hbit : (hugeEntry pa flags).getLsbD 7 = true := by
    rw [hugeEntry, BitVec.getLsbD_or, BitVec.getLsbD_or, BitVec.getLsbD_or]
    have : pdeHuge.getLsbD 7 = true := by decide
    simp [this]
  rw [Entry.huge, bne_iff_ne]
  intro hzero
  have := congrArg (fun e : Entry => e.getLsbD 7) hzero
  rw [BitVec.getLsbD_and, hbit] at this
  revert this
  decide

/-- The entry of a huge page is not a link. -/
theorem child_hugeEntry (pa : Addr) (flags : BitVec 32) : (hugeEntry pa flags).child = none :=
  Entry.child_of_huge (huge_hugeEntry pa flags)

/-! ### The invariant

`Wf F` says that the tables at the paths of `F` are pages in use, that no table is at two paths, and
that no entry of the top two levels is a huge page. It says nothing of the entries of the root that
`F` leaves out, which belong to the kernel. -/

/-- What is assumed of the page allocator: it returns `NULL` or a page that is not allocated. -/
class LawfulPageAllocator (σ : Type*) [PageAllocator σ] where
  /-- The pages handed out and not given back. -/
  allocated : σ → Set Addr
  alloc_aligned : ∀ m : σ, (PageAllocator.allocPages m).1 &&& pteAddrMask =
    (PageAllocator.allocPages m).1
  alloc_fresh : ∀ m : σ, (PageAllocator.allocPages m).1 ≠ 0 →
    (PageAllocator.allocPages m).1 ∉ allocated m
  alloc_mem : ∀ m : σ, (PageAllocator.allocPages m).1 ≠ 0 →
    (PageAllocator.allocPages m).1 ∈ allocated (PageAllocator.allocPages m).2
  alloc_mono : ∀ (m : σ) (p : Addr), p ∈ allocated m →
    p ∈ allocated (PageAllocator.allocPages m).2
  free_mono : ∀ (m : σ) (p q : Addr), p ∈ allocated m → p ≠ q →
    p ∈ allocated (PageAllocator.freePages m q)

/-- The trees of tables below the entries `top` of the tables `roots`. -/
def forest (roots : Set Addr) (top : Set (BitVec 9)) : Shape Addr (BitVec 9) where
  roots := roots
  top := top
  depth := 3

/-- The entries of the top level for the user half. -/
def userTop : Set (BitVec 9) := {i | i < 256#9}

namespace PmState

variable {σ : Type*}

/-- The table at the end of a path. -/
abbrev table (s : PmState σ) (r : Addr) (π : List (BitVec 9)) : Option Addr :=
  node Entry.child s.mem r π

/-- The page is a table of one of the trees. -/
abbrev IsTable (s : PmState σ) (F : Shape Addr (BitVec 9)) (q : Addr) : Prop :=
  IsNode Entry.child s.mem F q

/-- The table one level down. -/
theorem table_snoc (s : PmState σ) (r : Addr) (π : List (BitVec 9)) (i : BitVec 9) :
    s.table r (π ++ [i]) = (s.table r π).bind fun q => (s.mem q i).child :=
  node_snoc r π i

variable [PageAllocator σ] [LawfulPageAllocator σ]

/-- The page is in use. -/
def Allocated (s : PmState σ) (q : Addr) : Prop :=
  q ∈ LawfulPageAllocator.allocated s.pmm

/-- The tables form separated trees. -/
structure Wf (s : PmState σ) (F : Shape Addr (BitVec 9)) : Prop where
  depth : F.depth = 3
  sep : Separated Entry.child s.mem F
  /-- Every table is a page of its own, but `pmap_create` does not look whether it got one. -/
  owned : ∀ r π q, F.Has r π → s.table r π = some q → q ≠ 0 ∧ s.Allocated q ∨ π = [] ∧ q = 0
  /-- There are no pages larger than the huge ones. -/
  upper : ∀ r π q i, F.Has r (π ++ [i]) → π.length < 2 → s.table r π = some q →
    (s.mem q i).huge = false

/-- A page in use that is not one of the tables. -/
structure Outside (s : PmState σ) (F : Shape Addr (BitVec 9)) (p : Addr) : Prop where
  ne_zero : p ≠ 0
  allocated : s.Allocated p
  not_table : ¬ s.IsTable F p

/-- What the functions guarantee: the tables form trees, the memory around them is as before, and
so are the entries of the top level that do not belong to the trees. -/
structure Step (F : Shape Addr (BitVec 9)) (s s' : PmState σ) : Prop where
  wf : s'.Wf F
  outside : ∀ p, s.Outside F p → s'.Outside F p ∧ s'.mem p = s.mem p ∧
    (.free p ∈ s'.trace → .free p ∈ s.trace)
  rest : ∀ r ∈ F.roots, ∀ i ∉ F.top, s'.mem r i = s.mem r i

variable {F : Shape Addr (BitVec 9)} {s s' s'' : PmState σ}

/-- Nothing has happened. -/
theorem Wf.refl (h : s.Wf F) : Step F s s :=
  ⟨h, fun _ hp => ⟨hp, rfl, id⟩, fun _ _ _ _ => rfl⟩

/-- One step after the other. -/
theorem Step.trans (h : Step F s s') (h' : Step F s' s'') : Step F s s'' where
  wf := h'.wf
  outside p hp := by
    obtain ⟨hp', hmem, hfree⟩ := h.outside p hp
    obtain ⟨hp'', hmem', hfree'⟩ := h'.outside p hp'
    exact ⟨hp'', hmem'.trans hmem, fun hf => hfree (hfree' hf)⟩
  rest r hr i hi := (h'.rest r hr i hi).trans (h.rest r hr i hi)

/-- A table on a tree is not `0` or it is the root. -/
theorem Wf.not_table (h : s.Wf F) {t : Addr} (hfree : ¬ s.Allocated t) (ht : t ≠ 0) :
    ¬ s.IsTable F t := by
  rintro ⟨r, π, hπ, hq⟩
  rcases h.owned r π t hπ hq with ⟨-, halloc⟩ | ⟨-, hzero⟩
  · exact hfree halloc
  · exact ht hzero

/-- Memory that agrees on the tables has the same trees. -/
theorem Wf.congr (h : s.Wf F) (hmem : ∀ q, s.IsTable F q → s'.mem q = s.mem q)
    (halloc : ∀ q, s.IsTable F q → q ≠ 0 → s.Allocated q → s'.Allocated q) : s'.Wf F := by
  have htable : ∀ r π, F.Has r π → s'.table r π = s.table r π :=
    fun r π hπ => node_congr hmem hπ
  refine ⟨h.depth, h.sep.of_le fun r π q hπ hq => ?_, fun r π q hπ hq => ?_,
    fun r π q i hπ hlen hq => ?_⟩
  · exact (htable r π hπ).symm.trans hq
  · rw [htable r π hπ] at hq
    rcases h.owned r π q hπ hq with ⟨hne, hold⟩ | hzero
    · exact Or.inl ⟨hne, halloc q ⟨r, π, hπ, hq⟩ hne hold⟩
    · exact Or.inr hzero
  · rw [htable r π hπ.of_append] at hq
    rw [hmem q ⟨r, π, hπ.of_append, hq⟩]
    exact h.upper r π q i hπ hlen hq

/-! ### What single stores do

A store to one entry of a table, and the two stores that come with an allocation or a release.
Everything later is put together from these. -/

omit [PageAllocator σ] [LawfulPageAllocator σ] in
/-- A store changes one entry. -/
@[simp]
theorem store_mem (s : PmState σ) (level : Level) (p : Addr) (i : BitVec 9) (v : Entry) :
    (s.store level p i v).mem = write s.mem p i v := rfl

omit [PageAllocator σ] [LawfulPageAllocator σ] in
/-- A store is not the allocator's business. -/
@[simp]
theorem store_pmm (s : PmState σ) (level : Level) (p : Addr) (i : BitVec 9) (v : Entry) :
    (s.store level p i v).pmm = s.pmm := rfl

omit [LawfulPageAllocator σ] in
/-- A release does not change memory. -/
@[simp]
theorem freePages_mem (s : PmState σ) (p : Addr) : (s.freePages p).mem = s.mem := rfl

omit [LawfulPageAllocator σ] in
/-- Nor does an allocation. -/
@[simp]
theorem allocPages_mem (s : PmState σ) : s.allocPages.2.mem = s.mem := rfl

/-- What is allocated is the address of a page, or `NULL`. -/
theorem allocPages_aligned (s : PmState σ) : s.allocPages.1 &&& pteAddrMask = s.allocPages.1 :=
  LawfulPageAllocator.alloc_aligned s.pmm

/-- Taking a page changes nothing. -/
theorem Wf.alloc (h : s.Wf F) : Step F s s.allocPages.2 where
  wf := h.congr (fun _ _ => rfl) fun q _ _ hq => LawfulPageAllocator.alloc_mono s.pmm q hq
  outside p hp := by
    refine ⟨⟨hp.ne_zero, LawfulPageAllocator.alloc_mono s.pmm p hp.allocated, hp.not_table⟩, rfl,
      ?_⟩
    simp [allocPages]
  rest _ _ _ _ := rfl

section Store

variable {r p : Addr} {π : List (BitVec 9)} {i : BitVec 9} {v : Entry} (h : s.Wf F)
  (hπ : F.Has r π) (hi : π = [] → i ∈ F.top) (hp : s.table r π = some p)

include h hπ hi hp

/-- A store to an entry of a tree leaves the other entries of the top level alone. -/
theorem Wf.write_rest {r' : Addr} (hr' : r' ∈ F.roots) {j : BitVec 9} (hj : j ∉ F.top) :
    write s.mem p i v r' j = s.mem r' j := by
  rw [write_apply, if_neg]
  rintro ⟨rfl, rfl⟩
  obtain ⟨-, hnil⟩ := h.sep r π r' [] r' hπ (Shape.has_nil hr') hp rfl
  exact hj (hi hnil)

/-- Storing an entry that links to nothing cuts off what was below. The table that the old entry
linked to may go back to the allocator. -/
theorem Wf.cut (hv : v.child = none ∨ π.length = F.depth)
    (hhuge : π.length < 2 → v.huge = false) {f : Option Addr}
    (hfreed : ∀ q ∈ f, F.Has r (π ++ [i]) ∧ s.table r (π ++ [i]) = some q)
    (hmem : s'.mem = write s.mem p i v)
    (halloc : ∀ q, s.Allocated q → q ∉ f → s'.Allocated q)
    (htrace : ∀ q, .free q ∈ s'.trace → .free q ∈ s.trace ∨ q ∈ f) : Step F s s' := by
  have htable : ∀ r' π', F.Has r' π' → s'.table r' π' =
      if Through r π i r' π' then none else s.table r' π' := by
    intro r' π' hπ'
    rw [table, hmem]
    exact node_write_none h.sep hπ hp hv hπ'
  -- what is left was there before, and is not the table given back
  have hleft : ∀ r' π' q, F.Has r' π' → s'.table r' π' = some q →
      s.table r' π' = some q ∧ q ∉ f := by
    intro r' π' q hπ' hq
    rw [htable r' π' hπ'] at hq
    split at hq
    · cases hq
    next hthrough =>
      refine ⟨hq, fun hf => hthrough ?_⟩
      obtain ⟨hf, hfreed⟩ := hfreed q hf
      obtain ⟨rfl, rfl⟩ := h.sep r' π' r (π ++ [i]) q hπ' hf hq hfreed
      exact ⟨rfl, List.prefix_refl _⟩
  refine ⟨⟨h.depth, ?_, fun r' π' q hπ' hq => ?_, fun r' π' q j hπ' hlen hq => ?_⟩,
    fun q hq => ?_, fun r' hr' j hj => ?_⟩
  · exact h.sep.of_le fun r' π' q hπ' hq => (hleft r' π' q hπ' hq).1
  · obtain ⟨hold, hnot⟩ := hleft r' π' q hπ' hq
    rcases h.owned r' π' q hπ' hold with ⟨hne, ha⟩ | hzero
    · exact Or.inl ⟨hne, halloc q ha hnot⟩
    · exact Or.inr hzero
  · obtain ⟨hold, -⟩ := hleft r' π' q hπ'.of_append hq
    rw [hmem, write_apply]
    split
    next heq =>
      obtain ⟨rfl, rfl⟩ := heq
      obtain ⟨rfl, rfl⟩ := h.sep r' π' r π q hπ'.of_append hπ hold hp
      exact hhuge hlen
    next => exact h.upper r' π' q j hπ' hlen hold
  · have hqp : q ≠ p := by
      rintro rfl
      exact hq.not_table ⟨r, π, hπ, hp⟩
    have hqf : q ∉ f := by
      intro hf
      obtain ⟨hf, hfreed⟩ := hfreed q hf
      exact hq.not_table ⟨r, _, hf, hfreed⟩
    refine ⟨⟨hq.ne_zero, halloc q hq.allocated hqf, ?_⟩, ?_, fun hf => ?_⟩
    · rintro ⟨r', π', hπ', hq'⟩
      exact hq.not_table ⟨r', π', hπ', (hleft r' π' q hπ' hq').1⟩
    · rw [hmem]
      funext j
      simp [write_apply, hqp]
    · exact (htrace q hf).resolve_right hqf
  · rw [hmem]
    exact h.write_rest hπ hi hp hr' hj

end Store

/-- The state after a new table has been allocated and cleared, and the entry `v` stored for it. -/
def linkedAs (s : PmState σ) (level : Level) (p : Addr) (i : BitVec 9) (v : Entry) : PmState σ :=
  (s.allocPages.2.clear s.allocPages.1).store level p i v

/-- The same for the entry of `pmap_map_page`. -/
abbrev linked (s : PmState σ) (level : Level) (p : Addr) (i : BitVec 9) : PmState σ :=
  s.linkedAs level p i (tableEntry s.allocPages.1)

section Link

variable {r p : Addr} {π : List (BitVec 9)} {i : BitVec 9} {level : Level} {v : Entry} (h : s.Wf F)
  (hπ : F.Has r π) (hi : π = [] → i ∈ F.top) (hp : s.table r π = some p)
  (ht : s.allocPages.1 ≠ 0)

include h ht

/-- A page that was just allocated is not a table yet. -/
theorem Wf.fresh_not_table : ¬ s.IsTable F s.allocPages.1 :=
  h.not_table (LawfulPageAllocator.alloc_fresh s.pmm ht) ht

/-- The new page is cleared before it is linked in. -/
theorem Wf.mem_cleared (q : Addr) (hq : s.IsTable F q) :
    (s.allocPages.2.clear s.allocPages.1).mem q = s.mem q := by
  have hne : q ≠ s.allocPages.1 := by
    rintro rfl
    exact h.fresh_not_table ht hq
  simp [clear, hne]

include hπ hp

/-- So it is not this one. -/
theorem Wf.fresh_ne : s.allocPages.1 ≠ p := by
  rintro heq
  exact h.fresh_not_table ht (heq ▸ ⟨r, π, hπ, hp⟩)

/-- The entries after a table has been linked in. -/
theorem Wf.linkedAs_mem (q : Addr) (j : BitVec 9) : (s.linkedAs level p i v).mem q j =
    if q = s.allocPages.1 then 0#64 else if q = p ∧ j = i then v else s.mem q j := by
  rw [linkedAs, store_mem, write_apply]
  by_cases hq : q = s.allocPages.1
  · simp [clear, hq, h.fresh_ne hπ hp ht]
  · simp [clear, hq]

variable (hv : v.child = some s.allocPages.1)

include hv

/-- The tables after one has been linked in. -/
theorem Wf.linkedAs_table {r' : Addr} {π' : List (BitVec 9)} (hπ' : F.Has r' π') :
    (s.linkedAs level p i v).table r' π' = if r' = r ∧ π' = π ++ [i] then some s.allocPages.1
      else if Through r π i r' π' then none else s.table r' π' := by
  have hcleared : ∀ r' π', F.Has r' π' →
      (s.allocPages.2.clear s.allocPages.1).table r' π' = s.table r' π' :=
    fun r' π' hπ' => node_congr (h.mem_cleared ht) hπ'
  have hsep : Separated Entry.child (s.allocPages.2.clear s.allocPages.1).mem F :=
    h.sep.of_le fun r' π' q hπ' hq => (hcleared r' π' hπ').symm.trans hq
  rw [← hcleared r' π' hπ']
  refine node_write_some hsep hπ ((hcleared r π hπ).trans hp)
    hv (h.fresh_ne hπ hp ht) (fun j => ?_) hπ'
  simp [clear, allocPages]

/-- What is on the trees after a table has been linked in. -/
theorem Wf.linkedAs_table_cases {r' : Addr} {π' : List (BitVec 9)} {q : Addr} (hπ' : F.Has r' π')
    (hq : (s.linkedAs level p i v).table r' π' = some q) :
    s.table r' π' = some q ∨ r' = r ∧ π' = π ++ [i] ∧ q = s.allocPages.1 := by
  rw [h.linkedAs_table hπ hp ht hv hπ'] at hq
  split at hq
  next heq => exact Or.inr ⟨heq.1, heq.2, (Option.some.inj hq).symm⟩
  next =>
    split at hq
    · cases hq
    · exact Or.inl hq

include hi

/-- Linking in a new table. -/
theorem Wf.link : Step F s (s.linkedAs level p i v) := by
  obtain ⟨-, hhuge, -⟩ := Entry.child_eq_some_iff.mp hv
  -- every table is an old one or the new one
  have hcases : ∀ r' π' q, F.Has r' π' → (s.linkedAs level p i v).table r' π' = some q →
      s.table r' π' = some q ∨ r' = r ∧ π' = π ++ [i] ∧ q = s.allocPages.1 :=
    fun _ _ _ hπ' hq => h.linkedAs_table_cases hπ hp ht hv hπ' hq
  have halloc : ∀ q, s.Allocated q → (s.linkedAs level p i v).Allocated q :=
    fun q hq => LawfulPageAllocator.alloc_mono s.pmm q hq
  have hfresh : (s.linkedAs level p i v).Allocated s.allocPages.1 :=
    LawfulPageAllocator.alloc_mem s.pmm ht
  refine ⟨⟨h.depth, ?_, fun r' π' q hπ' hq => ?_, fun r' π' q j hπ' hlen hq => ?_⟩,
    fun q hq => ?_, fun r' hr' j hj => ?_⟩
  · exact h.sep.insert (h.fresh_not_table ht) fun r' π' q hπ' hq => hcases r' π' q hπ' hq
  · rcases hcases r' π' q hπ' hq with hold | ⟨-, -, rfl⟩
    · rcases h.owned r' π' q hπ' hold with ⟨hne, ha⟩ | hzero
      · exact Or.inl ⟨hne, halloc q ha⟩
      · exact Or.inr hzero
    · exact Or.inl ⟨ht, hfresh⟩
  -- no entry above a page directory is huge: the new table is zero, and the entry that links it is
  -- none
  · rw [h.linkedAs_mem hπ hp ht]
    split
    next => exact Entry.huge_zero
    next hne =>
      split
      next => exact hhuge
      next =>
        rcases hcases r' π' q hπ'.of_append hq with hold | ⟨-, -, rfl⟩
        · exact h.upper r' π' q j hπ' hlen hold
        · exact absurd rfl hne
  -- a page outside of the trees is not the new one, which was free
  · have hqt : q ≠ s.allocPages.1 := by
      rintro rfl
      exact LawfulPageAllocator.alloc_fresh s.pmm ht hq.allocated
    have hqp : q ≠ p := by
      rintro rfl
      exact hq.not_table ⟨r, π, hπ, hp⟩
    refine ⟨⟨hq.ne_zero, halloc q hq.allocated, ?_⟩, ?_, ?_⟩
    · rintro ⟨r', π', hπ', hq'⟩
      rcases hcases r' π' q hπ' hq' with hold | ⟨-, -, heq⟩
      · exact hq.not_table ⟨r', π', hπ', hold⟩
      · exact hqt heq
    · funext j
      rw [h.linkedAs_mem hπ hp ht, if_neg hqt, if_neg (by simp [hqp])]
    · simp [linkedAs, store, clear, allocPages]
  · have hrt : r' ≠ s.allocPages.1 := by
      rintro rfl
      exact h.fresh_not_table ht ⟨_, [], Shape.has_nil hr', rfl⟩
    have := h.write_rest (v := v) hπ hi hp hr' hj
    rw [write_apply] at this
    rw [h.linkedAs_mem hπ hp ht, if_neg hrt, this]

end Link

/-! ### Moves

Each function of `pmap.c` is a sequence of moves: a refused allocation, a new table, an entry set,
an empty table dropped. What holds of one move holds of any number of them, so that no later proof
goes into the stores again. -/

/-- What the functions of `pmap.c` do to the trees is made of these. -/
inductive Move (F : Shape Addr (BitVec 9)) : PmState σ → PmState σ → Prop
  /-- `pmm_alloc_pages` returns `NULL`. -/
  | refuse {s : PmState σ} (ht : s.allocPages.1 = 0) : Move F s s.allocPages.2
  /-- A new table is linked in where there was nothing. -/
  | link {s : PmState σ} {r p : Addr} {π : List (BitVec 9)} {i : BitVec 9} (level : Level)
      (hπ : F.Has r (π ++ [i])) (hp : s.table r π = some p) (hnot : (s.mem p i).present = false)
      (ht : s.allocPages.1 ≠ 0) : Move F s (s.linked level p i)
  /-- An entry that maps a page, or none, takes the place of another. -/
  | set {s : PmState σ} {r p : Addr} {π : List (BitVec 9)} {i : BitVec 9} (level : Level)
      (v : Entry) (hπ : F.Has r π) (hi : π = [] → i ∈ F.top) (hp : s.table r π = some p)
      (hold : (s.mem p i).child = none ∨ π.length = F.depth)
      (hv : v.child = none ∨ π.length = F.depth) (hhuge : π.length < 2 → v.huge = false) :
      Move F s (s.store level p i v)
  /-- It takes the place of a table below which there is none, which goes back to the
  allocator. -/
  | drop {s : PmState σ} {r p q : Addr} {π : List (BitVec 9)} {i : BitVec 9} (level : Level)
      (v : Entry) (hπ : F.Has r (π ++ [i])) (hp : s.table r π = some p)
      (hq : (s.mem p i).child = some q)
      (hbelow : ∀ j, F.Has r (π ++ [i] ++ [j]) → (s.mem q j).child = none)
      (hv : v.child = none) (hhuge : π.length < 2 → v.huge = false) :
      Move F s ((s.freePages q).store level p i v)

/-- Any number of them. -/
abbrev Moves (F : Shape Addr (BitVec 9)) : PmState σ → PmState σ → Prop :=
  Relation.ReflTransGen (Move F)

omit [PageAllocator σ] [LawfulPageAllocator σ] in
/-- A path to an entry of a tree starts at one of its top entries. -/
theorem mem_top_of_has {r : Addr} {π : List (BitVec 9)} {i : BitVec 9} (hπ : F.Has r (π ++ [i])) :
    π = [] → i ∈ F.top := by
  rintro rfl
  exact hπ.2.2 i (by simp)

/-- Each move keeps the trees, and what is around them. -/
theorem Move.step (hmove : Move F s s') (h : s.Wf F) : Step F s s' := by
  cases hmove with
  | refuse _ => exact h.alloc
  -- a table linked where nothing was: the forest grows by one node
  | link level hπ hp _ ht =>
      exact h.link hπ.of_append (mem_top_of_has hπ) hp ht (child_tableEntry s.allocPages_aligned)
  | set level v hπ hi hp _ hv hhuge =>
      exact h.cut hπ hi hp hv hhuge (f := none) (by simp) rfl (fun _ hq _ => hq) (by simp [store])
  -- an empty table unlinked and freed: no other node reaches it
  | @drop _ _ q _ _ level v hπ hp hq _ hv hhuge =>
      refine h.cut (f := some q) hπ.of_append (mem_top_of_has hπ) hp (Or.inl hv) hhuge ?_ rfl
        (fun q' hq' hne => ?_) ?_
      · intro q' hq'
        obtain rfl := Option.some.inj hq'
        refine ⟨hπ, ?_⟩
        rw [table_snoc, hp]
        exact hq
      · exact LawfulPageAllocator.free_mono _ _ _ hq' (by simpa [eq_comm] using hne)
      · simp [store, freePages, eq_comm]

/-- So do several moves. -/
theorem Moves.step (hmoves : Moves F s s') (h : s.Wf F) : Step F s s' := by
  induction hmoves with
  | refl => exact h.refl
  | tail _ hmove ih => exact ih.trans (hmove.step ih.wf)

/-! ### What the tables say about an address

`leaf` is what the walk of the hardware finds. Two states with the same leaves translate alike,
whatever their tables are. -/

/-- The indices of an address, from the top. -/
def path (va : Addr) : List (BitVec 9) := [pml4Index va, pdptIndex va, pdIndex va, ptIndex va]

omit [PageAllocator σ] [LawfulPageAllocator σ] in
/-- The entry that maps an address. The rest of the path is empty for a normal page, and is the
index into it for a huge page. -/
def leaf (s : PmState σ) (r va : Addr) : Option (Entry × List (BitVec 9)) :=
  find Entry.child Entry.present s.mem r (path va)

omit [PageAllocator σ] [LawfulPageAllocator σ] in
/-- The tables say the same about all addresses. -/
def SameLeaves (F : Shape Addr (BitVec 9)) (s s' : PmState σ) : Prop :=
  ∀ r ∈ F.roots, ∀ va, pml4Index va ∈ F.top → s'.leaf r va = s.leaf r va

omit [PageAllocator σ] [LawfulPageAllocator σ] in
/-- One step after the other. -/
theorem SameLeaves.trans (h : SameLeaves F s s') (h' : SameLeaves F s' s'') :
    SameLeaves F s s'' :=
  fun r hr va hva => (h' r hr va hva).trans (h r hr va hva)

/-- The tables are there for every address of the trees, down to an entry without a link. -/
theorem Wf.covers (h : s.Wf F) {r va : Addr} (hr : r ∈ F.roots) (hva : pml4Index va ∈ F.top) :
    F.Covers r (path va) :=
  ⟨hr, by simp [path, h.depth], by simpa [path] using hva⟩

/-- What is found from an entry that is not present. -/
theorem findFrom_of_not_present {mem : Addr → BitVec 9 → Entry} {e : Entry}
    (he : e.present = false) (ρ : List (BitVec 9)) :
    findFrom Entry.child Entry.present mem e ρ = none := by
  have hchild := Entry.child_of_not_present he
  cases ρ <;> simp [findFrom, hchild, found, he]

section Leaves

variable {r p : Addr} {π : List (BitVec 9)} {i : BitVec 9} {v : Entry} {level : Level}
  (h : s.Wf F) (hπ : F.Has r π) (hp : s.table r π = some p)

include h hπ hp

/-- A store changes nothing for the addresses whose walks do not read the entry. -/
theorem Wf.leaf_store_of_not_through {r' va : Addr} (hr' : r' ∈ F.roots)
    (hva : pml4Index va ∈ F.top) (hthrough : ¬ Through r π i r' (path va)) :
    (s.store level p i v).leaf r' va = s.leaf r' va :=
  find_write_of_not_through h.sep hπ hp (h.covers hr' hva) hthrough

/-- A walk that reads the entry goes on from the new one. -/
theorem Wf.leaf_store_of_through {va : Addr} {ρ : List (BitVec 9)} (hpath : path va = π ++ i :: ρ) :
    (s.store level p i v).leaf r va =
      findFrom Entry.child Entry.present (s.store level p i v).mem v ρ := by
  rw [leaf, hpath]
  exact find_write_through h.sep hπ hp ρ

/-- A new table says nothing about any address. -/
theorem Wf.sameLeaves_linkedAs (hlen : π.length < 3) (ht : s.allocPages.1 ≠ 0)
    (hv : v.child = some s.allocPages.1) (hnot : (s.mem p i).present = false) :
    SameLeaves F s (s.linkedAs level p i v) := by
  have hcleared : (s.allocPages.2.clear s.allocPages.1).Wf F :=
    h.congr (h.mem_cleared ht) fun q _ _ hq => LawfulPageAllocator.alloc_mono s.pmm q hq
  have hp' : (s.allocPages.2.clear s.allocPages.1).table r π = some p :=
    (node_congr (h.mem_cleared ht) hπ).trans hp
  intro r' hr' va hva
  by_cases hthrough : Through r π i r' (path va)
  · obtain ⟨rfl, ρ, hρ⟩ := hthrough
    have hpath : path va = π ++ i :: ρ := by rw [← hρ]; simp
    have hnone : s.leaf r' va = none := by
      rw [leaf, hpath, find_append hp, findFrom_of_not_present hnot]
    rw [hnone, linkedAs, hcleared.leaf_store_of_through hπ hp' hpath]
    -- the walk goes on in the new table, which is empty
    cases ρ with
    | nil =>
        have := congrArg List.length hpath
        simp [path] at this
        omega
    | cons j ρ =>
        have hj : ((s.linkedAs level p i v).mem s.allocPages.1 j).present = false := by
          rw [h.linkedAs_mem hπ hp ht, if_pos rfl]
          exact Entry.present_zero
        simp only [findFrom, hv]
        rw [find_cons]
        exact findFrom_of_not_present hj ρ
  · rw [linkedAs, hcleared.leaf_store_of_not_through hπ hp' hr' hva hthrough]
    exact find_congr (h.mem_cleared ht) (h.covers hr' hva)

end Leaves

/-! ### Going down one level

The table is there, or it is made, or there is no page for it; the leaves are the same in all three
cases. -/

omit [LawfulPageAllocator σ] in
/-- The three ways in which the next table is found, not made, or made. -/
theorem nextTable_eq (level : Level) (p : Addr) (i : BitVec 9) : s.nextTable level p i =
    if (s.mem p i).present then (some (s.mem p i).addr, s)
    else if s.allocPages.1 = 0 then (none, s.allocPages.2)
    else (some ((s.linked level p i).mem p i).addr, s.linked level p i) := rfl

/-- One level down in `pmap_map_page`, in a tree without huge pages on the way. -/
theorem Wf.nextTable (h : s.Wf F) {r p : Addr} {π : List (BitVec 9)} {i : BitVec 9}
    (level : Level) (hπ : F.Has r (π ++ [i])) (hp : s.table r π = some p)
    (hhuge : (s.mem p i).present = true → (s.mem p i).huge = false) :
    ∃ t s', s.nextTable level p i = (t, s') ∧ Moves F s s' ∧ SameLeaves F s s' ∧
      ∀ q ∈ t, s'.table r (π ++ [i]) = some q := by
  have hlen : π.length < 3 := by
    have := hπ.2.1
    rw [h.depth, List.length_append, List.length_singleton] at this
    omega
  have hπ' := hπ.of_append
  rw [nextTable_eq]
  cases hpresent : (s.mem p i).present with
  | true =>
      -- the table that is there is returned
      refine ⟨_, _, rfl, .refl, fun _ _ _ _ => rfl, fun q hq => ?_⟩
      obtain rfl := Option.some.inj hq
      rw [table_snoc, hp]
      exact Entry.child_eq_some hpresent (hhuge hpresent)
  | false =>
      -- a new table is linked, unless no page is left
      by_cases ht : s.allocPages.1 = 0
      · rw [if_pos ht]
        exact ⟨_, _, rfl, .single (.refuse ht), fun _ _ _ _ => rfl, by simp⟩
      · rw [if_neg ht]
        refine ⟨_, _, rfl, .single (.link level hπ hp hpresent ht),
          h.sameLeaves_linkedAs hπ' hp hlen ht (child_tableEntry s.allocPages_aligned) hpresent,
          fun q hq => ?_⟩
        have hmem : (s.linked level p i).mem p i = tableEntry s.allocPages.1 := by
          rw [h.linkedAs_mem hπ' hp ht, if_neg (h.fresh_ne hπ' hp ht).symm, if_pos ⟨rfl, rfl⟩]
        obtain rfl := Option.some.inj hq
        rw [h.linkedAs_table hπ' hp ht (child_tableEntry s.allocPages_aligned) hπ,
          if_pos ⟨rfl, rfl⟩, hmem, addr_tableEntry s.allocPages_aligned]

/-! ### Mapping a page

The address gets its leaf, the others of the tree keep theirs; where the page is huge, all addresses
of the 2 MiB get it. -/

section MapPage

variable {r va : Addr} (h : s.Wf F) (hr : r ∈ F.roots) (hva : pml4Index va ∈ F.top)

include h hr hva

/-- The path of an address is one of the trees, without its last entry. -/
theorem Wf.has_path (π : List (BitVec 9)) (hπ : ∃ ρ, path va = π ++ ρ ∧ ρ ≠ []) : F.Has r π := by
  obtain ⟨ρ, hpath, hne⟩ := hπ
  cases ρ with
  | nil => exact absurd rfl hne
  | cons i ρ => exact (hpath ▸ h.covers hr hva).has

/-- The first two levels of `pmap_map_page`. -/
theorem Wf.mapPage_pd : ∃ pd s₂, Moves F s s₂ ∧ SameLeaves F s s₂ ∧
    (∀ q ∈ pd, s₂.table r [pml4Index va, pdptIndex va] = some q) ∧ ∀ pa flags,
    s.pmapMapPage r va pa flags = match pd with
      | none => (false, s₂)
      | some pd => if hasProt flags protHuge then (true, s₂.mapHuge pd va pa flags) else
          match s₂.nextTable .pd pd (pdIndex va) with
          | (none, s₃) => (false, s₃)
          | (some pt, s₃) => (true, s₃.store .pt pt (ptIndex va) (pageEntry pa flags)) := by
  have hπ₁ : F.Has r ([] ++ [pml4Index va]) := h.has_path hr hva _ ⟨_, rfl, by simp⟩
  obtain ⟨t₁, s₁, heq₁, hmoves₁, hsame₁, ht₁⟩ := h.nextTable .pml4 hπ₁ rfl
    fun _ => h.upper r [] r _ hπ₁ (by simp) rfl
  -- either the first `next_table` fails, or the second starts from a state with the same leaves
  cases t₁ with
  | none =>
      exact ⟨none, s₁, hmoves₁, hsame₁, by simp, fun pa flags => by rw [pmapMapPage, heq₁]⟩
  | some pdpt =>
      have hwf₁ := (hmoves₁.step h).wf
      have hpdpt := ht₁ pdpt rfl
      have hπ₂ : F.Has r ([pml4Index va] ++ [pdptIndex va]) :=
        h.has_path hr hva _ ⟨_, rfl, by simp⟩
      obtain ⟨t₂, s₂, heq₂, hmoves₂, hsame₂, ht₂⟩ := hwf₁.nextTable .pdpt hπ₂ hpdpt
        fun _ => hwf₁.upper r _ pdpt _ hπ₂ (by simp) hpdpt
      refine ⟨t₂, s₂, hmoves₁.trans hmoves₂, hsame₁.trans hsame₂, ht₂, fun pa flags => ?_⟩
      rw [pmapMapPage, heq₁]
      simp only [heq₂]
      cases t₂ <;> rfl

/-- `pmap_map_page` for a normal page, where no huge page is mapped. -/
theorem Wf.mapPage {flags : BitVec 32} (hflags : hasProt flags protHuge = false)
    (hnot : ∀ e ρ, s.leaf r va = some (e, ρ) → ρ = []) (pa : Addr) :
    ∃ ok s', s.pmapMapPage r va pa flags = (ok, s') ∧ Moves F s s' ∧
      (ok = false → SameLeaves F s s') ∧
      (ok = true → ∀ r' ∈ F.roots, ∀ va', pml4Index va' ∈ F.top → s'.leaf r' va' =
        if r' = r ∧ path va' = path va then some (pageEntry pa flags, []) else s.leaf r' va') := by
  obtain ⟨t₂, s₂, hmoves₂, hsame₂, hpd, heq⟩ := h.mapPage_pd hr hva
  have hwf₂ := (hmoves₂.step h).wf
  rw [heq]
  cases t₂ with
  | none => exact ⟨_, _, rfl, hmoves₂, fun _ => hsame₂, by simp⟩
  | some pd =>
      have hpd := hpd pd rfl
      have hπ₃ : F.Has r ([pml4Index va, pdptIndex va] ++ [pdIndex va]) :=
        h.has_path hr hva _ ⟨_, rfl, by simp⟩
      obtain ⟨t₃, s₃, heq₃, hmoves₃, hsame₃, hpt⟩ := hwf₂.nextTable .pd hπ₃ hpd (by
        -- a huge page here would have been found
        intro hpresent
        by_contra hhuge
        rw [Bool.not_eq_false] at hhuge
        have hfound : s₂.leaf r va = some (s₂.mem pd (pdIndex va), [ptIndex va]) := by
          unfold leaf
          apply (find_append hpd (pdIndex va) [ptIndex va]).trans
          simp [findFrom, found, Entry.child_of_huge hhuge, hpresent]
        rw [hsame₂ r hr va hva] at hfound
        have := hnot _ _ hfound
        simp at this)
      simp only [hflags, heq₃]
      cases t₃ with
      | none =>
          exact ⟨_, _, rfl, hmoves₂.trans hmoves₃, fun _ => hsame₂.trans hsame₃, by simp⟩
      | some pt =>
          have hwf₃ := (hmoves₃.step hwf₂).wf
          have hpt := hpt pt rfl
          have hlen : [pml4Index va, pdptIndex va, pdIndex va].length = F.depth := by
            rw [h.depth]
            rfl
          refine ⟨_, _, rfl, (hmoves₂.trans hmoves₃).tail ?_, by simp, fun _ r' hr' va' hva' => ?_⟩
          · exact .set .pt _ hπ₃ (by simp) hpt (Or.inr hlen) (Or.inr hlen) (by simp)
          · rw [← hsame₂ r' hr' va' hva', ← hsame₃ r' hr' va' hva']
            by_cases hthrough : r' = r ∧ path va' = path va
            · obtain ⟨rfl, hpath⟩ := hthrough
              rw [if_pos ⟨rfl, hpath⟩, hwf₃.leaf_store_of_through hπ₃ hpt hpath]
              simp [findFrom, found, present_pageEntry]
            · rw [if_neg hthrough]
              apply hwf₃.leaf_store_of_not_through hπ₃ hpt hr' hva'
              intro hthrough'
              exact hthrough ⟨hthrough'.1, (hthrough'.2.eq_of_length rfl).symm⟩

/-- `pmap_map_page` for a huge page. -/
theorem Wf.mapPage_huge {flags : BitVec 32} (hflags : hasProt flags protHuge = true) (pa : Addr) :
    ∃ ok s', s.pmapMapPage r va pa flags = (ok, s') ∧ Moves F s s' ∧
      (ok = false → SameLeaves F s s') ∧
      (ok = true → ∀ r' ∈ F.roots, ∀ va', pml4Index va' ∈ F.top → s'.leaf r' va' =
        if r' = r ∧ (path va').take 3 = (path va).take 3 then
          some (hugeEntry pa flags, [ptIndex va']) else s.leaf r' va') := by
  obtain ⟨t₂, s₂, hmoves₂, hsame₂, hpd, heq⟩ := h.mapPage_pd hr hva
  have hwf₂ := (hmoves₂.step h).wf
  rw [heq]
  cases t₂ with
  | none => exact ⟨_, _, rfl, hmoves₂, fun _ => hsame₂, by simp⟩
  | some pd =>
      have hpd := hpd pd rfl
      have hπ₂ : F.Has r [pml4Index va, pdptIndex va] := h.has_path hr hva _ ⟨_, rfl, by simp⟩
      have hπ₃ : F.Has r ([pml4Index va, pdptIndex va] ++ [pdIndex va]) :=
        h.has_path hr hva _ ⟨_, rfl, by simp⟩
      simp only [hflags, if_true]
      refine ⟨_, _, rfl, hmoves₂.tail ?_, by simp, fun _ r' hr' va' hva' => ?_⟩
      · rw [mapHuge]
        split
        next hold =>
          have hchild : (s₂.mem pd (pdIndex va)).child = some (s₂.mem pd (pdIndex va)).addr :=
            Entry.child_eq_some hold.1 (by simpa using hold.2)
          refine .drop .pd _ hπ₃ hpd hchild (fun j hj => ?_) (child_hugeEntry pa flags) (by simp)
          have := hj.2.1
          simp [h.depth] at this
        next hold =>
          refine .set .pd _ hπ₂ (by simp) hpd (Or.inl ?_) (Or.inl (child_hugeEntry pa flags))
            (by simp)
          simpa [Entry.child] using hold
      · -- the table that is given back is not read any more
        have hmem : (s₂.mapHuge pd va pa flags).leaf r' va' =
            (s₂.store .pd pd (pdIndex va) (hugeEntry pa flags)).leaf r' va' := by
          rw [mapHuge]
          split <;> rfl
        rw [hmem, ← hsame₂ r' hr' va' hva']
        by_cases hthrough : r' = r ∧ (path va').take 3 = (path va).take 3
        · obtain ⟨rfl, hpath⟩ := hthrough
          have hpath' : path va' = [pml4Index va, pdptIndex va] ++ pdIndex va :: [ptIndex va'] := by
            rw [← List.take_append_drop 3 (path va'), hpath]
            rfl
          rw [if_pos ⟨rfl, hpath⟩, hwf₂.leaf_store_of_through hπ₂ hpd hpath']
          simp [findFrom, found, child_hugeEntry, present_hugeEntry]
        · rw [if_neg hthrough]
          refine hwf₂.leaf_store_of_not_through hπ₂ hpd hr' hva' fun hthrough' => hthrough ?_
          exact ⟨hthrough'.1, (List.prefix_iff_eq_take.mp hthrough'.2).symm⟩

end MapPage

/-! ### Unmapping a page

The entry is cleared and the empty tables are dropped one by one. Dropping a table changes no leaf,
because it links to nothing. -/

omit [PageAllocator σ] [LawfulPageAllocator σ] in
/-- The loop looks at all entries. -/
theorem isTableEmpty_iff (q : Addr) :
    s.isTableEmpty q = true ↔ ∀ i, (s.mem q i).present = false := by
  rw [isTableEmpty, List.all_eq_true]
  constructor
  · intro h i
    have hlt : i.toNat < 512 := by omega
    have := h i.toNat (List.mem_range.mpr hlt)
    rwa [BitVec.ofNat_toNat, BitVec.setWidth_eq, Bool.not_eq_true'] at this
  · intro h i _
    rw [h, Bool.not_false]

/-- Giving back an empty table. -/
theorem Wf.prune (h : s.Wf F) {r p q : Addr} {π : List (BitVec 9)} {i : BitVec 9} (level : Level)
    (hπ : F.Has r (π ++ [i])) (hp : s.table r π = some p) (hq : s.table r (π ++ [i]) = some q)
    (hempty : s.isTableEmpty q = true) :
    Move F s ((s.freePages (s.mem p i).addr).store level p i 0#64) ∧
      SameLeaves F s ((s.freePages (s.mem p i).addr).store level p i 0#64) ∧
      ∀ π', F.Has r π' → π'.length ≤ π.length →
        ((s.freePages (s.mem p i).addr).store level p i 0#64).table r π' = s.table r π' := by
  have hchild : (s.mem p i).child = some q := by
    rw [table_snoc, hp] at hq
    exact hq
  obtain ⟨-, -, haddr⟩ := Entry.child_eq_some_iff.mp hchild
  have hlen : π.length < 3 := by
    have := hπ.2.1
    rw [h.depth, List.length_append, List.length_singleton] at this
    omega
  refine ⟨?_, fun r' hr' va hva => ?_, fun π' hπ' hshort => ?_⟩
  -- the table is empty, so nothing hangs below it
  · rw [haddr]
    refine .drop level _ hπ hp hchild (fun j _ => ?_) Entry.child_zero (fun _ => Entry.huge_zero)
    exact Entry.child_of_not_present ((isTableEmpty_iff q).mp hempty j)
  · change (s.store level p i 0#64).leaf r' va = s.leaf r' va
    -- addresses below the entry had no leaf, since the table was empty
    by_cases hthrough : Through r π i r' (path va)
    · obtain ⟨rfl, ρ, hρ⟩ := hthrough
      have hpath : path va = π ++ i :: ρ := by rw [← hρ]; simp
      rw [h.leaf_store_of_through hπ.of_append hp hpath,
        findFrom_of_not_present Entry.present_zero, leaf, hpath, find_append hp]
      cases ρ with
      | nil =>
          have := congrArg List.length hpath
          simp [path] at this
          omega
      | cons j ρ =>
          simp only [findFrom, hchild]
          rw [find_cons]
          exact (findFrom_of_not_present ((isTableEmpty_iff q).mp hempty j) ρ).symm
    · exact h.leaf_store_of_not_through hπ.of_append hp hr' hva hthrough
  · apply node_write_of_not_through h.sep hπ.of_append hp hπ'
    rintro ⟨-, hprefix⟩
    have := hprefix.length_le
    rw [List.length_append, List.length_singleton] at this
    omega

/-- The end of `pmap_unmap_page`. -/
theorem Wf.teardown (h : s.Wf F) {r pdpt pd pt : Addr} {l4 l3 l2 : BitVec 9}
    (hπ : F.Has r [l4, l3, l2]) (hpdpt : s.table r [l4] = some pdpt)
    (hpd : s.table r [l4, l3] = some pd) (hpt : s.table r [l4, l3, l2] = some pt) :
    Moves F s (s.teardown r pdpt pd pt l4 l3 l2) ∧
      SameLeaves F s (s.teardown r pdpt pd pt l4 l3 l2) := by
  have hπ₂ : F.Has r [l4, l3] := Shape.Has.of_append (π := [l4, l3]) hπ
  have hπ₁ : F.Has r [l4] := Shape.Has.of_append (π := [l4]) hπ₂
  rw [PmState.teardown]
  -- the page table goes when it is empty, then the directory, then the table above it
  split
  next hempty =>
    obtain ⟨hmove₁, hsame₁, htable₁⟩ := h.prune .pd hπ hpd hpt hempty
    have hwf₁ := (hmove₁.step h).wf
    dsimp only
    split
    next hempty₁ =>
      obtain ⟨hmove₂, hsame₂, htable₂⟩ := hwf₁.prune .pdpt (π := [l4]) (i := l3)
        hπ₂ ((htable₁ [l4] hπ₁ (by simp)).trans hpdpt) ((htable₁ [l4, l3] hπ₂ (by simp)).trans hpd)
        hempty₁
      split
      next hempty₂ =>
        obtain ⟨hmove₃, hsame₃, -⟩ := (hmove₂.step hwf₁).wf.prune .pml4 (π := []) (i := l4) hπ₁ rfl
          (((htable₂ [l4] hπ₁ (by simp)).trans (htable₁ [l4] hπ₁ (by simp))).trans hpdpt) hempty₂
        exact ⟨((Relation.ReflTransGen.single hmove₁).tail hmove₂).tail hmove₃,
          (hsame₁.trans hsame₂).trans hsame₃⟩
      next => exact ⟨(Relation.ReflTransGen.single hmove₁).tail hmove₂, hsame₁.trans hsame₂⟩
    next => exact ⟨.single hmove₁, hsame₁⟩
  next => exact ⟨.refl, fun _ _ _ _ => rfl⟩

/-! ### Walks

The walks of `pmap_extract` and of `pmap_unmap_page` in terms of the leaf. -/

omit [PageAllocator σ] [LawfulPageAllocator σ] in
/-- What an address is mapped to is found from any table on its path. -/
theorem leaf_of_table {r p va : Addr} {π ρ : List (BitVec 9)} {i : BitVec 9}
    (hp : s.table r π = some p) (hpath : path va = π ++ i :: ρ) :
    s.leaf r va = findFrom Entry.child Entry.present s.mem (s.mem p i) ρ := by
  rw [leaf, hpath, find_append hp]

section Walk

variable {r va : Addr} (h : s.Wf F) (hr : r ∈ F.roots) (hva : pml4Index va ∈ F.top)

include h hr hva

/-- The three ways the walk of an address can end, and what `pmap_extract` and `pmap_unmap_page` do
in each. -/
theorem Wf.walk_cases :
    (s.leaf r va = none ∧ s.pmapExtract r va = 0 ∧ s.pmapUnmapPage r va = (pageSize, s)) ∨
    (∃ pd, s.table r [pml4Index va, pdptIndex va] = some pd ∧
      (s.mem pd (pdIndex va)).huge = true ∧
      s.leaf r va = some (s.mem pd (pdIndex va), [ptIndex va]) ∧
      s.pmapExtract r va = (s.mem pd (pdIndex va) &&& pdAddrMask) + (va &&& 0x1FFFFF#64) ∧
      s.pmapUnmapPage r va = (pageSizeHuge, s.store .pd pd (pdIndex va) 0#64)) ∨
    (∃ pdpt pd pt, s.table r [pml4Index va] = some pdpt ∧
      s.table r [pml4Index va, pdptIndex va] = some pd ∧
      s.table r [pml4Index va, pdptIndex va, pdIndex va] = some pt ∧
      s.leaf r va = some (s.mem pt (ptIndex va), []) ∧
      s.pmapExtract r va = (s.mem pt (ptIndex va) &&& pteAddrMask) + (va &&& 0xFFF#64) ∧
      s.pmapUnmapPage r va = (pageSize, (s.store .pt pt (ptIndex va) 0#64).teardown r pdpt pd pt
        (pml4Index va) (pdptIndex va) (pdIndex va))) := by
  -- Level by level: an entry that is not present ends the walk, one that is present leads to the
  -- next table.
  have hhuge₄ := h.upper r [] r (pml4Index va) (h.has_path hr hva _ ⟨_, rfl, by simp⟩) (by simp) rfl
  by_cases hpresent₄ : (s.mem r (pml4Index va)).present = true
  swap
  · left
    rw [Bool.not_eq_true] at hpresent₄
    refine ⟨?_, by simp [pmapExtract, hpresent₄], by simp [pmapUnmapPage, hpresent₄]⟩
    exact (leaf_of_table (π := []) rfl rfl).trans (findFrom_of_not_present hpresent₄ _)
  obtain ⟨pdpt, haddr₄⟩ : ∃ pdpt, (s.mem r (pml4Index va)).addr = pdpt := ⟨_, rfl⟩
  have hpdpt : s.table r [pml4Index va] = some pdpt :=
    (s.table_snoc r [] _).trans (haddr₄ ▸ Entry.child_eq_some hpresent₄ hhuge₄)
  have hhuge₃ := h.upper r [pml4Index va] pdpt (pdptIndex va)
    (h.has_path hr hva _ ⟨_, rfl, by simp⟩) (by simp) hpdpt
  by_cases hpresent₃ : (s.mem pdpt (pdptIndex va)).present = true
  swap
  · left
    rw [Bool.not_eq_true] at hpresent₃
    refine ⟨?_, by simp [pmapExtract, hpresent₄, haddr₄, hpresent₃],
      by simp [pmapUnmapPage, hpresent₄, haddr₄, hpresent₃]⟩
    exact (leaf_of_table hpdpt rfl).trans (findFrom_of_not_present hpresent₃ _)
  obtain ⟨pd, haddr₃⟩ : ∃ pd, (s.mem pdpt (pdptIndex va)).addr = pd := ⟨_, rfl⟩
  have hpd : s.table r [pml4Index va, pdptIndex va] = some pd := by
    apply (s.table_snoc r [pml4Index va] _).trans
    rw [hpdpt, ← haddr₃]
    exact Entry.child_eq_some hpresent₃ hhuge₃
  by_cases hpresent₂ : (s.mem pd (pdIndex va)).present = true
  swap
  · left
    rw [Bool.not_eq_true] at hpresent₂
    refine ⟨?_, by simp [pmapExtract, hpresent₄, haddr₄, hpresent₃, haddr₃, hpresent₂],
      by simp [pmapUnmapPage, hpresent₄, haddr₄, hpresent₃, hhuge₃, haddr₃, hpresent₂]⟩
    exact (leaf_of_table hpd rfl).trans (findFrom_of_not_present hpresent₂ _)
  -- only in a page directory can an entry map a huge page
  by_cases hhuge₂ : (s.mem pd (pdIndex va)).huge = true
  · right
    left
    refine ⟨pd, hpd, hhuge₂, ?_,
      by simp [pmapExtract, hpresent₄, haddr₄, hpresent₃, haddr₃, hpresent₂, hhuge₂],
      by simp [pmapUnmapPage, hpresent₄, haddr₄, hpresent₃, hhuge₃, haddr₃, hpresent₂, hhuge₂]⟩
    apply (leaf_of_table hpd rfl).trans
    simp [findFrom, found, Entry.child_of_huge hhuge₂, hpresent₂]
  rw [Bool.not_eq_true] at hhuge₂
  obtain ⟨pt, haddr₂⟩ : ∃ pt, (s.mem pd (pdIndex va)).addr = pt := ⟨_, rfl⟩
  have hpt : s.table r [pml4Index va, pdptIndex va, pdIndex va] = some pt := by
    apply (s.table_snoc r [pml4Index va, pdptIndex va] _).trans
    rw [hpd, ← haddr₂]
    exact Entry.child_eq_some hpresent₂ hhuge₂
  by_cases hpresent₁ : (s.mem pt (ptIndex va)).present = true
  · right
    right
    refine ⟨pdpt, pd, pt, hpdpt, hpd, hpt, ?_, by simp [pmapExtract, hpresent₄, haddr₄, hpresent₃,
      haddr₃, hpresent₂, hhuge₂, haddr₂, hpresent₁], by simp [pmapUnmapPage, hpresent₄, haddr₄,
      hpresent₃, hhuge₃, haddr₃, hpresent₂, hhuge₂, haddr₂, hpresent₁]⟩
    apply (leaf_of_table hpt rfl).trans
    simp [findFrom, found, hpresent₁]
  · left
    rw [Bool.not_eq_true] at hpresent₁
    refine ⟨?_, by simp [pmapExtract, hpresent₄, haddr₄, hpresent₃, haddr₃, hpresent₂, hhuge₂,
      haddr₂, hpresent₁], by simp [pmapUnmapPage, hpresent₄, haddr₄, hpresent₃, hhuge₃, haddr₃,
      hpresent₂, hhuge₂, haddr₂, hpresent₁]⟩
    exact (leaf_of_table hpt rfl).trans (findFrom_of_not_present hpresent₁ _)

/-- `pmap_extract` reads off the entry that maps the address. -/
theorem Wf.extract_eq : s.pmapExtract r va = match s.leaf r va with
    | none => 0
    | some (e, []) => (e &&& pteAddrMask) + (va &&& 0xFFF#64)
    | some (e, _ :: _) => (e &&& pdAddrMask) + (va &&& 0x1FFFFF#64) := by
  rcases h.walk_cases hr hva with ⟨hleaf, hextract, -⟩ | ⟨pd, -, -, hleaf, hextract, -⟩ |
    ⟨pdpt, pd, pt, -, -, -, hleaf, hextract, -⟩
  · rw [hleaf, hextract]
  · rw [hleaf, hextract]
  · rw [hleaf, hextract]

/-- `pmap_unmap_page`. -/
theorem Wf.unmapPage : ∃ advance s', s.pmapUnmapPage r va = (advance, s') ∧ Moves F s s' ∧
    (advance = pageSize ∨ advance = pageSizeHuge) ∧
    ((∀ e ρ, s.leaf r va = some (e, ρ) → ρ = []) → advance = pageSize ∧
      ∀ r' ∈ F.roots, ∀ va', pml4Index va' ∈ F.top → s'.leaf r' va' =
        if r' = r ∧ path va' = path va then none else s.leaf r' va') := by
  rcases h.walk_cases hr hva with ⟨hleaf, -, heq⟩ | ⟨pd, hpd, hhuge, hleaf, -, heq⟩ |
    ⟨pdpt, pd, pt, hpdpt, hpd, hpt, hleaf, -, heq⟩
  · refine ⟨_, _, heq, .refl, Or.inl rfl, fun _ => ⟨rfl, fun r' _ va' _ => ?_⟩⟩
    split
    next hsame => rw [hsame.1, leaf, hsame.2, ← hleaf, leaf]
    next => rfl
  · have hπ₂ : F.Has r [pml4Index va, pdptIndex va] := h.has_path hr hva _ ⟨_, rfl, by simp⟩
    refine ⟨_, _, heq, ?_, Or.inr rfl, fun hnot => ?_⟩
    · exact .single (.set .pd _ hπ₂ (by simp) hpd (Or.inl (Entry.child_of_huge hhuge))
        (Or.inl Entry.child_zero) (fun _ => Entry.huge_zero))
    · have := hnot _ _ hleaf
      simp at this
  · have hπ₃ : F.Has r [pml4Index va, pdptIndex va, pdIndex va] :=
      h.has_path hr hva _ ⟨_, rfl, by simp⟩
    have hπ₂ : F.Has r [pml4Index va, pdptIndex va] := h.has_path hr hva _ ⟨_, rfl, by simp⟩
    have hπ₁ : F.Has r [pml4Index va] := h.has_path hr hva _ ⟨_, rfl, by simp⟩
    have hlen : [pml4Index va, pdptIndex va, pdIndex va].length = F.depth := by
      rw [h.depth]
      rfl
    have hmove : Move F s (s.store .pt pt (ptIndex va) 0#64) :=
      .set .pt _ hπ₃ (by simp) hpt (Or.inr hlen) (Or.inr hlen) (by simp)
    -- the store of a leaf changes none of the tables
    have htable : ∀ π, F.Has r π → (s.store .pt pt (ptIndex va) 0#64).table r π = s.table r π := by
      intro π hπ
      apply node_write_of_not_through h.sep hπ₃ hpt hπ
      rintro ⟨-, hprefix⟩
      have := hprefix.length_le
      have := hπ.2.1
      simp [h.depth] at *
      omega
    obtain ⟨hmoves, hsame⟩ := (hmove.step h).wf.teardown hπ₃ ((htable _ hπ₁).trans hpdpt)
      ((htable _ hπ₂).trans hpd) ((htable _ hπ₃).trans hpt)
    refine ⟨_, _, heq, hmoves.head hmove, Or.inl rfl, fun _ => ⟨rfl, fun r' hr' va' hva' => ?_⟩⟩
    rw [hsame r' hr' va' hva']
    by_cases hthrough : r' = r ∧ path va' = path va
    · obtain ⟨rfl, hpath⟩ := hthrough
      rw [if_pos ⟨rfl, hpath⟩, h.leaf_store_of_through hπ₃ hpt hpath]
      exact findFrom_of_not_present Entry.present_zero _
    · rw [if_neg hthrough]
      apply h.leaf_store_of_not_through hπ₃ hpt hr' hva'
      intro hthrough'
      exact hthrough ⟨hthrough'.1, (hthrough'.2.eq_of_length rfl).symm⟩

end Walk

/-! ### A new address space

A root whose lower half is zero, added to the trees that are there. -/

section Create

variable {roots : Set Addr} (h : s.Wf (forest roots userTop)) (kernelRoot : Addr)

omit [LawfulPageAllocator σ] in
/-- The new root has the entries of the kernel half, and all others are zero. -/
theorem pmapCreate_mem (s : PmState σ) (kernelRoot q : Addr) (i : BitVec 9) :
    (s.pmapCreate kernelRoot).2.mem q i = if q = s.allocPages.1 then
      if 256#9 ≤ i ∧ kernelRoot ≠ s.allocPages.1 then s.mem kernelRoot i else 0#64
    else s.mem q i := by
  by_cases hq : q = s.allocPages.1
  · by_cases hk : kernelRoot = s.allocPages.1 <;> by_cases hi : 256#9 ≤ i <;>
      simp [pmapCreate, copyUpper, clear, hq, hk, hi]
  · simp [pmapCreate, copyUpper, clear, hq]

omit [LawfulPageAllocator σ] in
/-- `pmap_create` changes no other page. -/
theorem pmapCreate_mem_of_ne {q : Addr} (hq : q ≠ s.allocPages.1) :
    (s.pmapCreate kernelRoot).2.mem q = s.mem q := by
  funext i
  rw [pmapCreate_mem, if_neg hq]

omit [LawfulPageAllocator σ] in
/-- The user half of a new address space is empty. -/
theorem pmapCreate_mem_user {i : BitVec 9} (hi : i ∈ userTop) :
    (s.pmapCreate kernelRoot).2.mem s.allocPages.1 i = 0#64 := by
  rw [pmapCreate_mem, if_pos rfl, if_neg]
  rintro ⟨hle, -⟩
  exact BitVec.not_lt.mpr hle hi

include h

/-- The tables are the new root and those of before, but for a root it has taken the place of. -/
theorem Wf.create_table_cases {r : Addr} {π : List (BitVec 9)} {q : Addr}
    (hπ : (forest (insert s.allocPages.1 roots) userTop).Has r π)
    (hq : (s.pmapCreate kernelRoot).2.table r π = some q) :
    (r = s.allocPages.1 ∧ π = [] ∧ q = s.allocPages.1) ∨
      (q ≠ s.allocPages.1 ∧ (forest roots userTop).Has r π ∧ s.table r π = some q) := by
  have hne : ∀ r π q, r ≠ s.allocPages.1 → (forest roots userTop).Has r π → s.table r π = some q →
      q ≠ s.allocPages.1 := by
    rintro r π q hr hπ hq rfl
    by_cases ht : s.allocPages.1 = 0
    · rcases h.owned r π _ hπ hq with ⟨hq', -⟩ | ⟨rfl, -⟩
      · exact hq' ht
      · exact hr (Option.some.inj hq)
    · exact h.fresh_not_table ht ⟨r, π, hπ, hq⟩
  -- the new space has an empty root table, the others are as before
  by_cases hr : r = s.allocPages.1
  · subst hr
    cases π with
    | nil => exact Or.inl ⟨rfl, rfl, (Option.some.inj hq).symm⟩
    | cons i π =>
        have hi := pmapCreate_mem_user (s := s) kernelRoot (hπ.2.2 i rfl)
        simp only [table, node, hi, Entry.child_zero] at hq
        cases hq
  · have hroots : r ∈ roots := (Set.mem_insert_iff.mp hπ.1).resolve_left hr
    have hsame : (s.pmapCreate kernelRoot).2.table r π = s.table r π := by
      refine node_congr (F := forest {r} userTop) ?_ ⟨rfl, hπ.2⟩
      rintro q' ⟨r', π', ⟨rfl, hπ'⟩, hq'⟩
      exact pmapCreate_mem_of_ne kernelRoot (hne r' π' q' hr ⟨hroots, hπ'⟩ hq')
    rw [hsame] at hq
    exact Or.inr ⟨hne r π q hr ⟨hroots, hπ.2⟩ hq, ⟨hroots, hπ.2⟩, hq⟩

/-- `pmap_create` adds a tree that consists of its root. -/
theorem Wf.create :
    (s.pmapCreate kernelRoot).2.Wf (forest (insert (s.pmapCreate kernelRoot).1 roots) userTop) ∧
    (∀ p, s.Outside (forest roots userTop) p →
      (s.pmapCreate kernelRoot).2.Outside
        (forest (insert (s.pmapCreate kernelRoot).1 roots) userTop) p ∧
      (s.pmapCreate kernelRoot).2.mem p = s.mem p ∧
      (.free p ∈ (s.pmapCreate kernelRoot).2.trace → .free p ∈ s.trace)) := by
  -- only the new page is written
  have hmem : ∀ q, q ≠ s.allocPages.1 → (s.pmapCreate kernelRoot).2.mem q = s.mem q :=
    fun q hq => pmapCreate_mem_of_ne kernelRoot hq
  have hcases := fun r π q hπ hq => h.create_table_cases kernelRoot (r := r) (π := π) (q := q) hπ hq
  refine ⟨⟨rfl, fun r π r' π' q hπ hπ' hq hq' => ?_, fun r π q hπ hq => ?_,
    fun r π q i hπ hlen hq => ?_⟩, fun p hp => ?_⟩
  -- the new root has no tables below it, and is not in an old tree
  · rcases hcases r π q hπ hq with ⟨hr, hnil, hqt⟩ | ⟨hqt, hold, hq⟩ <;>
      rcases hcases r' π' q hπ' hq' with ⟨hr', hnil', hqt'⟩ | ⟨hqt', hold', hq'⟩
    · exact ⟨hr.trans hr'.symm, hnil.trans hnil'.symm⟩
    · exact absurd hqt hqt'
    · exact absurd hqt' hqt
    · exact h.sep r π r' π' q hold hold' hq hq'
  · rcases hcases r π q hπ hq with ⟨-, rfl, rfl⟩ | ⟨-, hold, hq⟩
    · by_cases ht : s.allocPages.1 = 0
      · exact Or.inr ⟨rfl, ht⟩
      · exact Or.inl ⟨ht, LawfulPageAllocator.alloc_mem s.pmm ht⟩
    · rcases h.owned r π q hold hq with ⟨hq0, ha⟩ | hq0
      · exact Or.inl ⟨hq0, LawfulPageAllocator.alloc_mono s.pmm q ha⟩
      · exact Or.inr hq0
  · rcases hcases r π q hπ.of_append hq with ⟨-, rfl, rfl⟩ | ⟨hqt, hold, hq⟩
    · rw [pmapCreate_mem_user kernelRoot (hπ.2.2 i rfl)]
      exact Entry.huge_zero
    · rw [hmem q hqt]
      exact h.upper r π q i ⟨hold.1, hπ.2⟩ hlen hq
  · have hpt : p ≠ s.allocPages.1 := by
      intro heq
      exact LawfulPageAllocator.alloc_fresh s.pmm (heq ▸ hp.ne_zero) (heq ▸ hp.allocated)
    refine ⟨⟨hp.ne_zero, LawfulPageAllocator.alloc_mono s.pmm p hp.allocated, ?_⟩, hmem p hpt, ?_⟩
    · rintro ⟨r, π, hπ, hq⟩
      rcases hcases r π p hπ hq with ⟨-, -, heq⟩ | ⟨-, hold, hq⟩
      · exact hpt heq
      · exact hp.not_table ⟨r, π, hold, hq⟩
    · simp [pmapCreate, copyUpper, clear, allocPages]

end Create

end PmState

end Koharu
