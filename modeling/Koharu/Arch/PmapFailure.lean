import Koharu.Arch.PmapCoverage
import Mathlib.Algebra.BigOperators.Group.Finset.Piecewise
import Mathlib.Data.Finset.Union
import Mathlib.Order.Interval.Finset.Nat

/-!
# What a failing `pmap_map` leaves behind

`pmap_map` fails where `pmm_alloc_pages` has no page for a table. The pages before that one are
mapped by then, and stay so. How many there are follows from the number of pages that the allocator
still gives out (`Budget`) and the tables that the pages of the range need and that are not there
(`newTables`) less those that come back when a huge page takes their place (`oldTables`).

A table is what `pmap_map_page` takes for one: it looks at `PTE_PRESENT` only. A normal page inside
a huge one is stored to the memory of the huge page, which is not looked at here (`Overlaid`).

`PageMapped` is what one `pmap_map_page` does that succeeds: to the translations, and to the tables
that other pages need. The loop is followed from its first page on: `RangeMapped.cons` puts a page
in front of what the rest of the loop does, and counts tables for the whole range in the state
before, where some of them are made for the first page already. So whether the loop comes to its
end, and how far it comes otherwise, depends on numbers only (`HasRoom`).

* `extract_eq_iff`: a failing call changes no translation exactly if the pages it has mapped were
  mapped to the same frames before.
-/

namespace Koharu

open Radix

/-- The table that `pmap_map_page` finds at an entry, if it does not make a new one. -/
def Entry.next (e : Entry) : Option Addr := if e.present then some e.addr else none

/-- `pmm_alloc_pages` gives out a page `left` times, and returns `NULL` from then on. A page that is
given back may be given out once more (`back` is 1) or not (`back` is 0). -/
structure Budget {σ : Type*} [PageAllocator σ] [LawfulPageAllocator σ] (back : ℕ) (left : σ → ℕ) :
    Prop where
  null_iff : ∀ m, (PageAllocator.allocPages m).1 = 0 ↔ left m = 0
  alloc : ∀ m, left (PageAllocator.allocPages m).2 = left m - 1
  free : ∀ m, ∀ p ∈ LawfulPageAllocator.allocated m,
    left (PageAllocator.freePages m p) = left m + back

namespace PmState

variable {σ : Type*}

/-- The tables that a page needs, by their paths. -/
def tablePaths (flags : BitVec 32) (va : Addr) : Finset (List (BitVec 9)) :=
  if hasProt flags protHuge then {(path va).take 1, (path va).take 2}
  else {(path va).take 1, (path va).take 2, (path va).take 3}

/-- There is no table at the path. -/
def noTable (s : PmState σ) (root : Addr) (π : List (BitVec 9)) : Bool :=
  (node Entry.next s.mem root π).isNone

/-- The number of tables that the first `n` pages from `va` on need and that are not there. -/
def newTables (s : PmState σ) (root : Addr) (flags : BitVec 32) (va : Addr) (n : ℕ) : ℕ :=
  ((Finset.range n).biUnion fun k =>
    (tablePaths flags (pageAt flags va k)).filter fun π => s.noTable root π).card

/-- The number of tables that one page needs and that are not there. -/
def pageTables (s : PmState σ) (root : Addr) (flags : BitVec 32) (va : Addr) : ℕ :=
  ((tablePaths flags va).filter fun π => s.noTable root π).card

/-- The tables that huge pages take the place of, by their paths. -/
def replacedPaths (flags : BitVec 32) (va : Addr) : Finset (List (BitVec 9)) :=
  if hasProt flags protHuge then {(path va).take 3} else ∅

/-- The number of tables that the first `n` pages from `va` on take the place of. -/
def oldTables (s : PmState σ) (root : Addr) (flags : BitVec 32) (va : Addr) (n : ℕ) : ℕ :=
  ((Finset.range n).biUnion fun k =>
    (replacedPaths flags (pageAt flags va k)).filter fun π => (s.table root π).isSome).card

/-- The number of tables that one page takes the place of. -/
def pageOldTables (s : PmState σ) (root : Addr) (flags : BitVec 32) (va : Addr) : ℕ :=
  ((replacedPaths flags va).filter fun π => (s.table root π).isSome).card

/-- A normal page would lie inside a huge one. -/
def Overlaid (s : PmState σ) (root : Addr) (flags : BitVec 32) (va : Addr) : Prop :=
  hasProt flags protHuge = false ∧ s.hugePage root va = true

/-- The page is in one of the paths that pages may need tables at. -/
theorem mem_tablePaths {flags : BitVec 32} {va : Addr} {π : List (BitVec 9)} :
    π ∈ tablePaths flags va ↔ π = (path va).take 1 ∨ π = (path va).take 2 ∨
      hasProt flags protHuge = false ∧ π = (path va).take 3 := by
  rw [tablePaths]
  split
  next hflags => simp [hflags]
  next hflags => simp [hflags]

/-- Pages of 4 KiB replace no table. -/
theorem replacedPaths_normal {flags : BitVec 32} (hflags : hasProt flags protHuge = false)
    (va : Addr) : replacedPaths flags va = ∅ := by
  rw [replacedPaths, hflags]
  rfl

/-- So they leave no old table behind. -/
theorem pageOldTables_normal {flags : BitVec 32} (hflags : hasProt flags protHuge = false)
    (s : PmState σ) (root va : Addr) : s.pageOldTables root flags va = 0 := by
  rw [pageOldTables, replacedPaths_normal hflags]
  rfl

/-- A huge page leaves the table behind that stood in its place. -/
theorem pageOldTables_huge {flags : BitVec 32} (hflags : hasProt flags protHuge = true)
    (s : PmState σ) (root va : Addr) : s.pageOldTables root flags va =
      if s.table root ((path va).take 3) = none then 0 else 1 := by
  rw [pageOldTables, replacedPaths, if_pos hflags, Finset.filter_singleton]
  cases s.table root ((path va).take 3) <;> simp

variable [PageAllocator σ] [LawfulPageAllocator σ] {s s' s₁ : PmState σ}
  {F : Shape Addr (BitVec 9)} {r va pa : Addr} {flags : BitVec 32}

section Tables

variable (h : s.Wf F)

include h

/-- Above the last table every present entry leads to a table. -/
theorem Wf.next_eq_child {π : List (BitVec 9)} {p : Addr} {i : BitVec 9} (hπ : F.Has r (π ++ [i]))
    (hlen : π.length < 2) (hp : s.table r π = some p) : (s.mem p i).next = (s.mem p i).child := by
  have hhuge := h.upper r π p i hπ hlen hp
  rw [Entry.next, Entry.child, hhuge]
  simp

/-- On the first two levels these are the tables of the tree. -/
theorem Wf.node_next {π : List (BitVec 9)} (hπ : F.Has r π) (hlen : π.length ≤ 2) :
    node Entry.next s.mem r π = s.table r π := by
  induction π using List.reverseRecOn with
  | nil => rfl
  | append_singleton π i ih =>
      rw [List.length_append, List.length_singleton] at hlen
      rw [node_snoc, table_snoc, ih hπ.of_append (by omega)]
      cases hp : s.table r π with
      | none => rfl
      | some p => exact h.next_eq_child hπ (by omega) hp

/-- The test for a missing table is right on well-formed tables. -/
theorem Wf.noTable_iff {π : List (BitVec 9)} (hπ : F.Has r π) (hlen : π.length ≤ 2) :
    s.noTable r π = true ↔ s.table r π = none := by
  rw [noTable, h.node_next hπ hlen, Option.isNone_iff_eq_none]

variable (hr : r ∈ F.roots) (hva : pml4Index va ∈ F.top)

include hr hva

/-- The tables on the path of an address have a place in the shape. -/
theorem Wf.has_take {d : ℕ} (hd : d ≤ 3) : F.Has r ((path va).take d) := by
  refine h.has_path hr hva _ ⟨(path va).drop d, (List.take_append_drop d _).symm, fun hnil => ?_⟩
  have := congrArg List.length hnil
  rw [List.length_drop] at this
  simp only [path, List.length_cons, List.length_nil] at this
  omega

omit h hr hva in
omit [PageAllocator σ] [LawfulPageAllocator σ] in
/-- Whether a huge page covers an address is read from its page directory. -/
theorem hugePage_of_table {pd : Addr} (hpd : s.table r ((path va).take 2) = some pd) :
    s.hugePage r va = ((s.mem pd (pdIndex va)).present && (s.mem pd (pdIndex va)).huge) := by
  change s.table r ([pml4Index va] ++ [pdptIndex va]) = some pd at hpd
  rw [table_snoc] at hpd
  obtain ⟨pdpt, hpdpt, hchild⟩ := Option.bind_eq_some_iff.mp hpd
  change s.table r ([] ++ [pml4Index va]) = some pdpt at hpdpt
  rw [table_snoc] at hpdpt
  obtain ⟨hpresent₃, hhuge₃, haddr₃⟩ := Entry.child_eq_some_iff.mp hchild
  obtain ⟨hpresent₄, -, haddr₄⟩ := Entry.child_eq_some_iff.mp hpdpt
  rw [hugePage, haddr₄, haddr₃, hpresent₄, hpresent₃, hhuge₃]
  rfl

/-- Without a page directory there is no huge page. -/
theorem Wf.hugePage_of_no_table (hpd : s.table r ((path va).take 2) = none) :
    s.hugePage r va = false := by
  rw [Bool.eq_false_iff]
  intro hhuge
  obtain ⟨e, i, ρ, hfound⟩ := (h.hugePage_iff hr hva).mp hhuge
  rcases h.walk_cases hr hva with ⟨hleaf, -, -⟩ | ⟨pd, hpd', -⟩ | ⟨pdpt, pd, pt, -, hpd', -⟩
  · rw [hleaf] at hfound
    cases hfound
  · exact absurd (hpd.symm.trans hpd') (Option.some_ne_none pd).symm
  · exact absurd (hpd.symm.trans hpd') (Option.some_ne_none pd).symm

/-- On the third level a huge page counts as a table. -/
theorem Wf.noTable_take_three : s.noTable r ((path va).take 3) = true ↔
    s.table r ((path va).take 3) = none ∧ s.hugePage r va = false := by
  have hsplit : (path va).take 3 = (path va).take 2 ++ [pdIndex va] := rfl
  rw [noTable, Option.isNone_iff_eq_none, hsplit, node_snoc, table_snoc,
    h.node_next (h.has_take hr hva (by omega)) (by simp)]
  cases hpd : s.table r ((path va).take 2) with
  | none => simp [h.hugePage_of_no_table hr hva hpd]
  | some pd =>
      rw [hugePage_of_table hpd, Option.bind_some, Option.bind_some, Entry.next, Entry.child]
      cases (s.mem pd (pdIndex va)).present <;> cases (s.mem pd (pdIndex va)).huge <;> simp

/-- The tables that mapping a page takes, counted level by level. -/
theorem Wf.pageTables_eq : s.pageTables r flags va =
    (if s.table r ((path va).take 1) = none then 1 else 0) +
      (if s.table r ((path va).take 2) = none then 1 else 0) +
      if hasProt flags protHuge then 0
      else if s.noTable r ((path va).take 3) = true then 1 else 0 := by
  have h₁ := h.noTable_iff (h.has_take hr hva (d := 1) (by omega)) (by simp)
  have h₂ := h.noTable_iff (h.has_take hr hva (d := 2) (by omega)) (by simp)
  rw [pageTables, tablePaths, ← if_congr h₁ rfl rfl, ← if_congr h₂ rfl rfl]
  cases hflags : hasProt flags protHuge with
  | true =>
      rw [if_pos rfl, if_pos rfl, Finset.card_filter, Finset.sum_pair (by simp [path]),
        Nat.add_zero]
  | false =>
      rw [if_neg Bool.false_ne_true, if_neg Bool.false_ne_true, Finset.card_filter,
        Finset.sum_insert (by simp [path]), Finset.sum_pair (by simp [path]), Nat.add_assoc]

end Tables

/-- What `pmap_map_page` does if it succeeds. A normal page inside a huge one changes nothing. -/
structure PageMapped (F : Shape Addr (BitVec 9)) (back : ℕ) (left : σ → ℕ) (r : Addr)
    (flags : BitVec 32) (va pa : Addr) (s s' : PmState σ) : Prop where
  wf : s'.Wf F
  outside : ∀ p, s.Outside F p → s'.Outside F p
  inside : ∀ x, pml4Index x ∈ F.top → SamePage flags va x → ¬ s.Overlaid r flags x →
    s'.leaf r x = some (mappedLeaf flags pa x)
  rest : ∀ x, pml4Index x ∈ F.top → ¬ SamePage flags va x ∨ s.Overlaid r flags x →
    s'.leaf r x = s.leaf r x
  tables : ∀ x, pml4Index x ∈ F.top → ∀ π ∈ tablePaths flags x,
    (s'.noTable r π = true ↔ s.noTable r π = true ∧ π ∉ tablePaths flags va)
  replaced : ∀ x, pml4Index x ∈ F.top → ∀ π ∈ replacedPaths flags x,
    ((s'.table r π).isSome = true ↔ (s.table r π).isSome = true ∧ π ∉ replacedPaths flags va)
  enough : s.pageTables r flags va ≤ left s.pmm
  left : left s'.pmm + s.pageTables r flags va = left s.pmm + back * s.pageOldTables r flags va

/-! ### Going down one level

Each level takes at most one page from the allocator, and none where the table is there. The two
kinds of pages differ in how far down the walk goes, and in what becomes of a table that a huge page
takes the place of. -/

section Budget

variable {back : ℕ} {left : σ → ℕ} (hleft : Budget back left) (h : s.Wf F)

include hleft h

/-- One level down takes a page from the allocator where there is no table. -/
theorem Wf.nextTable_budget {p : Addr} {π : List (BitVec 9)} {i : BitVec 9} (level : Level)
    (hπ : F.Has r (π ++ [i])) (hp : s.table r π = some p)
    (hhuge : (s.mem p i).present = true → (s.mem p i).huge = false) :
    ∃ t s', s.nextTable level p i = (t, s') ∧ Moves F s s' ∧ SameLeaves F s s' ∧
      ((t = none ∧ s.table r (π ++ [i]) = none ∧ left s.pmm = 0) ∨
      ∃ q, t = some q ∧ s'.table r (π ++ [i]) = some q ∧
        (∀ π', F.Has r π' → (s'.table r π' = none ↔ s.table r π' = none ∧ π' ≠ π ++ [i])) ∧
        left s'.pmm + (if s.table r (π ++ [i]) = none then 1 else 0) = left s.pmm) := by
  obtain ⟨t, s', heq, hmoves, hsame, htable⟩ := h.nextTable level hπ hp hhuge
  refine ⟨t, s', heq, hmoves, hsame, ?_⟩
  have hchild : s.table r (π ++ [i]) = (s.mem p i).child := by
    rw [table_snoc, hp]
    rfl
  rw [nextTable_eq] at heq
  cases hpresent : (s.mem p i).present with
  | true =>
      rw [if_pos hpresent] at heq
      obtain ⟨rfl, rfl⟩ := Prod.mk.inj heq
      have hsome := htable _ rfl
      refine Or.inr ⟨_, rfl, hsome, fun π' _ => ?_, ?_⟩
      · rw [iff_self_and]
        rintro hnone rfl
        rw [hsome] at hnone
        cases hnone
      · rw [hsome, if_neg (Option.some_ne_none _), Nat.add_zero]
  | false =>
      have hnone : s.table r (π ++ [i]) = none := by
        rw [hchild]
        exact Entry.child_of_not_present hpresent
      rw [if_neg (by simp [hpresent])] at heq
      split at heq
      next hnull =>
        obtain ⟨rfl, rfl⟩ := Prod.mk.inj heq
        exact Or.inl ⟨rfl, hnone, (hleft.null_iff _).mp hnull⟩
      next ht =>
        obtain ⟨rfl, rfl⟩ := Prod.mk.inj heq
        have hpositive : left s.pmm ≠ 0 := fun hzero => ht ((hleft.null_iff _).mpr hzero)
        have hused : left (s.linked level p i).pmm = left s.pmm - 1 := hleft.alloc s.pmm
        refine Or.inr ⟨_, rfl, htable _ rfl, fun π' hπ' => ?_, ?_⟩
        · rw [h.linkedAs_table hπ.of_append hp ht (child_tableEntry s.allocPages_aligned) hπ']
          split
          next heq => simp [heq.2]
          next hne =>
            split
            next hthrough =>
              -- below the new table there was nothing before
              obtain ⟨-, ρ, rfl⟩ := hthrough
              refine iff_of_true rfl ⟨?_, fun heq => hne ⟨rfl, heq⟩⟩
              rw [table, node_append, show node Entry.child s.mem r (π ++ [i]) = none from hnone]
              rfl
            next => exact ⟨fun hnone' => ⟨hnone', fun heq => hne ⟨rfl, heq⟩⟩, And.left⟩
        · rw [hused, if_pos hnone]
          omega

variable (hr : r ∈ F.roots) (hva : pml4Index va ∈ F.top)

include hr hva

/-- The first two levels of `pmap_map_page`. -/
theorem Wf.mapPage_upper : ∃ pd s₂, Moves F s s₂ ∧ SameLeaves F s s₂ ∧
    (∀ pa flags, s.pmapMapPage r va pa flags = match pd with
      | none => (false, s₂)
      | some pd => if hasProt flags protHuge then (true, s₂.mapHuge pd va pa flags) else
          match s₂.nextTable .pd pd (pdIndex va) with
          | (none, s₃) => (false, s₃)
          | (some pt, s₃) => (true, s₃.store .pt pt (ptIndex va) (pageEntry pa flags))) ∧
    ((pd = none ∧ left s.pmm < (if s.table r ((path va).take 1) = none then 1 else 0) +
        if s.table r ((path va).take 2) = none then 1 else 0) ∨
      ∃ q, pd = some q ∧ s₂.table r ((path va).take 2) = some q ∧
        (∀ π', F.Has r π' → (s₂.table r π' = none ↔ s.table r π' = none ∧
          π' ≠ (path va).take 1 ∧ π' ≠ (path va).take 2)) ∧
        left s₂.pmm + ((if s.table r ((path va).take 1) = none then 1 else 0) +
          if s.table r ((path va).take 2) = none then 1 else 0) = left s.pmm) := by
  have hπ₁ : F.Has r ([] ++ [pml4Index va]) := h.has_take hr hva (d := 1) (by omega)
  obtain ⟨t₁, s₁, heq₁, hmoves₁, hsame₁, hcases₁⟩ := h.nextTable_budget hleft .pml4 hπ₁ rfl
    fun _ => h.upper r [] r _ hπ₁ (by simp) rfl
  rcases hcases₁ with ⟨rfl, hnone₁, hzero⟩ | ⟨pdpt, rfl, hpdpt, htable₁, hleft₁⟩
  · refine ⟨none, s₁, hmoves₁, hsame₁, fun pa flags => by rw [pmapMapPage, heq₁], Or.inl ⟨rfl, ?_⟩⟩
    rw [if_pos (show s.table r ((path va).take 1) = none from hnone₁)]
    omega
  have hwf₁ := (hmoves₁.step h).wf
  have hπ₂ : F.Has r ([pml4Index va] ++ [pdptIndex va]) := h.has_take hr hva (d := 2) (by omega)
  obtain ⟨t₂, s₂, heq₂, hmoves₂, hsame₂, hcases₂⟩ := hwf₁.nextTable_budget hleft .pdpt hπ₂ hpdpt
    fun _ => hwf₁.upper r _ pdpt _ hπ₂ (by simp) hpdpt
  -- the first step does not change whether there is a table at the second level
  have htable₂ : s₁.table r ([pml4Index va] ++ [pdptIndex va]) = none ↔
      s.table r ((path va).take 2) = none := by
    rw [htable₁ _ hπ₂]
    exact and_iff_left (by simp)
  have hleft₁' : left s₁.pmm + (if s.table r ((path va).take 1) = none then 1 else 0) =
      left s.pmm := hleft₁
  refine ⟨t₂, s₂, hmoves₁.trans hmoves₂, hsame₁.trans hsame₂, fun pa flags => ?_, ?_⟩
  · rw [pmapMapPage, heq₁]
    simp only [heq₂]
    cases t₂ <;> rfl
  rcases hcases₂ with ⟨rfl, hnone₂, hzero⟩ | ⟨pd, rfl, hpd, htable, hleft₂⟩
  · refine Or.inl ⟨rfl, ?_⟩
    rw [if_pos (htable₂.mp hnone₂)]
    omega
  · refine Or.inr ⟨pd, rfl, hpd, fun π' hπ' => ?_, ?_⟩
    · rw [htable π' hπ', htable₁ π' hπ', and_assoc]
      rfl
    · simp only [htable₂] at hleft₂
      omega

/-- `pmap_map_page` for a huge page. -/
theorem Wf.mapPage_huge_budget (hflags : hasProt flags protHuge = true) (pa : Addr) :
    ∃ ok s', s.pmapMapPage r va pa flags = (ok, s') ∧
      ((ok = true ∧ PageMapped F back left r flags va pa s s') ∨
        ok = false ∧ s'.Wf F ∧ SameLeaves F s s' ∧ left s.pmm < s.pageTables r flags va) := by
  obtain ⟨t, s₂, hmoves₂, hsame₂, heq, hcases⟩ := h.mapPage_upper hleft hr hva
  obtain ⟨ok, s', heq', hmoves, -, hleaf⟩ := h.mapPage_huge hr hva hflags pa
  have hcost := @Wf.pageTables_eq _ _ _ s F r va flags h hr hva
  rw [if_pos hflags, Nat.add_zero] at hcost
  refine ⟨ok, s', heq', ?_⟩
  rw [heq] at heq'
  rcases hcases with ⟨rfl, hlt⟩ | ⟨pd, rfl, hpd, htable, hused⟩
  · obtain ⟨rfl, rfl⟩ := Prod.mk.inj heq'
    exact Or.inr ⟨rfl, (hmoves₂.step h).wf, hsame₂, by rw [hcost]; exact hlt⟩
  simp only [hflags, if_true] at heq'
  obtain ⟨rfl, rfl⟩ := Prod.mk.inj heq'
  have hwf₂ := (hmoves₂.step h).wf
  have hwf' := (hmoves.step h).wf
  have hnot : ∀ x, ¬ s.Overlaid r flags x := fun x hover => by
    rw [Overlaid, hflags] at hover
    exact Bool.false_ne_true hover.1.symm
  -- the store is to the entry of the one table that the page takes the place of
  have htable' : ∀ π, F.Has r π → ¬ (path va).take 3 <+: π →
      (s₂.mapHuge pd va pa flags).table r π = s₂.table r π := by
    intro π hπ hnot'
    have hmem : (s₂.mapHuge pd va pa flags).mem =
        write s₂.mem pd (pdIndex va) (hugeEntry pa flags) := by
      rw [mapHuge]
      split <;> rfl
    rw [table, hmem]
    apply node_write_of_not_through hwf₂.sep (hwf₂.has_take hr hva (d := 2) (by omega)) hpd hπ
    exact fun hthrough => hnot' hthrough.2
  have hthird : ∀ x, pml4Index x ∈ F.top →
      ((s₂.table r ((path x).take 3)).isSome = true ↔
      (s.table r ((path x).take 3)).isSome = true) := by
    intro x hx
    have hhas := h.has_take hr hx (d := 3) (by omega)
    rw [Option.isSome_iff_ne_none, Option.isSome_iff_ne_none, not_iff_not, htable _ hhas]
    exact and_iff_left (by simp [path])
  refine Or.inl ⟨rfl, hwf', fun p hp => ((hmoves.step h).outside p hp).1, fun x hx hin _ => ?_,
    fun x hx hout => ?_, fun x hx π hπ => ?_, fun x hx π hπ => ?_, by rw [hcost]; omega, ?_⟩
  · rw [SamePage, if_pos hflags] at hin
    rw [hleaf rfl r hr x hx, if_pos ⟨rfl, hin⟩, mappedLeaf, if_pos hflags]
  · have hout := hout.resolve_right (hnot x)
    rw [SamePage, if_pos hflags] at hout
    rw [hleaf rfl r hr x hx, if_neg fun hin => hout hin.2]
  · obtain ⟨d, hd, rfl⟩ : ∃ d ≤ 2, π = (path x).take d := by
      rw [mem_tablePaths, hflags] at hπ
      rcases hπ with rfl | rfl | ⟨hfalse, -⟩
      · exact ⟨1, by omega, rfl⟩
      · exact ⟨2, le_rfl, rfl⟩
      · cases hfalse
    have hhas := h.has_take hr hx (d := d) (by omega)
    have hlen : ((path x).take d).length ≤ 2 := by
      rw [List.length_take]
      omega
    have hshort : ¬ (path va).take 3 <+: (path x).take d := fun hprefix => by
      have := hprefix.length_le
      rw [show ((path va).take 3).length = 3 from rfl] at this
      omega
    rw [hwf'.noTable_iff hhas hlen, h.noTable_iff hhas hlen, htable' _ hhas hshort, htable _ hhas,
      mem_tablePaths, hflags]
    simp
  · rw [replacedPaths, if_pos hflags, Finset.mem_singleton] at hπ
    subst hπ
    rw [replacedPaths, if_pos hflags, Finset.mem_singleton]
    by_cases hsame : (path x).take 3 = (path va).take 3
    · -- its entry is that of the huge page now
      have hpd' := htable' _ (h.has_take hr hva (d := 2) (by omega)) (by simp [path])
      have hnone : (s₂.mapHuge pd va pa flags).table r ((path va).take 3) = none := by
        change (s₂.mapHuge pd va pa flags).table r ((path va).take 2 ++ [pdIndex va]) = none
        rw [table_snoc, hpd', hpd, Option.bind_some]
        have hentry : (s₂.mapHuge pd va pa flags).mem pd (pdIndex va) = hugeEntry pa flags := by
          rw [mapHuge]
          split <;> exact (write_apply ..).trans (if_pos ⟨rfl, rfl⟩)
        rw [hentry]
        exact child_hugeEntry pa flags
      rw [hsame, hnone]
      simp
    · rw [htable' _ (h.has_take hr hx (d := 3) (by omega)), hthird x hx]
      · exact (and_iff_left hsame).symm
      · exact fun hpre => hsame (hpre.eq_of_length rfl).symm
  · have hentry : s₂.table r ((path va).take 3) = (s₂.mem pd (pdIndex va)).child := by
      change s₂.table r ((path va).take 2 ++ [pdIndex va]) = _
      rw [table_snoc, hpd, Option.bind_some]
    have hpmm : left (s₂.mapHuge pd va pa flags).pmm =
        left s₂.pmm + back * s.pageOldTables r flags va := by
      have hiff := hthird va hva
      rw [Option.isSome_iff_ne_none, Option.isSome_iff_ne_none, not_iff_not] at hiff
      rw [pageOldTables_huge hflags, ← if_congr hiff rfl rfl, mapHuge]
      split
      next hold =>
        have hchild := Entry.child_eq_some hold.1 (by simpa using hold.2)
        have hsome := hentry.trans hchild
        rw [hsome, if_neg (Option.some_ne_none _), Nat.mul_one]
        apply hleft.free _ _
        rcases hwf₂.owned r _ _ (h.has_take hr hva (d := 3) (by omega)) hsome with hq | ⟨hnil, -⟩
        · exact hq.2
        · cases hnil
      next hold =>
        have hnone : (s₂.mem pd (pdIndex va)).child = none := by
          rw [Option.eq_none_iff_forall_ne_some]
          intro q hq
          obtain ⟨hpresent, hhuge, -⟩ := Entry.child_eq_some_iff.mp hq
          exact hold ⟨hpresent, by simp [hhuge]⟩
        rw [hentry.trans hnone, if_pos rfl, Nat.mul_zero]
        rfl
    rw [hpmm, hcost]
    omega

omit hleft hva in
/-- From the tables of the tree to what `pmap_map_page` takes for tables. -/
theorem Wf.noTable_of_tables (h' : s'.Wf F) (hflags : hasProt flags protHuge = false)
    (hhuge : ∀ x, pml4Index x ∈ F.top → s'.hugePage r x = s.hugePage r x)
    (htable : ∀ π, F.Has r π → (s'.table r π = none ↔ s.table r π = none ∧
      (π ≠ (path va).take 1 ∧ π ≠ (path va).take 2) ∧
      (s.hugePage r va = false → π ≠ (path va).take 3))) {x : Addr}
    (hx : pml4Index x ∈ F.top) {π : List (BitVec 9)} (hπ : π ∈ tablePaths flags x) :
    s'.noTable r π = true ↔ s.noTable r π = true ∧ π ∉ tablePaths flags va := by
  rw [mem_tablePaths] at hπ
  rw [mem_tablePaths]
  -- a path of length one, two or three, where the last may end at a huge page
  rcases hπ with rfl | rfl | ⟨-, rfl⟩
  · have hhas := h.has_take hr hx (d := 1) (by omega)
    rw [h'.noTable_iff hhas (by simp), h.noTable_iff hhas (by simp), htable _ hhas]
    simp [path]
  · have hhas := h.has_take hr hx (d := 2) (by omega)
    rw [h'.noTable_iff hhas (by simp), h.noTable_iff hhas (by simp), htable _ hhas]
    simp [path]
  · have hhas := h.has_take hr hx (d := 3) (by omega)
    rw [h'.noTable_take_three hr hx, h.noTable_take_three hr hx, htable _ hhas, hhuge x hx]
    constructor
    · rintro ⟨⟨hnone, hne, hthree⟩, hfalse⟩
      refine ⟨⟨hnone, hfalse⟩, ?_⟩
      rintro (heq | heq | ⟨-, heq⟩)
      · exact hne.1 heq
      · exact hne.2 heq
      · rw [hugePage_congr heq] at hfalse
        exact hthree hfalse heq
    · rintro ⟨⟨hnone, hfalse⟩, hne⟩
      exact ⟨⟨hnone, ⟨fun heq => hne (Or.inl heq), fun heq => hne (Or.inr (Or.inl heq))⟩,
        fun _ heq => hne (Or.inr (Or.inr ⟨hflags, heq⟩))⟩, hfalse⟩

/-- `pmap_map_page` for a normal page in memory that a huge page maps. The store goes to a page that
is not a table. -/
theorem Wf.mapPage_overlaid (hflags : hasProt flags protHuge = false)
    (hhuge : s.hugePage r va = true)
    (hapart : ∀ e i, s.leaf r va = some (e, [i]) → s.Outside F e.addr) (pa : Addr) :
    ∃ ok s', s.pmapMapPage r va pa flags = (ok, s') ∧
      ((ok = true ∧ PageMapped F back left r flags va pa s s') ∨
        ok = false ∧ s'.Wf F ∧ SameLeaves F s s' ∧ left s.pmm < s.pageTables r flags va) := by
  obtain ⟨t, s₂, hmoves₂, hsame₂, heq, hcases⟩ := h.mapPage_upper hleft hr hva
  have hwf₂ := (hmoves₂.step h).wf
  have hcost := @Wf.pageTables_eq _ _ _ s F r va flags h hr hva
  have hthree : s.noTable r ((path va).take 3) = false := by
    rw [Bool.eq_false_iff]
    intro hnone
    have := ((h.noTable_take_three hr hva).mp hnone).2
    rw [hhuge] at this
    cases this
  simp only [hflags, hthree, Bool.false_eq_true, if_false, Nat.add_zero] at hcost
  rw [heq]
  rcases hcases with ⟨rfl, hlt⟩ | ⟨pd, rfl, hpd, htable, hused⟩
  · exact ⟨false, s₂, rfl, Or.inr ⟨rfl, hwf₂, hsame₂, by rw [hcost]; exact hlt⟩⟩
  -- the entry of the page directory is still the one of the huge page
  have hhuge₂ : s₂.hugePage r va = true := by
    rw [hwf₂.hugePage_iff hr hva, hsame₂ r hr va hva]
    exact (h.hugePage_iff hr hva).mp hhuge
  have hentry := hhuge₂
  rw [hugePage_of_table hpd, Bool.and_eq_true] at hentry
  have hleaf₂ : s₂.leaf r va = some (s₂.mem pd (pdIndex va), [ptIndex va]) := by
    apply (leaf_of_table hpd rfl).trans
    simp [findFrom, found, Entry.child_of_huge hentry.2, hentry.1]
  have hout : s₂.Outside F (s₂.mem pd (pdIndex va)).addr :=
    ((hmoves₂.step h).outside _ (hapart _ _ ((hsame₂ r hr va hva).symm.trans hleaf₂))).1
  have hnext : s₂.nextTable .pd pd (pdIndex va) = (some (s₂.mem pd (pdIndex va)).addr, s₂) := by
    rw [nextTable_eq, if_pos hentry.1]
  simp only [hflags, hnext, Bool.false_eq_true, if_false]
  refine ⟨true, _, rfl, Or.inl ⟨rfl, ?_⟩⟩
  obtain ⟨s', hs'⟩ : ∃ s', s' = s₂.store .pt (s₂.mem pd (pdIndex va)).addr (ptIndex va)
    (pageEntry pa flags) := ⟨_, rfl⟩
  rw [← hs']
  have hmem : ∀ q, s₂.IsTable F q → s'.mem q = s₂.mem q := by
    intro q hq
    have hne : q ≠ (s₂.mem pd (pdIndex va)).addr := by
      rintro rfl
      exact hout.not_table hq
    funext j
    rw [hs', store_mem, write_apply, if_neg fun heq => hne heq.1]
  have hpmm : s'.pmm = s₂.pmm := by rw [hs']; rfl
  have hwf' : s'.Wf F := hwf₂.congr hmem fun q _ _ halloc => by
    rw [Allocated, hpmm]
    exact halloc
  have hleaf' : ∀ x, pml4Index x ∈ F.top → s'.leaf r x = s.leaf r x := by
    intro x hx
    rw [← hsame₂ r hr x hx]
    exact find_congr hmem (hwf₂.covers hr hx)
  have hhuge' : ∀ x, pml4Index x ∈ F.top → s'.hugePage r x = s.hugePage r x := by
    intro x hx
    rw [Bool.eq_iff_iff, hwf'.hugePage_iff hr hx, h.hugePage_iff hr hx, hleaf' x hx]
  have htable' : ∀ π, F.Has r π → s'.table r π = s₂.table r π := fun π hπ => node_congr hmem hπ
  refine ⟨hwf', fun p hp => ?_, fun x hx hin hnot => ?_, fun x hx _ => hleaf' x hx,
    fun x hx π hπ => ?_, fun x hx π hπ => ?_, by rw [hcost]; omega, ?_⟩
  · obtain ⟨hne, halloc, hnot⟩ := ((hmoves₂.step h).outside p hp).1
    refine ⟨hne, by rw [Allocated, hpmm]; exact halloc, ?_⟩
    rintro ⟨r', π, hπ, hq⟩
    exact hnot ⟨r', π, hπ, (node_congr hmem hπ).symm.trans hq⟩
  · refine absurd ⟨hflags, ?_⟩ hnot
    rw [SamePage, if_neg (by simp [hflags])] at hin
    rw [hugePage_congr (congrArg (List.take 3) hin), hhuge]
  · refine h.noTable_of_tables hr hwf' hflags hhuge' (fun π hπ => ?_) hx hπ
    rw [htable' _ hπ, htable _ hπ, hhuge]
    simp
  · rw [replacedPaths_normal hflags] at hπ
    cases hπ
  · rw [hpmm, hcost, pageOldTables_normal hflags, Nat.mul_zero]
    exact hused

/-- `pmap_map_page` for a normal page where no huge page is mapped. -/
theorem Wf.mapPage_normal_budget (hflags : hasProt flags protHuge = false)
    (hhuge : s.hugePage r va = false) (pa : Addr) :
    ∃ ok s', s.pmapMapPage r va pa flags = (ok, s') ∧
      ((ok = true ∧ PageMapped F back left r flags va pa s s') ∨
        ok = false ∧ s'.Wf F ∧ SameLeaves F s s' ∧ left s.pmm < s.pageTables r flags va) := by
  obtain ⟨t, s₂, hmoves₂, hsame₂, heq, hcases⟩ := h.mapPage_upper hleft hr hva
  have hwf₂ := (hmoves₂.step h).wf
  have hnot : ∀ e ρ, s.leaf r va = some (e, ρ) → ρ = [] := by
    intro e ρ hfound
    cases ρ with
    | nil => rfl
    | cons i ρ =>
        rw [Bool.eq_false_iff] at hhuge
        exact absurd ((h.hugePage_iff hr hva).mpr ⟨e, i, ρ, hfound⟩) hhuge
  obtain ⟨ok, s', heq', hmoves, -, hleaf⟩ := h.mapPage hr hva hflags hnot pa
  have hcost := @Wf.pageTables_eq _ _ _ s F r va flags h hr hva
  have hthree := h.noTable_take_three hr hva
  simp only [hflags, Bool.false_eq_true, if_false, hthree, hhuge, and_true] at hcost
  refine ⟨ok, s', heq', ?_⟩
  rw [heq] at heq'
  rcases hcases with ⟨rfl, hlt⟩ | ⟨pd, rfl, hpd, htable, hused⟩
  · obtain ⟨rfl, rfl⟩ := Prod.mk.inj heq'
    exact Or.inr ⟨rfl, hwf₂, hsame₂, by omega⟩
  simp only [hflags, Bool.false_eq_true, if_false] at heq'
  have hπ₃ : F.Has r ((path va).take 2 ++ [pdIndex va]) := h.has_take hr hva (d := 3) (by omega)
  have hhuge₂ : s₂.hugePage r va = false := by
    rw [← hhuge, Bool.eq_iff_iff, hwf₂.hugePage_iff hr hva, h.hugePage_iff hr hva,
      hsame₂ r hr va hva]
  obtain ⟨t₃, s₃, heq₃, hmoves₃, hsame₃, hcases₃⟩ := hwf₂.nextTable_budget hleft .pd hπ₃ hpd (by
    intro hpresent
    rw [hugePage_of_table hpd, hpresent, Bool.true_and] at hhuge₂
    exact hhuge₂)
  have hwf₃ := (hmoves₃.step hwf₂).wf
  have hthird : s₂.table r ((path va).take 2 ++ [pdIndex va]) = none ↔
      s.table r ((path va).take 3) = none := by
    rw [htable _ hπ₃]
    exact and_iff_left (by simp [path])
  rw [heq₃] at heq'
  rcases hcases₃ with ⟨rfl, hnone₃, hzero⟩ | ⟨pt, rfl, hpt, htable₃, hused₃⟩
  · obtain ⟨rfl, rfl⟩ := Prod.mk.inj heq'
    refine Or.inr ⟨rfl, hwf₃, hsame₂.trans hsame₃, ?_⟩
    rw [if_pos (hthird.mp hnone₃)] at hcost
    omega
  obtain ⟨rfl, rfl⟩ := Prod.mk.inj heq'
  have hwf' := (hmoves.step h).wf
  have hhuge' : ∀ x, pml4Index x ∈ F.top →
      (s₃.store .pt pt (ptIndex va) (pageEntry pa flags)).hugePage r x = s.hugePage r x := by
    intro x hx
    rw [Bool.eq_iff_iff, hwf'.hugePage_iff hr hx, h.hugePage_iff hr hx, hleaf rfl r hr x hx]
    split
    next hin =>
      refine iff_of_false (fun hfound => ?_) fun hfound => ?_
      · obtain ⟨e, i, ρ, hfound⟩ := hfound
        cases hfound
      · obtain ⟨e, i, ρ, hfound⟩ := hfound
        rw [leaf, hin.2, ← leaf] at hfound
        cases hnot _ _ hfound
    next => rfl
  -- the store is below the tables
  have htable' : ∀ π, F.Has r π →
      (s₃.store .pt pt (ptIndex va) (pageEntry pa flags)).table r π = s₃.table r π := by
    intro π hπ
    apply node_write_of_not_through hwf₃.sep hπ₃ hpt hπ
    rintro ⟨-, hprefix⟩
    have hle := hprefix.length_le
    have hlen := hπ.2.1
    rw [h.depth] at hlen
    simp only [path, List.take_succ_cons, List.take_zero, List.length_append, List.length_cons,
      List.length_nil] at hle
    omega
  rw [if_congr hthird rfl rfl] at hused₃
  refine Or.inl ⟨rfl, hwf', fun p hp => ((hmoves.step h).outside p hp).1, fun x hx hin _ => ?_,
    fun x hx hout => ?_, fun x hx π hπ => ?_, fun x hx π hπ => ?_, by rw [hcost]; omega, ?_⟩
  · rw [SamePage, if_neg (by simp [hflags])] at hin
    rw [hleaf rfl r hr x hx, if_pos ⟨rfl, hin⟩, mappedLeaf, if_neg (by simp [hflags])]
  · rw [hleaf rfl r hr x hx, if_neg]
    rintro ⟨-, hin⟩
    rcases hout with hout | hover
    · rw [SamePage, if_neg (by simp [hflags])] at hout
      exact hout hin
    · have := hover.2
      rw [hugePage_congr (congrArg (List.take 3) hin), hhuge] at this
      cases this
  · refine h.noTable_of_tables hr hwf' hflags hhuge' (fun π hπ => ?_) hx hπ
    rw [htable' _ hπ, htable₃ _ hπ, htable _ hπ, and_assoc]
    exact and_congr_right fun _ => and_congr_right fun _ => ⟨fun hne _ => hne, fun hne => hne hhuge⟩
  · rw [replacedPaths_normal hflags] at hπ
    cases hπ
  · have hpmm : (s₃.store .pt pt (ptIndex va) (pageEntry pa flags)).pmm = s₃.pmm := rfl
    rw [hpmm, hcost, pageOldTables_normal hflags, Nat.mul_zero]
    omega

/-- `pmap_map_page`. -/
theorem Wf.mapPage_budget
    (hapart : hasProt flags protHuge = false → ∀ e i, s.leaf r va = some (e, [i]) →
      s.Outside F e.addr) (pa : Addr) :
    ∃ ok s', s.pmapMapPage r va pa flags = (ok, s') ∧
      ((ok = true ∧ PageMapped F back left r flags va pa s s') ∨
        ok = false ∧ s'.Wf F ∧ SameLeaves F s s' ∧ left s.pmm < s.pageTables r flags va) := by
  cases hflags : hasProt flags protHuge with
  | true => exact h.mapPage_huge_budget hleft hr hva hflags pa
  | false =>
      cases hhuge : s.hugePage r va with
      | true => exact h.mapPage_overlaid hleft hr hva hflags hhuge (hapart hflags) pa
      | false => exact h.mapPage_normal_budget hleft hr hva hflags hhuge pa

end Budget

/-! ### The loop

The pages are mapped in order until one finds no table. How many tables the first `n` pages need
depends on which they share, so they are counted as sets of paths; the count for a longer range
splits off its first page. -/

/-- The elements of the first set do not count afterwards. -/
theorem card_biUnion_filter_succ {α : Type*} [DecidableEq α] {P : ℕ → Finset α} {p p' : α → Bool}
    {n : ℕ} (h : ∀ k < n, ∀ a ∈ P (k + 1), (p' a = true ↔ p a = true ∧ a ∉ P 0)) :
    ((Finset.range (n + 1)).biUnion fun k => (P k).filter fun a => p a).card =
      ((P 0).filter fun a => p a).card +
        ((Finset.range n).biUnion fun k => (P (k + 1)).filter fun a => p' a).card := by
  -- the right hand side counts a disjoint union: what is in `P 0`, and what is not but comes later
  rw [← Finset.card_union_of_disjoint]
  · congr 1
    ext a
    simp only [Finset.mem_biUnion, Finset.mem_union, Finset.mem_filter, Finset.mem_range]
    constructor
    · rintro ⟨k, hk, ha, hp⟩
      by_cases hfirst : a ∈ P 0
      · exact Or.inl ⟨hfirst, hp⟩
      · cases k with
        | zero => exact absurd ha hfirst
        | succ k => exact Or.inr ⟨k, by omega, ha, (h k (by omega) a ha).mpr ⟨hp, hfirst⟩⟩
    · rintro (⟨ha, hp⟩ | ⟨k, hk, ha, hp⟩)
      · exact ⟨0, by omega, ha, hp⟩
      · exact ⟨k + 1, by omega, ha, ((h k hk a ha).mp hp).1⟩
  · rw [Finset.disjoint_left]
    intro a ha ha'
    simp only [Finset.mem_biUnion, Finset.mem_filter, Finset.mem_range] at ha ha'
    obtain ⟨k, hk, ha', hp⟩ := ha'
    exact ((h k hk a ha').mp hp).2 ha.1

/-- The allocator has the tables for the first `n` pages from `va` on. -/
def HasRoom (back : ℕ) (left : σ → ℕ) (s : PmState σ) (root : Addr) (flags : BitVec 32) (va : Addr)
    (n : ℕ) : Prop :=
  ∀ j < n, s.newTables root flags va (j + 1) ≤ left s.pmm + back * s.oldTables root flags va j

section Loop

variable {back : ℕ} {left : σ → ℕ} {n : ℕ} {ok : Bool}

/-- The tables for the pages after the first one. -/
theorem PageMapped.newTables_succ (hpage : PageMapped F back left r flags va pa s s₁)
    (hpages : ∀ k < n, pml4Index (pageAt flags va (k + 1)) ∈ F.top) :
    s.newTables r flags va (n + 1) =
      s.pageTables r flags va + s₁.newTables r flags (va + mapStep flags) n := by
  have hcard := @card_biUnion_filter_succ _ _ (fun k => tablePaths flags (pageAt flags va k))
    (s.noTable r) (s₁.noTable r) n fun k hk π hπ => by
      rw [pageAt_zero]
      exact hpage.tables _ (hpages k hk) π hπ
  simp only [pageAt_zero, pageAt_succ] at hcard
  exact hcard

/-- The tables that the pages after the first one take the place of. -/
theorem PageMapped.oldTables_succ (hpage : PageMapped F back left r flags va pa s s₁)
    (hpages : ∀ k < n, pml4Index (pageAt flags va (k + 1)) ∈ F.top) :
    s.oldTables r flags va (n + 1) =
      s.pageOldTables r flags va + s₁.oldTables r flags (va + mapStep flags) n := by
  have hcard := @card_biUnion_filter_succ _ _ (fun k => replacedPaths flags (pageAt flags va k))
    (fun π => (s.table r π).isSome) (fun π => (s₁.table r π).isSome) n fun k hk π hπ => by
      rw [pageAt_zero]
      exact hpage.replaced _ (hpages k hk) π hπ
  simp only [pageAt_zero, pageAt_succ] at hcard
  exact hcard

omit [PageAllocator σ] [LawfulPageAllocator σ] in
/-- For one page the tables of the range are those of the page. -/
theorem newTables_one {root : Addr} :
    s.newTables root flags va (0 + 1) = s.pageTables root flags va := by
  rw [newTables, Finset.range_one, Finset.singleton_biUnion, pageAt_zero]
  rfl

/-- Whether there are tables for a page does not depend on where one starts to count. -/
theorem PageMapped.hasRoom_succ (hpage : PageMapped F back left r flags va pa s s₁)
    (hpages : ∀ k < n, pml4Index (pageAt flags va (k + 1)) ∈ F.top) :
    HasRoom back left s r flags va (n + 1) ↔
      HasRoom back left s₁ r flags (va + mapStep flags) n := by
  have hleft := hpage.left
  -- one page mapped moves the same number from the demand to the supply, on both sides of the bound
  have hstep : ∀ j < n, (s.newTables r flags va (j + 1 + 1) ≤
      left s.pmm + back * s.oldTables r flags va (j + 1) ↔
      s₁.newTables r flags (va + mapStep flags) (j + 1) ≤
        left s₁.pmm + back * s₁.oldTables r flags (va + mapStep flags) j) := by
    intro j hj
    rw [hpage.newTables_succ fun k hk => hpages k (by omega),
      hpage.oldTables_succ fun k hk => hpages k (by omega), Nat.mul_add]
    omega
  refine ⟨fun hroom j hj => (hstep j hj).mp (hroom (j + 1) (by omega)), fun hroom j hj => ?_⟩
  cases j with
  | zero =>
      -- the first page alone: the turn has found room for it
      rw [newTables_one]
      exact hpage.enough.trans (Nat.le_add_right _ _)
  | succ j => exact (hstep j (by omega)).mpr (hroom j (by omega))

/-- A page that was mapped had room for its tables. -/
theorem PageMapped.hasRoom_one (hpage : PageMapped F back left r flags va pa s s₁) :
    HasRoom back left s r flags va (0 + 1) :=
  (hpage.hasRoom_succ fun k hk => absurd hk (Nat.not_lt_zero k)).mpr
    fun j hj => absurd hj (Nat.not_lt_zero j)

/-- Mapping a page overlays no other range with a huge page. -/
theorem PageMapped.overlaid_iff (hr : r ∈ F.roots) (h : s.Wf F)
    (hpage : PageMapped F back left r flags va pa s s₁) {x : Addr} (hx : pml4Index x ∈ F.top) :
    s₁.Overlaid r flags x ↔ s.Overlaid r flags x := by
  apply and_congr_right
  intro hflags
  rw [hpage.wf.hugePage_iff hr hx]
  by_cases hin : SamePage flags va x ∧ ¬ s.Overlaid r flags x
  · rw [hpage.inside x hx hin.1 hin.2, mappedLeaf, if_neg (by simp [hflags])]
    refine iff_of_false ?_ fun hhuge => hin.2 ⟨hflags, hhuge⟩
    rintro ⟨e, i, ρ, hfound⟩
    cases hfound
  · rw [not_and_or, not_not] at hin
    rw [hpage.rest x hx hin, h.hugePage_iff hr hx]

/-- What `pmap_map` does when it sets out to map the `n` pages from `va` on to `pa` and what comes
after it: the pages for which there are tables are mapped. -/
structure RangeMapped (F : Shape Addr (BitVec 9)) (back : ℕ) (left : σ → ℕ) (r : Addr)
    (flags : BitVec 32) (va pa : Addr) (n : ℕ) (ok : Bool) (s s' : PmState σ) : Prop where
  wf : s'.Wf F
  ok_iff : ok = true ↔ HasRoom back left s r flags va n
  inside : ∀ x, pml4Index x ∈ F.top → ¬ s.Overlaid r flags x → ∀ k < n,
    HasRoom back left s r flags va (k + 1) → SamePage flags (pageAt flags va k) x →
    (∀ j < n, k < j → HasRoom back left s r flags va (j + 1) →
      ¬ SamePage flags (pageAt flags va j) x) →
    s'.leaf r x = some (mappedLeaf flags (pageAt flags pa k) x)
  rest : ∀ x, pml4Index x ∈ F.top → (s.Overlaid r flags x ∨ ∀ k < n,
    HasRoom back left s r flags va (k + 1) → ¬ SamePage flags (pageAt flags va k) x) →
    s'.leaf r x = s.leaf r x

/-- A page and then the rest of the range. -/
theorem RangeMapped.cons (hr : r ∈ F.roots) (h : s.Wf F)
    (hpages : ∀ k < n, pml4Index (pageAt flags va (k + 1)) ∈ F.top)
    (hpage : PageMapped F back left r flags va pa s s₁)
    (hrest : RangeMapped F back left r flags (va + mapStep flags) (pa + mapStep flags) n ok s₁ s') :
    RangeMapped F back left r flags va pa (n + 1) ok s s' := by
  -- there is room for the rest of the range when there was room for all of it
  have hroom : ∀ k < n, (HasRoom back left s r flags va (k + 1 + 1) ↔
      HasRoom back left s₁ r flags (va + mapStep flags) (k + 1)) :=
    fun k hk => hpage.hasRoom_succ fun j hj => hpages j (by omega)
  refine ⟨hrest.wf, ?_, fun x hx hnot k hk hinstalled hin hlast => ?_, fun x hx hout => ?_⟩
  · rw [hrest.ok_iff, hpage.hasRoom_succ hpages]
  · have hnot₁ := (not_congr (hpage.overlaid_iff hr h hx)).mpr hnot
    -- the last page that covers the address is this one, or one of the rest
    cases k with
    | zero =>
        rw [pageAt_zero] at hin
        rw [hrest.rest x hx, hpage.inside x hx hin hnot, pageAt_zero]
        apply Or.inr
        intro j hj hinstalled'
        rw [← pageAt_succ]
        exact hlast (j + 1) (by omega) (by omega) ((hroom j hj).mpr hinstalled')
    | succ k =>
        rw [pageAt_succ] at hin ⊢
        refine hrest.inside x hx hnot₁ k (by omega) ((hroom k (by omega)).mp hinstalled) hin
          fun j hj hlt hinstalled' => ?_
        rw [← pageAt_succ]
        exact hlast (j + 1) (by omega) (by omega) ((hroom j hj).mpr hinstalled')
  -- the other addresses keep their leaves in both steps
  · rcases hout with hover | hout
    · rw [hrest.rest x hx (Or.inl ((hpage.overlaid_iff hr h hx).mpr hover)),
        hpage.rest x hx (Or.inr hover)]
    · have hfirst : ¬ SamePage flags va x := by
        rw [← pageAt_zero flags va]
        exact hout 0 (by omega) hpage.hasRoom_one
      rw [hrest.rest x hx, hpage.rest x hx (Or.inl hfirst)]
      apply Or.inr
      intro k hk hinstalled
      rw [← pageAt_succ]
      exact hout (k + 1) (by omega) ((hroom k hk).mpr hinstalled)

/-- A range that stops at its first page, for want of a table. -/
theorem RangeMapped.fail (hr : r ∈ F.roots) (h' : s'.Wf F) (hsame : SameLeaves F s s')
    (hlt : left s.pmm < s.pageTables r flags va) (n : ℕ) :
    RangeMapped F back left r flags va pa (n + 1) false s s' := by
  have hnot : ∀ k, ¬ HasRoom back left s r flags va (k + 1) := by
    intro k hroom
    have hfirst := hroom 0 (by omega)
    rw [newTables_one, oldTables, Finset.range_zero, Finset.biUnion_empty, Finset.card_empty,
      Nat.mul_zero] at hfirst
    omega
  exact ⟨h', iff_of_false Bool.false_ne_true (hnot n),
    fun x _ _ k _ hinstalled => absurd hinstalled (hnot k), fun x hx _ => hsame r hr x hx⟩

omit [PageAllocator σ] [LawfulPageAllocator σ] in
/-- The pages of a range are inside of it. -/
theorem pageAt_mem {vaEnd : Addr} {k : ℕ}
    (hk : k < (vaEnd.toNat - va.toNat) / (mapStep flags).toNat) :
    va ≤ pageAt flags va k ∧ pageAt flags va k < vaEnd := by
  have hpos : 0 < (mapStep flags).toNat := by
    rw [toNat_mapStep]
    split <;> decide
  -- the multiples of the step below the length stay below `2 ^ 64`, so that no addition wraps
  have hlt : k * (mapStep flags).toNat < vaEnd.toNat - va.toNat := by
    have := (Nat.le_div_iff_mul_le hpos).mp hk
    rw [Nat.succ_mul] at this
    omega
  have htoNat : (pageAt flags va k).toNat = va.toNat + k * (mapStep flags).toNat := by
    have hbound := vaEnd.isLt
    have hk' : k < 2 ^ 64 := lt_of_le_of_lt (Nat.le_mul_of_pos_right k hpos) (by omega)
    rw [pageAt, BitVec.toNat_add, BitVec.toNat_mul, BitVec.toNat_ofNat, Nat.mod_eq_of_lt hk',
      Nat.mod_eq_of_lt (by omega : k * (mapStep flags).toNat < 2 ^ 64), Nat.mod_eq_of_lt (by omega)]
  rw [BitVec.le_def, BitVec.lt_def, htoNat]
  omega

/-- The loop of `pmap_map`. -/
theorem Wf.mapLoop_range (hleft : Budget back left) (hr : r ∈ F.roots) {vaEnd : Addr}
    (hend : (mapStep flags).toNat ∣ vaEnd.toNat) (fuel : ℕ) (h : s.Wf F)
    (hva : (mapStep flags).toNat ∣ va.toNat) (htop : InTop F va vaEnd)
    (hapart : hasProt flags protHuge = false → ∀ x, va ≤ x → x < vaEnd →
      ∀ e i, s.leaf r x = some (e, [i]) → s.Outside F e.addr)
    (hloop : PmState.mapLoop r vaEnd (mapStep flags) flags fuel va pa s = some (ok, s')) :
    RangeMapped F back left r flags va pa
      ((vaEnd.toNat - va.toNat) / (mapStep flags).toNat) ok s s' := by
  induction fuel generalizing s va pa with
  | zero => cases hloop
  | succ fuel ih =>
      rw [PmState.mapLoop] at hloop
      split at hloop
      next hlt =>
        have hlt' := BitVec.lt_def.mp hlt
        have hnext := toNat_add_step hend hva hlt
        have hle : ∀ x, va + mapStep flags ≤ x → va ≤ x := by
          intro x hx
          rw [BitVec.le_def] at hx ⊢
          omega
        have hdvd : (mapStep flags).toNat ∣ (va + mapStep flags).toNat := by
          rw [hnext]
          exact Nat.dvd_add hva dvd_rfl
        have hcount : (vaEnd.toNat - va.toNat) / (mapStep flags).toNat =
            (vaEnd.toNat - (va + mapStep flags).toNat) / (mapStep flags).toNat + 1 := by
          have hpos : 0 < (mapStep flags).toNat := by
            rw [toNat_mapStep]
            split <;> decide
          have hbound : (mapStep flags).toNat ≤ vaEnd.toNat - va.toNat :=
            Nat.le_of_dvd (by omega) (Nat.dvd_sub hend hva)
          rw [hnext, ← Nat.sub_sub, Nat.div_eq_sub_div hpos hbound]
        obtain ⟨ok₁, s₁, heq, hcases⟩ := h.mapPage_budget hleft hr (htop va (BitVec.le_refl va) hlt)
          (fun hflags => hapart hflags va (BitVec.le_refl va) hlt) pa
        rw [heq] at hloop
        rw [hcount]
        rcases hcases with ⟨rfl, hpage⟩ | ⟨rfl, hwf₁, hsame, hfull⟩
        · refine .cons hr h (fun k hk => ?_) hpage (ih hpage.wf hdvd
            (fun x hx hxlt => htop x (hle x hx) hxlt) (fun hflags x hx hxlt e i hfound => ?_) hloop)
          · rw [pageAt_succ]
            obtain ⟨hin, hinlt⟩ := pageAt_mem hk
            exact htop _ (hle _ hin) hinlt
          · -- a huge page that is there now was there before
            have hx' := htop x (hle x hx) hxlt
            refine hpage.outside _ (hapart hflags x (hle x hx) hxlt e i ?_)
            by_cases hin : SamePage flags va x ∧ ¬ s.Overlaid r flags x
            · rw [hpage.inside x hx' hin.1 hin.2, mappedLeaf, if_neg (by simp [hflags])] at hfound
              cases hfound
            · rw [not_and_or, not_not] at hin
              rw [← hpage.rest x hx' hin, hfound]
        · obtain ⟨rfl, rfl⟩ := Prod.mk.inj (Option.some.inj hloop)
          exact .fail hr hwf₁ hsame hfull _
      next hlt =>
        obtain ⟨rfl, rfl⟩ := Prod.mk.inj (Option.some.inj hloop)
        have hzero : vaEnd.toNat - va.toNat = 0 := by
          rw [BitVec.lt_def] at hlt
          omega
        rw [hzero, Nat.zero_div]
        exact ⟨h, iff_of_true rfl fun j hj => absurd hj (Nat.not_lt_zero j),
          fun x _ _ k hk => absurd hk (Nat.not_lt_zero k), fun _ _ _ => rfl⟩

end Loop

/-! ### The call

Every page before the first one that fails stays mapped, since the call does not undo anything. So a
failing call changes no translation if and only if those pages were mapped already as it would have
mapped them. -/

/-- There are tables for the `k`-th page of the range, and for those before it. -/
def HasTables (back : ℕ) (left : σ → ℕ) (s : PmState σ) (root virt size : Addr) (flags : BitVec 32)
    (k : ℕ) : Prop :=
  k < mapCount flags virt size ∧ HasRoom back left s root flags (mapStart flags virt) (k + 1)

/-- The pages for which there are tables are mapped already as the call would map them. -/
def MappedAlready (F : Shape Addr (BitVec 9)) (back : ℕ) (left : σ → ℕ) (s : PmState σ)
    (root virt phys size : Addr) (flags : BitVec 32) : Prop :=
  ∀ va, pml4Index va ∈ F.top → ¬ s.Overlaid root flags va → ∀ k,
    HasTables back left s root virt size flags k →
    SamePage flags (pageAt flags (mapStart flags virt) k) va →
    (∀ j, HasTables back left s root virt size flags j → k < j →
      ¬ SamePage flags (pageAt flags (mapStart flags virt) j) va) →
    s.pmapExtract root va = translation flags (pageAt flags (mapStart flags phys) k) va

section Call

variable {back : ℕ} {left : σ → ℕ} {fuel : ℕ} {ok : Bool} {virt phys size : Addr}

/-- `pmap_map` maps its range page by page, up to the first that finds no table. -/
theorem Wf.pmapMap_range (hleft : Budget back left) (h : s.Wf F) (hr : r ∈ F.roots)
    (hsize : size ≠ 0) (htop : InTop F (mapStart flags virt) (mapEnd flags virt size))
    (hapart : hasProt flags protHuge = false → ∀ x, mapStart flags virt ≤ x →
      x < mapEnd flags virt size → ∀ e i, s.leaf r x = some (e, [i]) → s.Outside F e.addr)
    (hmap : s.pmapMap fuel r virt phys size flags = some (ok, s')) :
    RangeMapped F back left r flags (mapStart flags virt) (mapStart flags phys)
      (mapCount flags virt size) ok s s' := by
  have hdvd : ∀ x : Addr, (mapStep flags).toNat ∣ (x &&& ~~~(mapStep flags - 1)).toNat := by
    intro x
    rw [toNat_round]
    exact Nat.dvd_mul_left _ _
  rw [PmState.pmapMap, if_neg hsize] at hmap
  rw [mapCount, if_neg hsize]
  exact h.mapLoop_range hleft hr (hdvd _) fuel (hdvd _) htop hapart hmap

/-- The call fails where there are not enough pages for the tables. It changes no translation if and
only if the pages for which there are tables were mapped already as the call maps them. -/
theorem extract_eq_iff (hleft : Budget back left) (h : s.Wf F) (hr : r ∈ F.roots)
    (htop : size ≠ 0 → InTop F (mapStart flags virt) (mapEnd flags virt size))
    (hapart : hasProt flags protHuge = false → ∀ x, mapStart flags virt ≤ x →
      x < mapEnd flags virt size → ∀ e i, s.leaf r x = some (e, [i]) → s.Outside F e.addr)
    (hmap : s.pmapMap fuel r virt phys size flags = some (ok, s')) :
    (ok = false ↔ size = 0 ∨
      ¬ HasRoom back left s r flags (mapStart flags virt) (mapCount flags virt size)) ∧
    ((∀ va, pml4Index va ∈ F.top → s'.pmapExtract r va = s.pmapExtract r va) ↔
      MappedAlready F back left s r virt phys size flags) := by
  by_cases hsize : size = 0
  · rw [PmState.pmapMap, if_pos hsize] at hmap
    obtain ⟨rfl, rfl⟩ := Prod.mk.inj (Option.some.inj hmap)
    refine ⟨iff_of_true rfl (Or.inl hsize), iff_of_true (fun _ _ => rfl) fun va _ _ k hk => ?_⟩
    have := hk.1
    rw [mapCount, if_pos hsize] at this
    exact absurd this (Nat.not_lt_zero k)
  have hrange := h.pmapMap_range hleft hr hsize (htop hsize) hapart hmap
  refine ⟨?_, fun hsame va hva hnot k hk hin hlast => ?_, fun halready va hva => ?_⟩
  · rw [← Bool.not_eq_true, hrange.ok_iff, or_iff_right hsize]
  · rw [← hsame va hva]
    refine hrange.wf.extract_of_mappedLeaf hr hva (hrange.inside va hva hnot k hk.1 hk.2 hin ?_)
    exact fun j hj hlt hroom => hlast j ⟨hj, hroom⟩ hlt
  · by_cases hout : s.Overlaid r flags va ∨ ∀ k < mapCount flags virt size,
        HasRoom back left s r flags (mapStart flags virt) (k + 1) →
        ¬ SamePage flags (pageAt flags (mapStart flags virt) k) va
    · rw [hrange.wf.extract_eq hr hva, hrange.rest va hva hout, h.extract_eq hr hva]
    · push Not at hout
      obtain ⟨hnot, k, hk, hroom, hin⟩ := hout
      -- the last of the pages that the address is in
      obtain ⟨m, ⟨⟨hm, hroom'⟩, hin'⟩, hmax⟩ : ∃ m,
          (HasTables back left s r virt size flags m ∧
            SamePage flags (pageAt flags (mapStart flags virt) m) va) ∧
          ∀ j, HasTables back left s r virt size flags j ∧
            SamePage flags (pageAt flags (mapStart flags virt) j) va → j ≤ m := by
        classical
        let P : ℕ → Prop := fun j => HasTables back left s r virt size flags j ∧
          SamePage flags (pageAt flags (mapStart flags virt) j) va
        have hP : P k := ⟨⟨hk, hroom⟩, hin⟩
        exact ⟨_, Nat.findGreatest_spec hk.le hP, fun j hj => Nat.le_findGreatest hj.1.1.le hj⟩
      have hlast : ∀ j, HasTables back left s r virt size flags j → m < j →
          ¬ SamePage flags (pageAt flags (mapStart flags virt) j) va := by
        intro j hj hlt hsame
        have := hmax j ⟨hj, hsame⟩
        omega
      rw [halready va hva hnot m ⟨hm, hroom'⟩ hin' hlast]
      refine hrange.wf.extract_of_mappedLeaf hr hva (hrange.inside va hva hnot m hm hroom' hin' ?_)
      exact fun j hj hlt hroom => hlast j ⟨hj, hroom⟩ hlt

end Call

end PmState

end Koharu
