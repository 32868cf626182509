import Koharu.Arch.PmapStores

/-!
# What `pmap_unmap` clears

The loop of `pmap_unmap` advances by the size of the page it has met, from an address that need not
be at the beginning of that page. From inside a huge page it comes to the same place inside the next
2 MiB, and what lies there before this place is stepped over (`Skips`), unless it belongs to a huge
page that the loop meets as well. From the last huge page of the address space it comes to the
beginning of the address space (`Wraps`) and unmaps everything below the end of the range.

One call of `pmap_unmap_page` clears the page that its address is in, a huge one or not (`Clears`),
and `Unmaps` is the run of the loop, as a list of such calls. What an address in the range is
translated to afterwards depends on whether one of the calls is for its page. No address comes
between two calls after a normal page, and after a huge one only those before the same place in the
next 2 MiB do.

* `unmapLoop_returns`: the loop ends, whatever the tables are;
* `cleared_iff_not_skips`: a call clears its range exactly if every page in it has an address that
  is not stepped over.
-/

namespace Koharu

open Radix

namespace PmState

variable {σ : Type*}

/-- Where the loop of `pmap_unmap` starts. -/
def unmapStart (virt : Addr) : Addr := virt &&& ~~~0xFFF#64

/-- Where the loop of `pmap_unmap` ends. -/
def unmapEnd (virt size : Addr) : Addr := (virt + size + 0xFFF#64) &&& ~~~0xFFF#64

/-! ### Huge pages

Inside a huge page `pmap_unmap_page` clears all of it and the loop goes on 2 MiB later, so the
address it comes to need not be the start of a page. The order on stores that only clear entries is
what the loop's measure is built from. -/

/-- `pmap_unmap_page` takes the address to be in a huge page. -/
def hugePage (s : PmState σ) (root va : Addr) : Bool :=
  let e₄ := s.mem root (pml4Index va)
  let e₃ := s.mem e₄.addr (pdptIndex va)
  let e₂ := s.mem e₃.addr (pdIndex va)
  e₄.present && e₃.present && !e₃.huge && e₂.present && e₂.huge

/-- The address of the last page. -/
def lastPage : Addr := 0xFFFFFFFFFFFFF000#64

variable {s s' s₁ : PmState σ} {root va va' : Addr}

/-- Whether a huge page covers an address depends on the first three indices only. -/
theorem hugePage_congr (h : (path va').take 3 = (path va).take 3) :
    s.hugePage root va' = s.hugePage root va := by
  simp only [path, List.take_succ_cons, List.take_zero, List.cons.injEq, and_true] at h
  obtain ⟨h₄, h₃, h₂⟩ := h
  rw [hugePage, hugePage, h₄, h₃, h₂]

/-- The first three indices are those of the 2 MiB that the address is in. -/
theorem take_path_eq_iff : (path va').take 3 = (path va).take 3 ↔
    va'.toNat / 2 ^ 21 % 2 ^ 27 = va.toNat / 2 ^ 21 % 2 ^ 27 := by
  simp only [path, List.take_succ_cons, List.take_zero, List.cons.injEq, and_true,
    ← BitVec.toNat_inj, toNat_pml4Index, toNat_pdptIndex, toNat_pdIndex]
  omega

/-- Two addresses have the same path when they lie in the same page, the sixteen top bits aside. -/
theorem path_eq_iff_div : path va' = path va ↔
    va'.toNat / 2 ^ 12 % 2 ^ 36 = va.toNat / 2 ^ 12 % 2 ^ 36 := by
  simp only [path, List.cons.injEq, and_true, ← BitVec.toNat_inj, toNat_pml4Index,
    toNat_pdptIndex, toNat_pdIndex, toNat_ptIndex]
  omega

/-- Entries are changed to zero at most. -/
def Zeroed (s s' : PmState σ) : Prop :=
  ∀ p i, s'.mem p i = s.mem p i ∨ s'.mem p i = 0#64

/-- Nothing has been cleared yet. -/
theorem Zeroed.refl (s : PmState σ) : Zeroed s s := fun _ _ => Or.inl rfl

/-- Clearing twice is clearing. -/
theorem Zeroed.trans (h : Zeroed s s₁) (h' : Zeroed s₁ s') : Zeroed s s' := by
  intro p i
  rcases h' p i with heq | hzero
  · rw [heq]
    exact h p i
  · exact Or.inr hzero

/-- An entry that is still present is the one from before. -/
theorem Zeroed.eq_of_present (h : Zeroed s s') {p : Addr} {i : BitVec 9}
    (hpresent : (s'.mem p i).present = true) : s'.mem p i = s.mem p i := by
  rcases h p i with heq | hzero
  · exact heq
  · rw [hzero, Entry.present_zero] at hpresent
    cases hpresent

/-- Storing zero clears one entry. -/
theorem zeroed_store (s : PmState σ) (level : Level) (p : Addr) (i : BitVec 9) :
    Zeroed s (s.store level p i 0#64) := by
  intro q j
  rw [store_mem, write_apply]
  split
  · exact Or.inr rfl
  · exact Or.inl rfl

/-- No huge page comes up, and those that stay are mapped by the same entries. -/
theorem Zeroed.hugePage (h : Zeroed s s') (hhuge : s'.hugePage root va = true) :
    s.hugePage root va = true ∧
      s'.mem (s.mem (s.mem root (pml4Index va)).addr (pdptIndex va)).addr (pdIndex va) =
        s.mem (s.mem (s.mem root (pml4Index va)).addr (pdptIndex va)).addr (pdIndex va) := by
  simp only [PmState.hugePage, Bool.and_eq_true] at hhuge ⊢
  obtain ⟨⟨⟨⟨h₄, h₃⟩, hnot⟩, h₂⟩, hhuge⟩ := hhuge
  have heq₄ := h.eq_of_present h₄
  rw [heq₄] at h₄ h₃ hnot h₂ hhuge
  have heq₃ := h.eq_of_present h₃
  rw [heq₃] at h₃ hnot h₂ hhuge
  have heq₂ := h.eq_of_present h₂
  rw [heq₂] at h₂ hhuge
  exact ⟨⟨⟨⟨⟨h₄, h₃⟩, hnot⟩, h₂⟩, hhuge⟩, heq₂⟩

variable [PageAllocator σ]

/-- Taking an empty table out of the one above it clears one entry as well. -/
theorem zeroed_prune (s : PmState σ) (level : Level) (p q : Addr) (i : BitVec 9) :
    Zeroed s ((s.freePages q).store level p i 0#64) := zeroed_store (s.freePages q) level p i

/-- The pruning loop clears entries only. -/
theorem zeroed_teardown (s : PmState σ) (pml4 pdpt pd pt : Addr) (l4 l3 l2 : BitVec 9) :
    Zeroed s (s.teardown pml4 pdpt pd pt l4 l3 l2) := by
  have hpd := zeroed_prune s .pd pd (s.mem pd l2).addr l2
  rw [teardown]
  split
  · dsimp only
    split
    · apply hpd.trans
      split
      · exact (zeroed_prune _ .pdpt pdpt _ l3).trans (zeroed_prune _ .pml4 pml4 _ l4)
      · exact zeroed_prune _ .pdpt pdpt _ l3
    · exact hpd
  · exact .refl s

/-- Unmapping a page and pruning clear entries only. -/
theorem zeroed_storeTeardown (s : PmState σ) (pml4 pdpt pd pt : Addr) (l4 l3 l2 l1 : BitVec 9) :
    Zeroed s ((s.store .pt pt l1 0#64).teardown pml4 pdpt pd pt l4 l3 l2) :=
  (zeroed_store s .pt pt l1).trans (zeroed_teardown _ pml4 pdpt pd pt l4 l3 l2)

/-- How far `pmap_unmap_page` lets `pmap_unmap` advance, and that it clears a huge page it meets. -/
theorem pmapUnmapPage_spec (s : PmState σ) (root va : Addr) : ∃ s',
    s.pmapUnmapPage root va = (if s.hugePage root va then pageSizeHuge else pageSize, s') ∧
      Zeroed s s' ∧ (s.hugePage root va = true → s'.hugePage root va = false) := by
  by_cases hhuge : s.hugePage root va = true
  · have hhuge' := hhuge
    simp only [hugePage, Bool.and_eq_true, Bool.not_eq_true'] at hhuge
    obtain ⟨⟨⟨⟨h₄, h₃⟩, hnot⟩, h₂⟩, hhuge⟩ := hhuge
    have hzero := zeroed_store s .pd (s.mem (s.mem root (pml4Index va)).addr (pdptIndex va)).addr
      (pdIndex va)
    refine ⟨_, ?_, hzero, fun _ => ?_⟩
    · rw [if_pos hhuge', pmapUnmapPage]
      simp [h₄, h₃, hnot, h₂, hhuge]
    · rw [Bool.eq_false_iff]
      intro hstill
      -- the entry that was cleared would have to be the one that is there now
      have heq := (hzero.hugePage hstill).2
      rw [store_mem, write_apply, if_pos ⟨rfl, rfl⟩] at heq
      rw [← heq] at h₂
      cases h₂
  · refine ⟨(s.pmapUnmapPage root va).2, ?_, ?_, fun hhuge' => absurd hhuge' hhuge⟩
    · rw [if_neg hhuge]
      refine Prod.ext ?_ rfl
      simp only [hugePage, Bool.and_eq_true, Bool.not_eq_true'] at hhuge
      unfold pmapUnmapPage
      dsimp only
      split
      · rfl
      split
      · rfl
      split
      · rfl
      split
      next hpresent₄ hpresent₃ hpresent₂ hhuge₂ =>
        simp only [Bool.not_eq_true', Bool.not_eq_false, Bool.or_eq_true, not_or,
          Bool.not_eq_true] at hpresent₄ hpresent₃ hpresent₂
        exact absurd ⟨⟨⟨⟨hpresent₄, hpresent₃.1⟩, hpresent₃.2⟩, hpresent₂⟩, hhuge₂⟩ hhuge
      split
      · rfl
      · rfl
    · unfold pmapUnmapPage
      dsimp only
      split
      · exact .refl s
      split
      · exact .refl s
      split
      · exact .refl s
      split
      · exact zeroed_store _ _ _ _
      split
      · exact .refl s
      · dsimp only
        exact zeroed_storeTeardown s _ _ _ _ _ _ _ _

/-! ### The loop ends

The address alone is no measure: from the last 2 MiB it wraps around to zero. But it can wrap only
once, since the huge page there is cleared the first time and nothing is mapped in between. -/

/-- What the loop of `pmap_unmap` has left: it passes the end of the address space at most once,
because it clears the last huge page then. -/
def unmapMeasure (s : PmState σ) (root va vaEnd : Addr) : ℕ :=
  (if s.hugePage root lastPage then 2 ^ 64 else 0) + (vaEnd.toNat - va.toNat)

/-- The loop of `pmap_unmap` goes down: by a page, or by a huge page that is cleared and does not
come back. -/
theorem unmapMeasure_step (s : PmState σ) {vaEnd : Addr} (hva : 2 ^ 12 ∣ va.toNat)
    (hend : 2 ^ 12 ∣ vaEnd.toNat) (hlt : va < vaEnd) :
    ∃ advance s', s.pmapUnmapPage root va = (advance, s') ∧
      2 ^ 12 ∣ (va + advance).toNat ∧
      s'.unmapMeasure root (va + advance) vaEnd < s.unmapMeasure root va vaEnd := by
  obtain ⟨s', heq, hzero, hclears⟩ := s.pmapUnmapPage_spec root va
  refine ⟨_, s', heq, ?_, ?_⟩
  · rw [BitVec.toNat_add]
    split <;> simp only [pageSize, pageSizeHuge, BitVec.toNat_ofNat] <;> omega
  rw [BitVec.lt_def] at hlt
  -- huge pages only go away
  have hlast : s'.hugePage root lastPage = true → s.hugePage root lastPage = true :=
    fun h => (hzero.hugePage h).1
  rw [unmapMeasure, unmapMeasure]
  by_cases hwrap : s.hugePage root va = true ∧ 2 ^ 64 ≤ va.toNat + 2 ^ 21
  · have hsame : (path va).take 3 = (path lastPage).take 3 := by
      rw [take_path_eq_iff]
      simp only [lastPage, BitVec.toNat_ofNat]
      omega
    have hclear := hclears hwrap.1
    rw [hugePage_congr hsame] at hclear
    rw [hclear, ← hugePage_congr hsame, hwrap.1]
    have := vaEnd.isLt
    simp only [Bool.false_eq_true, if_false, if_true]
    omega
  · have hnext : (va + if s.hugePage root va then pageSizeHuge else pageSize).toNat =
        va.toNat + (if s.hugePage root va then pageSizeHuge else pageSize).toNat := by
      rw [BitVec.toNat_add, Nat.mod_eq_of_lt]
      split
      next hhuge =>
        have := not_and.mp hwrap hhuge
        show va.toNat + 2 ^ 21 < 2 ^ 64
        omega
      next =>
        have := vaEnd.isLt
        show va.toNat + 2 ^ 12 < 2 ^ 64
        omega
    have hpos : 0 < (if s.hugePage root va then pageSizeHuge else pageSize).toNat := by
      split <;> decide
    have hle : (if s'.hugePage root lastPage = true then 2 ^ 64 else 0) ≤
        if s.hugePage root lastPage = true then 2 ^ 64 else 0 := by
      split
      next hhuge => rw [if_pos (hlast hhuge)]
      next => exact Nat.zero_le _
    rw [hnext]
    omega

/-- The loop of `pmap_unmap` ends, whatever the tables are. -/
theorem unmapLoop_returns {vaEnd : Addr} (root : Addr) (hend : 2 ^ 12 ∣ vaEnd.toNat) (fuel : ℕ)
    {va : Addr} (s : PmState σ) (hva : 2 ^ 12 ∣ va.toNat)
    (hfuel : s.unmapMeasure root va vaEnd < fuel) :
    ∃ s', unmapLoop root vaEnd fuel va s = some s' := by
  induction fuel generalizing s va with
  | zero => exact absurd hfuel (Nat.not_lt_zero _)
  | succ fuel ih =>
      rw [unmapLoop]
      split
      next hlt =>
        obtain ⟨advance, s₁, heq, hnext, hdecreases⟩ := s.unmapMeasure_step hva hend hlt
        rw [heq]
        exact ih s₁ hnext (by omega)
      next => exact ⟨s, rfl⟩

/-- A bound on the iterations of `pmap_unmap` that serves all states. -/
theorem pmapUnmap_returns (s : PmState σ) (root virt size : Addr) {fuel : ℕ}
    (hfuel : 2 ^ 65 ≤ fuel) : ∃ s', s.pmapUnmap fuel root virt size = some s' := by
  by_cases hsize : size = 0
  · exact ⟨s, by rw [pmapUnmap, if_pos hsize]⟩
  · have hdvd : ∀ x : Addr, 2 ^ 12 ∣ (x &&& ~~~0xFFF#64).toNat := by
      intro x
      rw [toNat_roundDown]
      exact Nat.dvd_mul_left _ _
    rw [pmapUnmap, if_neg hsize]
    apply unmapLoop_returns root (hdvd _) fuel s (hdvd _)
    unfold unmapMeasure
    have := ((virt + size + 0xFFF#64) &&& ~~~0xFFF#64).isLt
    split <;> omega

/-! ### One page

Which addresses lose their translation when one page is unmapped, for both sizes of pages. -/

/-- `pmap_unmap_page` for `va` clears the page that `va'` is in. -/
def Clears (s : PmState σ) (root va va' : Addr) : Prop :=
  if s.hugePage root va then (path va').take 3 = (path va).take 3 else path va' = path va

omit [PageAllocator σ] in
/-- The entry cleared for `va` covers `va'`, so the first three indices of both agree. -/
theorem Clears.take (h : s.Clears root va va') : (path va').take 3 = (path va).take 3 := by
  rw [Clears] at h
  split at h
  · exact h
  · rw [h]

variable [LawfulPageAllocator σ] {F : Shape Addr (BitVec 9)}

section Page

variable (h : s.Wf F) (hr : root ∈ F.roots) (hva : pml4Index va ∈ F.top)

include h hr hva

/-- A huge page covers an address exactly when its leaf is found before the last level. -/
theorem Wf.hugePage_iff :
    s.hugePage root va = true ↔ ∃ e i ρ, s.leaf root va = some (e, i :: ρ) := by
  -- how far `pmap_unmap_page` advances tells which of the three ways the walk ends in
  have hadvance : (s.pmapUnmapPage root va).1 =
      if s.hugePage root va then pageSizeHuge else pageSize := by
    obtain ⟨s', heq, -⟩ := s.pmapUnmapPage_spec root va
    rw [heq]
  have hne : pageSize ≠ pageSizeHuge := by decide
  rcases h.walk_cases hr hva with ⟨hleaf, -, heq⟩ | ⟨pd, -, -, hleaf, -, heq⟩ |
    ⟨pdpt, pd, pt, -, -, -, hleaf, -, heq⟩
  · rw [heq] at hadvance
    rw [hleaf]
    constructor
    · intro hhuge
      rw [if_pos hhuge] at hadvance
      exact absurd hadvance hne
    · rintro ⟨e, i, ρ, hsome⟩
      cases hsome
  · rw [heq] at hadvance
    refine ⟨fun _ => ⟨_, _, _, hleaf⟩, fun _ => ?_⟩
    by_contra hhuge
    rw [if_neg hhuge] at hadvance
    exact hne hadvance.symm
  · rw [heq] at hadvance
    rw [hleaf]
    constructor
    · intro hhuge
      rw [if_pos hhuge] at hadvance
      exact absurd hadvance hne
    · rintro ⟨e, i, ρ, hsome⟩
      cases hsome

/-- `pmap_unmap_page`, for pages of both sizes. -/
theorem Wf.unmapPage_clears : ∃ s',
    s.pmapUnmapPage root va = (if s.hugePage root va then pageSizeHuge else pageSize, s') ∧
      s'.Wf F ∧ (∀ va', pml4Index va' ∈ F.top → s.Clears root va va' → s'.leaf root va' = none) ∧
      ∀ va', pml4Index va' ∈ F.top → ¬ s.Clears root va va' →
        s'.leaf root va' = s.leaf root va' := by
  obtain ⟨advance, s', heq, hmoves, -, hplain⟩ := h.unmapPage hr hva
  obtain ⟨s'', heq', -, -⟩ := s.pmapUnmapPage_spec root va
  obtain ⟨rfl, rfl⟩ : advance = _ ∧ s' = s'' := Prod.mk.inj (heq.symm.trans heq')
  refine ⟨s', heq', (hmoves.step h).wf, ?_⟩
  by_cases hhuge : s.hugePage root va = true
  swap
  · obtain ⟨-, hleaf⟩ := hplain fun e ρ hfound => by
      cases ρ with
      | nil => rfl
      | cons i ρ => exact absurd ((h.hugePage_iff hr hva).mpr ⟨e, i, ρ, hfound⟩) hhuge
    refine ⟨fun va' hva' hclears => ?_, fun va' hva' hclears => ?_⟩
    · rw [Clears, if_neg hhuge] at hclears
      rw [hleaf root hr va' hva', if_pos ⟨rfl, hclears⟩]
    · rw [Clears, if_neg hhuge] at hclears
      rw [hleaf root hr va' hva', if_neg fun hsame => hclears hsame.2]
  -- the entry of the page directory is stored to
  obtain ⟨e, i, ρ, hfound⟩ := (h.hugePage_iff hr hva).mp hhuge
  rcases h.walk_cases hr hva with ⟨hleaf, -, -⟩ | ⟨pd, hpd, -, hleaf, -, hstore⟩ |
    ⟨pdpt, pd, pt, -, -, -, hleaf, -, -⟩
  · rw [hleaf] at hfound
    cases hfound
  swap
  · rw [hleaf] at hfound
    cases hfound
  obtain ⟨-, rfl⟩ := Prod.mk.inj (heq.symm.trans hstore)
  have hπ₂ : F.Has root [pml4Index va, pdptIndex va] := h.has_path hr hva _ ⟨_, rfl, by simp⟩
  have htake : ∀ va' : Addr, (path va').take 3 = (path va).take 3 ↔
      [pml4Index va, pdptIndex va] ++ [pdIndex va] <+: path va' := by
    intro va'
    rw [List.prefix_iff_eq_take]
    exact eq_comm
  refine ⟨fun va' hva' hclears => ?_, fun va' hva' hclears => ?_⟩
  · rw [Clears, if_pos hhuge, htake] at hclears
    obtain ⟨ρ', hρ⟩ := hclears
    have hpath : path va' = [pml4Index va, pdptIndex va] ++ pdIndex va :: ρ' := by
      rw [← hρ, List.append_assoc, List.singleton_append]
    rw [h.leaf_store_of_through hπ₂ hpd hpath]
    exact findFrom_of_not_present Entry.present_zero _
  · rw [Clears, if_pos hhuge, htake] at hclears
    exact h.leaf_store_of_not_through hπ₂ hpd hr hva' fun hthrough => hclears hthrough.2

end Page

/-! ### The loop

A run of the loop is a chain of `Advance` steps. For each address one asks whether some step cleared
it; the steps jump over an address exactly when they land inside a huge page that ends before it. -/

/-- One iteration of the loop of `pmap_unmap`, on a page of either size. From the last huge page it
comes to the beginning of the address space. -/
structure Advance (F : Shape Addr (BitVec 9)) (root vaEnd va va₁ : Addr) (s s₁ : PmState σ) :
    Prop where
  wf : s.Wf F
  wf' : s₁.Wf F
  lt : va.toNat < vaEnd.toNat
  dvd : 2 ^ 12 ∣ va.toNat
  top : InTop F va vaEnd
  clears : ∀ x, pml4Index x ∈ F.top → s.Clears root va x → s₁.leaf root x = none
  keeps : ∀ x, pml4Index x ∈ F.top → ¬ s.Clears root va x → s₁.leaf root x = s.leaf root x
  next : s.hugePage root va = true ∧ va₁.toNat = va.toNat + 2 ^ 21 ∨
    s.hugePage root va = false ∧ va₁.toNat = va.toNat + 2 ^ 12 ∨
    s.hugePage root va = true ∧ va₁.toNat + 2 ^ 64 = va.toNat + 2 ^ 21 ∧ ∀ i, i ∈ F.top

/-- What the loop of `pmap_unmap` does. -/
inductive Unmaps (F : Shape Addr (BitVec 9)) (root vaEnd : Addr) :
    Addr → PmState σ → PmState σ → Prop
  | done {va : Addr} (s : PmState σ) (hle : vaEnd.toNat ≤ va.toNat) : Unmaps F root vaEnd va s s
  | step {va va₁ : Addr} {s s₁ s' : PmState σ} (hadv : Advance F root vaEnd va va₁ s s₁)
      (hrest : Unmaps F root vaEnd va₁ s₁ s') : Unmaps F root vaEnd va s s'

section Loop

variable {vaEnd : Addr} (hr : root ∈ F.roots)

include hr in
/-- A loop that returns has the history `Unmaps`, by induction on the fuel. -/
theorem Wf.unmaps (h : s.Wf F) (hend : 2 ^ 12 ∣ vaEnd.toNat)
    (hwrap : (∀ i, i ∈ F.top) ∨ vaEnd.toNat + 2 ^ 21 ≤ 2 ^ 64) (fuel : ℕ)
    (hdvd : 2 ^ 12 ∣ va.toNat) (htop : InTop F va vaEnd)
    (hloop : PmState.unmapLoop root vaEnd fuel va s = some s') : Unmaps F root vaEnd va s s' := by
  induction fuel generalizing s va with
  | zero => cases hloop
  | succ fuel ih =>
      rw [PmState.unmapLoop] at hloop
      split at hloop
      swap
      next hlt =>
        obtain rfl := Option.some.inj hloop
        exact .done s (Nat.le_of_not_lt hlt)
      next hlt =>
        obtain ⟨s₁, heq, hwf₁, hclears, hkeeps⟩ :=
          h.unmapPage_clears hr (htop va (BitVec.le_refl va) hlt)
        rw [heq] at hloop
        have hlt' := BitVec.lt_def.mp hlt
        have hbound := vaEnd.isLt
        -- as long as the address does not wrap, the rest of the range is part of it
        have hrange : ∀ va₁ : Addr, va.toNat ≤ va₁.toNat → InTop F va₁ vaEnd := by
          intro va₁ hle x hx hxlt
          refine htop x ?_ hxlt
          rw [BitVec.le_def] at hx ⊢
          omega
        cases hhuge : s.hugePage root va with
        | false =>
            rw [hhuge, if_neg Bool.false_ne_true] at hloop
            have hnext : (va + pageSize).toNat = va.toNat + 2 ^ 12 := by
              rw [BitVec.toNat_add, show pageSize.toNat = 2 ^ 12 from rfl, Nat.mod_eq_of_lt]
              omega
            refine .step ⟨h, hwf₁, hlt', hdvd, htop, hclears, hkeeps, .inr (.inl ⟨hhuge, hnext⟩)⟩
              (ih hwf₁ (by omega) (hrange _ (by omega)) hloop)
        | true =>
            rw [hhuge, if_pos rfl] at hloop
            have hsum : (va + pageSizeHuge).toNat = (va.toNat + 2 ^ 21) % 2 ^ 64 :=
              BitVec.toNat_add _ _
            by_cases hroom : va.toNat + 2 ^ 21 < 2 ^ 64
            · rw [Nat.mod_eq_of_lt hroom] at hsum
              exact .step ⟨h, hwf₁, hlt', hdvd, htop, hclears, hkeeps, .inl ⟨hhuge, hsum⟩⟩
                (ih hwf₁ (by omega) (hrange _ (by omega)) hloop)
            · have hall : ∀ i, i ∈ F.top := hwrap.resolve_right (by omega)
              have hnext : (va + pageSizeHuge).toNat + 2 ^ 64 = va.toNat + 2 ^ 21 := by omega
              exact .step ⟨h, hwf₁, hlt', hdvd, htop, hclears, hkeeps,
                .inr (.inr ⟨hhuge, hnext, hall⟩)⟩
                (ih hwf₁ (by omega) (fun _ _ _ => hall _) hloop)

/-- An address from the first 2 MiB of the range on, up to its end. -/
theorem InTop.mem (htop : InTop F va vaEnd) (hlt : va.toNat < vaEnd.toNat) {x : Addr}
    (hle : va.toNat / 2 ^ 21 ≤ x.toNat / 2 ^ 21) (hx : x.toNat < vaEnd.toNat) :
    pml4Index x ∈ F.top := by
  by_cases hva : va.toNat ≤ x.toNat
  · exact htop x (BitVec.le_def.mpr hva) (BitVec.lt_def.mpr hx)
  · have hindex : pml4Index x = pml4Index va := by
      rw [← BitVec.toNat_inj, toNat_pml4Index, toNat_pml4Index]
      omega
    rw [hindex]
    exact htop va (BitVec.le_refl va) (BitVec.lt_def.mpr hlt)

variable {va₁ x : Addr}

include hr in
/-- The huge pages that are left. -/
theorem Advance.hugePage_iff (hadv : Advance F root vaEnd va va₁ s s₁)
    (hx : pml4Index x ∈ F.top) : s₁.hugePage root x = true ↔ s.hugePage root x = true ∧
      ¬ (s.hugePage root va = true ∧ (path x).take 3 = (path va).take 3) := by
  rw [hadv.wf'.hugePage_iff hr hx]
  -- a huge page is a leaf found in the page directory, so what the turn does to the leaf of `x`
  -- decides
  by_cases hclears : s.Clears root va x
  · have hsame : s.hugePage root x = s.hugePage root va := hugePage_congr hclears.take
    rw [hadv.clears x hx hclears, hsame]
    constructor
    · rintro ⟨e, i, ρ, hfound⟩
      cases hfound
    · rintro ⟨hhuge, hnot⟩
      exact absurd ⟨hhuge, hclears.take⟩ hnot
  · rw [hadv.keeps x hx hclears, ← hadv.wf.hugePage_iff hr hx]
    refine ⟨fun hhuge => ⟨hhuge, fun hsame => hclears ?_⟩, And.left⟩
    -- a huge page of `x` that shares the three upper indices of `va` is what the turn cleared
    rw [Clears, if_pos hsame.1]
    exact hsame.2

/-- An address is mapped as before or not at all. -/
theorem Unmaps.leaf (hloop : Unmaps F root vaEnd va s s') (hx : pml4Index x ∈ F.top) :
    s'.leaf root x = none ∨ s'.leaf root x = s.leaf root x := by
  induction hloop with
  | done s hle => exact Or.inr rfl
  | @step va va₁ s s₁ s' hadv hrest ih =>
      rcases ih with hnone | hsame
      · exact Or.inl hnone
      · rw [hsame]
        by_cases hclears : s.Clears root va x
        · exact Or.inl (hadv.clears x hx hclears)
        · exact Or.inr (hadv.keeps x hx hclears)

/-- The loop starts at the beginning of a page. -/
def Aligned (s : PmState σ) (root va : Addr) : Prop :=
  va.toNat % 2 ^ 21 = 0 ∨ s.hugePage root va = false

include hr in
/-- One round of the loop keeps the address at the start of the page that covers it. -/
theorem Advance.aligned (hadv : Advance F root vaEnd va va₁ s s₁) (hva : s.Aligned root va) :
    s₁.Aligned root va₁ := by
  have hdvd := hadv.dvd
  rcases hadv.next with ⟨hhuge, hnext⟩ | ⟨hhuge, hnext⟩ | ⟨hhuge, hnext, -⟩
  · exact Or.inl (by have := hva.resolve_right (by simp [hhuge]); omega)
  · by_cases hoffset : va₁.toNat % 2 ^ 21 = 0
    · exact Or.inl hoffset
    -- still in the same 2 MiB
    · have hsame : (path va₁).take 3 = (path va).take 3 := by
        rw [take_path_eq_iff]
        omega
      have hmem : pml4Index va₁ ∈ F.top := by
        have hindex : pml4Index va₁ = pml4Index va := by
          rw [← BitVec.toNat_inj, toNat_pml4Index, toNat_pml4Index]
          omega
        rw [hindex]
        exact hadv.top va (BitVec.le_refl va) (BitVec.lt_def.mpr hadv.lt)
      refine Or.inr (Bool.eq_false_iff.mpr fun hhuge₁ => ?_)
      rw [hadv.hugePage_iff hr hmem, hugePage_congr hsame, hhuge] at hhuge₁
      exact Bool.false_ne_true hhuge₁.1
  · exact Or.inl (by have := hva.resolve_right (by simp [hhuge]); omega)

include hr in
/-- From the beginning of a page the loop meets all of its range. -/
theorem Unmaps.of_aligned (hloop : Unmaps F root vaEnd va s s') (hva : s.Aligned root va)
    (hle : va.toNat ≤ x.toNat) (hx : x.toNat < vaEnd.toNat) (hmem : pml4Index x ∈ F.top) :
    s'.leaf root x = none := by
  induction hloop with
  | done s hge => omega
  | @step va va₁ s s₁ s' hadv hrest ih =>
      -- the first turn that clears `x` is enough: the later ones map nothing
      by_cases hclears : s.Clears root va x
      · rcases hrest.leaf hmem with hnone | hsame
        · exact hnone
        · exact hsame.trans (hadv.clears x hmem hclears)
      -- otherwise the step must not jump over `x`: it stops on a boundary that `va` is already on
      apply ih (hadv.aligned hr hva)
      have hdvd := hadv.dvd
      unfold Clears at hclears
      rcases hadv.next with ⟨hhuge, hnext⟩ | ⟨hhuge, hnext⟩ | ⟨hhuge, hnext, -⟩
      · rw [if_pos hhuge, take_path_eq_iff] at hclears
        have := hva.resolve_right (by simp [hhuge])
        omega
      · rw [if_neg (by simp [hhuge]), path_eq_iff_div] at hclears
        omega
      · rw [if_pos hhuge, take_path_eq_iff] at hclears
        have := hva.resolve_right (by simp [hhuge])
        omega

/-- The loop of `pmap_unmap` comes to the last 2 MiB of the address space while they are a huge
page, unless it steps over them. -/
def Wraps (s : PmState σ) (root va vaEnd : Addr) : Prop :=
  s.hugePage root lastPage = true ∧ 2 ^ 64 - 2 ^ 21 < vaEnd.toNat ∧ 2 ^ 64 - 2 ^ 48 ≤ va.toNat

/-- The loop of `pmap_unmap` that starts at `va` goes from huge page to huge page and steps over
`x`, which is below the place in its 2 MiB at which the loop arrives there. -/
structure Skips (s : PmState σ) (root va vaEnd x : Addr) : Prop where
  offset : x.toNat % 2 ^ 21 < va.toNat % 2 ^ 21
  huge : ∀ y : Addr, va.toNat / 2 ^ 21 ≤ y.toNat / 2 ^ 21 → y.toNat / 2 ^ 21 < x.toNat / 2 ^ 21 →
    s.hugePage root y = true
  /-- The loop ends before it arrives, or there is no huge page and it does not come back. -/
  passed : vaEnd.toNat ≤ x.toNat / 2 ^ 21 * 2 ^ 21 + va.toNat % 2 ^ 21 ∨
    s.hugePage root x = false ∧ ¬ s.Wraps root va vaEnd

omit [PageAllocator σ] [LawfulPageAllocator σ] in
/-- The last 2 MiB are a part of a range that ends in them. -/
theorem InTop.lastPage_mem (htop : InTop F va vaEnd) (hlt : va.toNat < vaEnd.toNat)
    (hlast : 2 ^ 64 - 2 ^ 21 < vaEnd.toNat) : pml4Index lastPage ∈ F.top := by
  have hva := va.isLt
  have hend : (0xFFFFFFFFFFE00000#64).toNat < vaEnd.toNat := by
    rw [BitVec.toNat_ofNat]
    omega
  refine htop.mem (x := 0xFFFFFFFFFFE00000#64) hlt ?_ hend
  rw [BitVec.toNat_ofNat]
  omega

include hr in
/-- A round that moves the address up does not bring the loop closer to the wrap. -/
theorem Advance.wraps (hadv : Advance F root vaEnd va va₁ s s₁) (hwraps : s.Wraps root va vaEnd)
    (hlt : va.toNat < va₁.toNat) : s₁.Wraps root va₁ vaEnd := by
  obtain ⟨hlast, hend, hlow⟩ := hwraps
  have hmem := hadv.top.lastPage_mem hadv.lt hend
  refine ⟨(hadv.hugePage_iff hr hmem).mpr ⟨hlast, ?_⟩, hend, by omega⟩
  rintro ⟨hhuge, hsame⟩
  rw [take_path_eq_iff] at hsame
  simp only [lastPage, BitVec.toNat_ofNat] at hsame
  rcases hadv.next with ⟨-, hnext⟩ | ⟨hsmall, -⟩ | ⟨-, hnext, -⟩
  · omega
  · rw [hhuge] at hsmall
    cases hsmall
  · omega

include hr in
/-- A loop that comes to the last huge page from the beginning of a page unmaps everything below the
end of the range. -/
theorem Unmaps.of_wraps (hloop : Unmaps F root vaEnd va s s') (hva : s.Aligned root va)
    (hwraps : s.Wraps root va vaEnd) (hlt : va.toNat < vaEnd.toNat)
    (hx : x.toNat < vaEnd.toNat) (hall : ∀ i, i ∈ F.top) : s'.leaf root x = none := by
  induction hloop with
  | done s hge => omega
  | @step va va₁ s s₁ s' hadv hrest ih =>
      have hdvd := hadv.dvd
      have hva₁ := hadv.aligned hr hva
      obtain ⟨hlast, hend, hlow⟩ := hwraps
      have hbound := vaEnd.isLt
      by_cases hregion : va.toNat < 2 ^ 64 - 2 ^ 21
      · rcases hadv.next with ⟨hhuge, hnext⟩ | ⟨hhuge, hnext⟩ | ⟨hhuge, hnext, -⟩
        · have := hva.resolve_right (by simp [hhuge])
          exact ih hva₁ (hadv.wraps hr ⟨hlast, hend, hlow⟩ (by omega)) (by omega)
        · exact ih hva₁ (hadv.wraps hr ⟨hlast, hend, hlow⟩ (by omega)) (by omega)
        · have := hva.resolve_right (by simp [hhuge])
          omega
      · -- the last 2 MiB: the address wraps to zero
        have hsame : (path va).take 3 = (path lastPage).take 3 := by
          rw [take_path_eq_iff]
          simp only [lastPage, BitVec.toNat_ofNat]
          omega
        have hhuge : s.hugePage root va = true := (hugePage_congr hsame).trans hlast
        have hoffset := hva.resolve_right (by simp [hhuge])
        have hva₁zero : va₁.toNat = 0 := by
          rcases hadv.next with ⟨-, hnext⟩ | ⟨hsmall, -⟩ | ⟨-, hnext, -⟩
          · have := va₁.isLt
            omega
          · rw [hhuge] at hsmall
            cases hsmall
          · omega
        exact hrest.of_aligned hr hva₁ (by omega) hx (hall _)

omit [PageAllocator σ] [LawfulPageAllocator σ] in
/-- What the loop steps over, it steps over from the next address on as well. -/
theorem not_skips_of_region {z : Addr} (hlt : va.toNat < vaEnd.toNat)
    (hhuge : s.hugePage root va = true) (hz : z.toNat / 2 ^ 21 = va.toNat / 2 ^ 21) :
    ¬ s.Skips root va vaEnd z := by
  intro hskips
  have hsame : (path z).take 3 = (path va).take 3 := by rw [take_path_eq_iff, hz]
  rcases hskips.passed with hend | ⟨hnot, -⟩
  · omega
  · rw [hugePage_congr hsame, hhuge] at hnot
    cases hnot

omit [PageAllocator σ] [LawfulPageAllocator σ] in
/-- Beyond the 2 MiB that the loop is in, it steps over nothing unless it is in a huge page. -/
theorem Skips.region {z : Addr} (hskips : s.Skips root va vaEnd z)
    (hhuge : s.hugePage root va = false) : z.toNat / 2 ^ 21 ≤ va.toNat / 2 ^ 21 := by
  by_contra hlt
  have := hskips.huge va le_rfl (by omega)
  rw [hhuge] at this
  cases this

include hr in
/-- The loop clears what it does not step over. -/
theorem Unmaps.of_not_skips (hloop : Unmaps F root vaEnd va s s')
    (hwrap : (∀ i, i ∈ F.top) ∨ vaEnd.toNat + 2 ^ 21 ≤ 2 ^ 64) (hend : 2 ^ 12 ∣ vaEnd.toNat)
    (hle : va.toNat / 2 ^ 21 ≤ x.toNat / 2 ^ 21) (hx : x.toNat < vaEnd.toNat)
    (hmem : pml4Index x ∈ F.top) (hskips : ¬ s.Skips root va vaEnd x) :
    s'.leaf root x = none := by
  induction hloop with
  | @done va s hge =>
      refine absurd ⟨by omega, fun y hy hlt => by omega, Or.inl (by omega)⟩ hskips
  | @step va va₁ s s₁ s' hadv hrest ih =>
      have hdvd := hadv.dvd
      have hlt := hadv.lt
      have hbound := vaEnd.isLt
      -- an address that this iteration clears stays cleared
      have hcleared : s₁.leaf root x = none → s'.leaf root x = none := by
        intro hnone
        rcases hrest.leaf hmem with hnone' | hsame
        · exact hnone'
        · exact hsame.trans hnone
      by_cases hclears : s.Clears root va x
      · exact hcleared (hadv.clears x hmem hclears)
      have hclears' := hclears
      unfold Clears at hclears'
      rcases hadv.next with ⟨hhuge, hnext⟩ | ⟨hhuge, hnext⟩ | ⟨hhuge, hnext, -⟩
      · rw [if_pos hhuge, take_path_eq_iff] at hclears'
        refine ih (by omega) fun hskips₁ => hskips ?_
        refine ⟨by have := hskips₁.offset; omega, fun y hy hyx => ?_, ?_⟩
        · by_cases hregion : y.toNat / 2 ^ 21 = va.toNat / 2 ^ 21
          · exact (hugePage_congr (take_path_eq_iff.mpr (by rw [hregion]))).trans hhuge
          · have hy₁ := hskips₁.huge y (by omega) hyx
            rw [hadv.hugePage_iff hr (hadv.top.mem hlt hy (by omega))] at hy₁
            exact hy₁.1
        · refine hskips₁.passed.imp (fun hle => by omega) fun hnot => ⟨?_, fun hwraps => ?_⟩
          · rw [Bool.eq_false_iff]
            intro hxhuge
            refine absurd ((hadv.hugePage_iff hr hmem).mpr ⟨hxhuge, fun hsame => hclears ?_⟩)
              (by simp [hnot.1])
            rw [Clears, if_pos hhuge]
            exact hsame.2
          · exact hnot.2 (hadv.wraps hr hwraps (by omega))
      · have hva : s.Aligned root va := Or.inr hhuge
        have hloop : Unmaps F root vaEnd va s s' := .step hadv hrest
        by_cases hvax : va.toNat ≤ x.toNat
        · exact hloop.of_aligned hr hva hvax hx hmem
        -- the loop comes back to the first part of the 2 MiB if it wraps
        · have hwraps : s.Wraps root va vaEnd := by
            by_contra hnot
            have hxhuge : s.hugePage root x = false :=
              (hugePage_congr (take_path_eq_iff.mpr (by omega))).trans hhuge
            exact hskips ⟨by omega, fun y hy hyx => by omega, Or.inr ⟨hxhuge, hnot⟩⟩
          have hall := hwrap.resolve_right (by have := hwraps.2.1; omega)
          exact hloop.of_wraps hr hva hwraps hlt hx hall
      · rw [if_pos hhuge, take_path_eq_iff] at hclears'
        omega

include hr in
/-- What is cleared later was there to be cleared before the round. -/
theorem Advance.clears_of (hadv : Advance F root vaEnd va va₁ s s₁) {y : Addr}
    (hy : pml4Index y ∈ F.top) (hclears : s₁.Clears root y x) : s.Clears root y x := by
  rw [Clears] at hclears ⊢
  split at hclears
  next hhuge =>
    rw [if_pos ((hadv.hugePage_iff hr hy).mp hhuge).1]
    exact hclears
  next =>
    rw [hclears]
    split <;> rfl

include hr in
/-- A wrap after the round is one of the loop from before it. -/
theorem Advance.wraps_of (hadv : Advance F root vaEnd va va₁ s s₁)
    (hwraps : s₁.Wraps root va₁ vaEnd) (hlt : va.toNat < va₁.toNat) : s.Wraps root va vaEnd := by
  obtain ⟨hlast, hend, hlow⟩ := hwraps
  have hmem := hadv.top.lastPage_mem hadv.lt hend
  obtain ⟨hlast, hnot⟩ := (hadv.hugePage_iff hr hmem).mp hlast
  refine ⟨hlast, hend, ?_⟩
  by_contra hlow'
  have hdvd := hadv.dvd
  -- the iteration before the last 2 ^ 48 bytes is in the same page as the last one
  have hsame : va₁.toNat ≤ va.toNat + 2 ^ 21 → (path lastPage).take 3 = (path va).take 3 := by
    intro hle
    rw [take_path_eq_iff]
    simp only [lastPage, BitVec.toNat_ofNat]
    omega
  rcases hadv.next with ⟨hhuge, hnext⟩ | ⟨hhuge, hnext⟩ | ⟨hhuge, hnext, -⟩
  · exact hnot ⟨hhuge, hsame (by omega)⟩
  · rw [hugePage_congr (hsame (by omega)), hhuge] at hlast
    cases hlast
  · exact hnot ⟨hhuge, hsame (by omega)⟩

include hr in
/-- What the loop clears is in a page that it does not step over, or it steps over nothing. -/
theorem Unmaps.exists_not_skips (hloop : Unmaps F root vaEnd va s s')
    (hmem : pml4Index x ∈ F.top) (hmapped : s.leaf root x ≠ none)
    (hnone : s'.leaf root x = none) :
    (∃ y : Addr, va.toNat ≤ y.toNat ∧ y.toNat < vaEnd.toNat ∧ s.Clears root y x ∧
      ¬ s.Skips root va vaEnd y) ∨
    s.Wraps root va vaEnd ∧ ∀ z : Addr, va.toNat / 2 ^ 21 ≤ z.toNat / 2 ^ 21 →
      z.toNat < vaEnd.toNat → ¬ s.Skips root va vaEnd z := by
  induction hloop with
  | done s hge => exact absurd hnone hmapped
  | @step va va₁ s s₁ s' hadv hrest ih =>
      have hdvd := hadv.dvd
      have hlt := hadv.lt
      by_cases hclears : s.Clears root va x
      · exact Or.inl ⟨va, le_rfl, hlt, hclears, fun hskips => by have := hskips.offset; omega⟩
      have hmapped₁ : s₁.leaf root x ≠ none := by
        rw [hadv.keeps x hmem hclears]
        exact hmapped
      -- huge pages between two places that are less than 2 ^ 48 bytes apart are all there still
      have hhuges : ∀ y : Addr, y.toNat < vaEnd.toNat →
          y.toNat / 2 ^ 21 ≤ va.toNat / 2 ^ 21 + 2 ^ 27 → s.Skips root va vaEnd y → ∀ z : Addr,
          va.toNat / 2 ^ 21 < z.toNat / 2 ^ 21 → z.toNat / 2 ^ 21 < y.toNat / 2 ^ 21 →
          s₁.hugePage root z = true := by
        intro y hy hclose hskips z hz hzy
        refine (hadv.hugePage_iff hr (hadv.top.mem hlt (by omega) (by omega))).mpr
          ⟨hskips.huge z (by omega) hzy, fun hsame => ?_⟩
        have := take_path_eq_iff.mp hsame.2
        omega
      rcases hadv.next with ⟨hhuge, hnext⟩ | ⟨hhuge, hnext⟩ | ⟨hhuge, hnext, hall⟩
      · rcases ih hmapped₁ hnone with ⟨y, hle, hy, hclears', hnot⟩ | ⟨hwraps, hnone'⟩
        · have hytop := hadv.top.mem hlt (x := y) (by omega) hy
          have hclears'' := hadv.clears_of hr hytop hclears'
          by_cases hskips : s.Skips root va vaEnd y
          swap
          · exact Or.inl ⟨y, by omega, hy, hclears'', hskips⟩
          by_cases hclose : y.toNat / 2 ^ 21 ≤ va.toNat / 2 ^ 21 + 2 ^ 27
          · refine absurd ⟨by have := hskips.offset; omega, fun z hz hzy =>
              hhuges y hy hclose hskips z (by omega) hzy, ?_⟩ hnot
            refine hskips.passed.imp (fun hle => by omega) fun hpassed => ⟨?_, fun hwraps => ?_⟩
            · rw [Bool.eq_false_iff]
              intro hyhuge
              have := ((hadv.hugePage_iff hr hytop).mp hyhuge).1
              rw [hpassed.1] at this
              cases this
            · exact hpassed.2 (hadv.wraps_of hr hwraps (by omega))
          -- the same page is met 2 ^ 48 bytes below
          · have hy' : (BitVec.ofNat 64 (y.toNat - 2 ^ 48)).toNat = y.toNat - 2 ^ 48 := by
              rw [BitVec.toNat_ofNat, Nat.mod_eq_of_lt]
              omega
            have hsame : path (BitVec.ofNat 64 (y.toNat - 2 ^ 48)) = path y := by
              rw [path_eq_iff_div, hy']
              omega
            refine Or.inl ⟨BitVec.ofNat 64 (y.toNat - 2 ^ 48), by omega, by omega, ?_, fun h => ?_⟩
            · rw [Clears, hsame, hugePage_congr (congrArg (List.take 3) hsame)]
              exact hclears''
            · have hhuge' := hskips.huge (BitVec.ofNat 64 (y.toNat - 2 ^ 48)) (by omega) (by omega)
              rcases h.passed with hpassed | hpassed
              · have := h.offset
                omega
              · rw [hhuge'] at hpassed
                cases hpassed.1
        · have hwraps' := hadv.wraps_of hr hwraps (by omega)
          refine Or.inr ⟨hwraps', fun z hz hzlt hskips => ?_⟩
          have := hwraps'.2.2
          have := vaEnd.isLt
          by_cases hregion : z.toNat / 2 ^ 21 = va.toNat / 2 ^ 21
          · exact not_skips_of_region hlt hhuge hregion hskips
          · refine hnone' z (by omega) hzlt ⟨by have := hskips.offset; omega, fun w hw hwz =>
              hhuges z hzlt (by omega) hskips w (by omega) hwz, Or.inl ?_⟩
            rcases hskips.passed with hpassed | hpassed
            · omega
            · exact absurd hwraps' hpassed.2
      · rcases ih hmapped₁ hnone with ⟨y, hle, hy, hclears', hnot⟩ | ⟨hwraps, hnone'⟩
        · have hytop := hadv.top.mem hlt (x := y) (by omega) hy
          refine Or.inl ⟨y, by omega, hy, hadv.clears_of hr hytop hclears', fun hskips => ?_⟩
          have := hskips.region hhuge
          have := hskips.offset
          omega
        · have hwraps' := hadv.wraps_of hr hwraps (by omega)
          refine Or.inr ⟨hwraps', fun z hz hzlt hskips => ?_⟩
          have := hskips.region hhuge
          rcases hskips.passed with hpassed | hpassed
          · omega
          · exact hpassed.2 hwraps'
      · -- the last 2 MiB
        have := va₁.isLt
        have := vaEnd.isLt
        have hsame : (path lastPage).take 3 = (path va).take 3 := by
          rw [take_path_eq_iff]
          simp only [lastPage, BitVec.toNat_ofNat]
          omega
        refine Or.inr ⟨⟨(hugePage_congr hsame).trans hhuge, by omega, by omega⟩,
          fun z hz hzlt => ?_⟩
        exact not_skips_of_region hlt hhuge (by omega)

end Loop

/-! ### The call

The exact condition: every page of the range has an address that the loop comes to. Then the
statement about `pmap_extract` follows, which gives zero where there is no leaf. -/

section Call

variable {virt size : Addr} (h : s.Wf F) (hr : root ∈ F.roots)

include h hr

/-- An address without a leaf is translated to 0. -/
theorem Wf.extract_eq_zero_of_leaf (hva : pml4Index va ∈ F.top) (hleaf : s.leaf root va = none) :
    s.pmapExtract root va = 0 := by
  rw [h.extract_eq hr hva, hleaf]

/-- The address of a page is mapped if one of its other addresses is. -/
theorem Wf.leaf_ne_none_of_clears (hva : pml4Index va ∈ F.top) (hva' : pml4Index va' ∈ F.top)
    (hleaf : ∀ x, pml4Index x ∈ F.top → s'.leaf root x = none ∨ s'.leaf root x = s.leaf root x)
    (hclears : s.Clears root va va') (hnone : s'.leaf root va = none) (h' : s'.Wf F) :
    s'.leaf root va' = none := by
  rcases hleaf va' hva' with hnone' | hsame
  · exact hnone'
  -- the two addresses share a huge page, or they share the whole path
  by_cases hhuge : s.hugePage root va = true
  · have hhuge' : s'.hugePage root va' = true := by
      rw [h'.hugePage_iff hr hva', hsame, ← h.hugePage_iff hr hva', hugePage_congr hclears.take,
        hhuge]
    rw [hugePage_congr hclears.take, h'.hugePage_iff hr hva] at hhuge'
    obtain ⟨e, i, ρ, hfound⟩ := hhuge'
    rw [hnone] at hfound
    cases hfound
  · rw [Clears, if_neg hhuge] at hclears
    rw [leaf, hclears]
    exact hnone

/-- `pmap_unmap` returns, and it clears its range if and only if the size is not zero and every page
in the range has an address in it that the loop does not step over. -/
theorem cleared_iff_not_skips (htop : InTop F (unmapStart virt) (unmapEnd virt size))
    (hwrap : (∀ i, i ∈ F.top) ∨ (unmapEnd virt size).toNat + 2 ^ 21 ≤ 2 ^ 64) :
    (∃ fuel, ∀ fuel' ≥ fuel, ∃ s', s.pmapUnmap fuel' root virt size = some s') ∧
    ∀ fuel s', s.pmapUnmap fuel root virt size = some s' →
      ((∀ va, unmapStart virt ≤ va → va < unmapEnd virt size → s'.pmapExtract root va = 0) ↔
        ∀ va, unmapStart virt ≤ va → va < unmapEnd virt size → s.pmapExtract root va ≠ 0 →
          size ≠ 0 ∧ ∃ va', unmapStart virt ≤ va' ∧ va' < unmapEnd virt size ∧
            s.Clears root va' va ∧ ¬ s.Skips root (unmapStart virt) (unmapEnd virt size) va') := by
  refine ⟨⟨2 ^ 65, fun fuel' hfuel => s.pmapUnmap_returns root virt size hfuel⟩,
    fun fuel s' hunmap => ?_⟩
  have hdvd : ∀ x : Addr, 2 ^ 12 ∣ (x &&& ~~~0xFFF#64).toNat := by
    intro x
    rw [toNat_roundDown]
    exact Nat.dvd_mul_left _ _
  have hmoves := (h.pmapUnmap hr htop hwrap hunmap).1
  rw [PmState.pmapUnmap] at hunmap
  split at hunmap
  next hsize =>
    obtain rfl := Option.some.inj hunmap
    refine ⟨fun hcleared va hle hlt hne => absurd (hcleared va hle hlt) hne,
      fun hcond va hle hlt => ?_⟩
    by_contra hne
    exact (hcond va hle hlt hne).1 hsize
  next hsize =>
  have hwf' := (hmoves.step h).wf
  -- the loop as a history of rounds
  have hloop : Unmaps F root (unmapEnd virt size) (unmapStart virt) s s' :=
    h.unmaps hr (hdvd _) hwrap fuel (hdvd _) htop hunmap
  have hlt_of : ∀ {va : Addr}, unmapStart virt ≤ va → va < unmapEnd virt size →
      (unmapStart virt).toNat ≤ va.toNat ∧ va.toNat < (unmapEnd virt size).toNat :=
    fun hle hlt => ⟨BitVec.le_def.mp hle, BitVec.lt_def.mp hlt⟩
  constructor
  · intro hcleared va hle hlt hne
    have hva := htop va hle hlt
    obtain ⟨hle', hlt'⟩ := hlt_of hle hlt
    have hzero := hcleared va hle hlt
    rw [h.extract_eq hr hva] at hne
    rw [hwf'.extract_eq hr hva] at hzero
    have hnone : s'.leaf root va = none := by
      rcases hloop.leaf hva with hnone | hsame
      · exact hnone
      · rw [hsame] at hzero
        exact absurd hzero hne
    have hmapped : s.leaf root va ≠ none := by
      intro hleaf
      rw [hleaf] at hne
      exact hne rfl
    refine ⟨hsize, ?_⟩
    -- what was mapped and is not any more was cleared in a round that the loop did not skip
    rcases hloop.exists_not_skips hr hva hmapped hnone with ⟨y, hy, hylt, hclears, hnot⟩ |
      ⟨-, hnot⟩
    · exact ⟨y, BitVec.le_def.mpr hy, BitVec.lt_def.mpr hylt, hclears, hnot⟩
    · refine ⟨va, hle, hlt, ?_, hnot va (by omega) hlt'⟩
      rw [Clears]
      split <;> rfl
  · intro hcond va hle hlt
    have hva := htop va hle hlt
    -- an address that was not mapped stays so; the others have an address that clears them
    by_cases hzero : s.pmapExtract root va = 0
    · rcases hloop.leaf hva with hnone | hsame
      · exact hwf'.extract_eq_zero_of_leaf hr hva hnone
      · rw [hwf'.extract_eq hr hva, hsame, ← h.extract_eq hr hva]
        exact hzero
    · obtain ⟨-, va', hle', hlt', hclears, hnot⟩ := hcond va hle hlt hzero
      have hva' := htop va' hle' hlt'
      obtain ⟨hle'', hlt''⟩ := hlt_of hle' hlt'
      have hnone := hloop.of_not_skips hr hwrap (hdvd _) (by omega) hlt'' hva' hnot
      exact hwf'.extract_eq_zero_of_leaf hr hva
        (h.leaf_ne_none_of_clears hr hva' hva (fun x hx => hloop.leaf hx) hclears hnone hwf')

end Call

/-- The flags of a user's page. -/
def userFlags : BitVec 32 := protRead ||| protWrite ||| protUser

/-- A new address space. -/
def newSpace : PmState BumpAllocator := (blank.pmapCreate 0x80000#64).2

/-- Its `pm_root_phys`. -/
def newRoot : Addr := (blank.pmapCreate 0x80000#64).1

/-- The tables of a new address space are zero. -/
theorem newSpace_mem (p : Addr) (i : BitVec 9) : newSpace.mem p i = 0#64 := by
  rw [newSpace, pmapCreate_mem]
  split
  · split <;> rfl
  · rfl

/-- A new address space is a state from which runs begin. -/
theorem begins_newSpace : Begins newRoot Set.univ newSpace := by
  have hbegins : Begins newRoot {i | i ∈ userTop ∨ blank.mem 0x80000#64 i = 0#64} newSpace :=
    .create rfl (by decide)
  have htop : {i | i ∈ userTop ∨ blank.mem 0x80000#64 i = 0#64} = Set.univ :=
    Set.eq_univ_of_forall fun i => Or.inr rfl
  rwa [htop] at hbegins

/-- Every range lies below the root entries when all of them belong to the pmap. -/
theorem inTop_univ (virt vaEnd : Addr) : InTop (forest {newRoot} Set.univ) virt vaEnd :=
  fun _ _ _ => Set.mem_univ _

/-- A normal page at `0x400000`, and a huge page right below it. -/
theorem exists_run_mixed : ∃ s, CallRun newRoot Set.univ newSpace s ∧
    s.pmapExtract newRoot 0x200000#64 = 0x200000#64 ∧
    s.pmapExtract newRoot 0x400000#64 = 0x300000#64 ∧
    (∃ s', s.pmapUnmap 3 newRoot 0x200000#64 0x201000#64 = some s') ∧
    ∃ s', s.pmapUnmap 3 newRoot 0x201000#64 0x200000#64 = some s' ∧
      s'.pmapExtract newRoot 0x400000#64 = 0x300000#64 := by
  have hcheck : ((newSpace.pmapMap 2 newRoot 0x400000#64 0x300000#64 0x1000#64 userFlags).any
    fun x =>
      (x.2.pmapMap 2 newRoot 0x200000#64 0x200000#64 0x200000#64 (userFlags ||| protHuge)).any
        fun y => decide (y.2.pmapExtract newRoot 0x200000#64 = 0x200000#64) &&
          decide (y.2.pmapExtract newRoot 0x400000#64 = 0x300000#64) &&
          (y.2.pmapUnmap 3 newRoot 0x200000#64 0x201000#64).isSome &&
          (y.2.pmapUnmap 3 newRoot 0x201000#64 0x200000#64).any fun s' =>
            decide (s'.pmapExtract newRoot 0x400000#64 = 0x300000#64)) = true := by
    decide +kernel
  obtain ⟨⟨ok, s₁⟩, hmap, hcheck⟩ := (Option.any_eq_true _ _).mp hcheck
  obtain ⟨⟨ok', s⟩, hmap', hcheck⟩ := (Option.any_eq_true _ _).mp hcheck
  simp only [Bool.and_eq_true, decide_eq_true_eq] at hcheck
  obtain ⟨⟨⟨hhuge, hpage⟩, hsome⟩, hrest⟩ := hcheck
  obtain ⟨s', hunmap, hstays⟩ := (Option.any_eq_true _ _).mp hrest
  -- the new space has no huge pages
  have hempty : ∀ va vaEnd, newSpace.NoHuge newRoot va vaEnd := by
    intro va vaEnd va' _ _ e ρ hfound
    rw [leaf_of_table (π := []) rfl rfl, newSpace_mem,
      findFrom_of_not_present Entry.present_zero] at hfound
    cases hfound
  have hrun : CallRun newRoot Set.univ newSpace s :=
    (CallRun.start.map (fun _ => ⟨inTop_univ _ _, fun _ => hempty _ _⟩) hmap).map
      (fun _ => ⟨inTop_univ _ _, fun hflags => absurd hflags (by decide)⟩) hmap'
  exact ⟨s, hrun, hhuge, hpage, Option.isSome_iff_exists.mp hsome, s', hunmap,
    of_decide_eq_true hstays⟩

/-- A range that starts with the huge page is cleared. -/
theorem cleared_iff_not_skips_mixed : ∃ s s', CallRun newRoot Set.univ newSpace s ∧
    s.pmapExtract newRoot 0x200000#64 = 0x200000#64 ∧
    s.pmapExtract newRoot 0x400000#64 = 0x300000#64 ∧
    s.pmapUnmap 3 newRoot 0x200000#64 0x201000#64 = some s' ∧
    ∀ va, unmapStart 0x200000#64 ≤ va → va < unmapEnd 0x200000#64 0x201000#64 →
      s'.pmapExtract newRoot va = 0 := by
  obtain ⟨s, hrun, hhuge, hpage, ⟨s', hunmap⟩, -⟩ := exists_run_mixed
  obtain ⟨-, hcall⟩ := cleared_iff_not_skips (hrun.owns begins_newSpace).wf
    (Set.mem_singleton newRoot)
    (inTop_univ (unmapStart 0x200000#64) (unmapEnd 0x200000#64 0x201000#64))
    (Or.inl fun _ => Set.mem_univ _)
  -- the first address asked for is the start of the huge page, so that nothing is stepped over
  refine ⟨s, s', hrun, hhuge, hpage, hunmap, (hcall 3 s' hunmap).mpr fun va hle hlt _ => ?_⟩
  refine ⟨by decide, va, hle, hlt, ?_, fun hskips => ?_⟩
  · rw [Clears]
    split <;> rfl
  · exact absurd hskips.offset (Nat.not_lt_zero _)

/-- If the range starts one page into the huge page, the page above it stays. -/
theorem not_cleared_of_unaligned : ∃ s s', CallRun newRoot Set.univ newSpace s ∧
    (0x201000#64).toNat + (0x200000#64).toNat + 0xFFF < 2 ^ 64 ∧
    s.pmapUnmap 3 newRoot 0x201000#64 0x200000#64 = some s' ∧
    ¬ ∀ va, unmapStart 0x201000#64 ≤ va → va < unmapEnd 0x201000#64 0x200000#64 →
      s'.pmapExtract newRoot va = 0 := by
  obtain ⟨s, hrun, -, -, -, s', hunmap, hstays⟩ := exists_run_mixed
  refine ⟨s, s', hrun, by decide, hunmap, fun hcleared => ?_⟩
  have hzero := hcleared 0x400000#64 (by decide) (by decide)
  rw [hstays] at hzero
  cases hzero

end PmState

end Koharu
