import Koharu.Arch.PmapFailure
import Koharu.Mm.PmmSafety
import Koharu.Mm.PmmSplit

/-!
# Pages for tables

The functions of `pmap.c` take pages from `pmm_alloc_pages(0)`, which is any lawful allocator where
they are studied. Here it is that of `pmm.c`.

`pmm_free_pages` breaks when it meets a buddy of the wrong order. A page whose release would do so
is kept here instead, and what is said about releases is said about the others.

* `PmmPages`: the allocator, with the blocks that it has handed out;
* `allocPages_cases`, `freePages_eq`: its functions are those of `pmm.c`;
* `allocPages_eq_zero_iff`, `left_allocPages`, `left_freePages`: how many pages are left, as in
  `Budget`.
-/

namespace Koharu

open Pmm (physToPfn listed)

/-- A state of the page allocator with the blocks that it has handed out. -/
structure PmmPages where
  pmm : Pmm
  taken : Finset Block
  inv : pmm.Inv taken

namespace PmmPages

/-- What `pmm_init` leaves. -/
theorem exists_of_pmmInit {info : MmapInfo} (hwf : info.WellFormed) {beyond : ℕ → Bool} {pmm : Pmm}
    (hinit : Pmm.pmmInit info beyond = some (some pmm)) :
    ∃ m : PmmPages, m.pmm = pmm ∧ m.taken = ∅ := by
  rcases Pmm.pmmInit_spec hwf beyond with hnone | ⟨pmm', hcall, hinv⟩
  · rw [hnone] at hinit
    cases hinit
  · rw [hcall] at hinit
    cases hinit
    exact ⟨⟨pmm, ∅, hinv⟩, rfl, rfl⟩

/-- A page that is handed out joins the blocks taken. -/
theorem inv_alloc {s s' : Pmm} {A : Finset Block} {phys : ℕ} (h : s.Inv A)
    (hcall : s.pmmAllocPages 0 = some (some phys, s')) : s'.Inv (insert ⟨physToPfn phys, 0⟩ A) := by
  rcases h.alloc 0 with hnull | ⟨pfn, s₁, hcall₁, -, hinv⟩
  · rw [hnull] at hcall
    cases hcall
  · rw [hcall₁] at hcall
    cases hcall
    rwa [Pmm.physToPfn_pfnToPhys]

/-- A page that is given back leaves them. -/
theorem inv_free {s s' : Pmm} {A : Finset Block} {pfn : ℕ} (h : s.Inv A)
    (hmem : (⟨pfn, 0⟩ : Block) ∈ A) (hmerge : s.Mergeable pfn 0)
    (hcall : s.pmmFreePages (pfnToPhys pfn) 0 = some s') :
    s'.Inv (A.erase ⟨pfn, 0⟩) := by
  obtain ⟨s₁, hcall₁, hinv⟩ := h.free hmem hmerge
  obtain rfl := Option.some.inj (hcall.symm.trans hcall₁)
  exact hinv

/-- `pmm_alloc_pages(0)`. -/
def allocPages (m : PmmPages) : Addr × PmmPages :=
  match h : m.pmm.pmmAllocPages 0 with
  | some (some phys, pmm) =>
      (BitVec.ofNat 64 phys, ⟨pmm, insert ⟨physToPfn phys, 0⟩ m.taken, inv_alloc m.inv h⟩)
  | _ => (0, m)

/-- `pmm_free_pages(page, 0)`, of a page that was handed out. -/
def freePages (m : PmmPages) (page : Addr) : PmmPages :=
  let pfn := physToPfn page.toNat
  if hpage : (⟨pfn, 0⟩ : Block) ∈ m.taken ∧ pfnToPhys pfn = page.toNat ∧ m.pmm.Mergeable pfn 0 then
    match h : m.pmm.pmmFreePages (pfnToPhys pfn) 0 with
    | some pmm => ⟨pmm, m.taken.erase ⟨pfn, 0⟩, inv_free m.inv hpage.1 hpage.2.2 h⟩
    | none => m
  else m

instance : PageAllocator PmmPages where
  allocPages := allocPages
  freePages := freePages

/-- The pages that were handed out one by one, and not given back. -/
def allocated (m : PmmPages) : Set Addr :=
  {page | (⟨physToPfn page.toNat, 0⟩ : Block) ∈ m.taken ∧
    pfnToPhys (physToPfn page.toNat) = page.toNat}

/-- How many pages are left. -/
def left (m : PmmPages) : ℕ := listed m.pmm.freeList

variable {m : PmmPages} {pfn : ℕ} {page : Addr}

/-- A frame of the allocator has a number that fits an address, which is not that of `NULL`. -/
theorem frame_bounds (hmem : (⟨pfn, 0⟩ : Block) ∈ m.taken) : 0 < pfn ∧ pfn < pmmPoolStartPfn := by
  have hplaced := m.inv.tiling.placed (false, ⟨pfn, 0⟩) (Pmm.mem_owned_false.mpr hmem)
  have hend := hplaced.end_le
  simp only [Nat.pow_zero] at hend
  exact ⟨hplaced.base_pos, by omega⟩

/-- The address of a page does not wrap. -/
theorem toNat_page (hlt : pfn < pmmPoolStartPfn) :
    (BitVec.ofNat 64 (pfnToPhys pfn)).toNat = pfnToPhys pfn := by
  have hpool : pmmPoolStartPfn = 0x8000 := rfl
  have hphys : pfnToPhys pfn = pfn * 4096 := by
    rw [pfnToPhys, Nat.shiftLeft_eq]
    rfl
  rw [BitVec.toNat_ofNat, hphys, Nat.mod_eq_of_lt (by omega)]

/-! ### The functions of `pmm.c`

`pmm_alloc_pages(0)` and `pmm_free_pages(page, 0)` on the buddy allocator, as the page allocator
that `pmap.c` sees. -/

/-- `pmm_alloc_pages(0)` returns a page that was not handed out, or `NULL` if there is none. -/
theorem allocPages_cases (m : PmmPages) :
    (∃ pfn pmm hinv, m.pmm.pmmAllocPages 0 = some (some (pfnToPhys pfn), pmm) ∧
      (⟨pfn, 0⟩ : Block) ∉ m.taken ∧ pfn < pmmPoolStartPfn ∧
      m.allocPages = (BitVec.ofNat 64 (pfnToPhys pfn), ⟨pmm, insert ⟨pfn, 0⟩ m.taken, hinv⟩)) ∨
    m.pmm.pmmAllocPages 0 = some (none, m.pmm) ∧ m.allocPages = (0, m) := by
  rcases m.inv.alloc 0 with hnull | ⟨pfn, pmm, hcall, hnew, hinv⟩
  · refine .inr ⟨hnull, ?_⟩
    unfold allocPages
    split
    case h_1 phys pmm hcall =>
      rw [hnull] at hcall
      cases hcall
    case h_2 => rfl
  · refine .inl ⟨pfn, pmm, hinv, hcall, hnew, ?_, ?_⟩
    · exact (@frame_bounds ⟨pmm, _, hinv⟩ pfn (Finset.mem_insert_self _ _)).2
    · unfold allocPages
      split
      case h_1 phys pmm' hcall' =>
        obtain ⟨hphys, rfl⟩ := Prod.mk.inj (Option.some.inj (hcall.symm.trans hcall'))
        obtain rfl := Option.some.inj hphys
        simp only [Pmm.physToPfn_pfnToPhys]
      case h_2 hnone => exact absurd hcall (hnone _ _)

/-- `pmm_free_pages(page, 0)`, of a page that was handed out and meets no buddy of the wrong
order. -/
theorem freePages_eq (hpage : page ∈ m.allocated)
    (hmerge : m.pmm.Mergeable (physToPfn page.toNat) 0) :
    ∃ pmm hinv, m.pmm.pmmFreePages page.toNat 0 = some pmm ∧
      listed pmm.freeList = listed m.pmm.freeList + 1 ∧
      m.freePages page = ⟨pmm, m.taken.erase ⟨physToPfn page.toNat, 0⟩, hinv⟩ := by
  obtain ⟨pmm, hcall, -, hlisted, -⟩ := Pmm.pmmFreePages_spec m.inv.tiling hpage.1 hmerge
  refine ⟨pmm, inv_free m.inv hpage.1 hmerge hcall, ?_, hlisted, ?_⟩
  · rw [← hpage.2]
    exact hcall
  · unfold freePages
    rw [dif_pos ⟨hpage.1, hpage.2, hmerge⟩]
    split
    case h_1 pmm' hcall' =>
      obtain rfl := Option.some.inj (hcall.symm.trans hcall')
      rfl
    case h_2 hnone => cases hcall.symm.trans hnone

/-- A release takes back that page, if any. -/
theorem mem_freePages (hpage : page ∈ m.allocated) {page' : Addr} (hne : page ≠ page') :
    page ∈ (m.freePages page').allocated := by
  unfold freePages
  simp only
  split
  case isFalse => exact hpage
  case isTrue h =>
    split
    case h_2 => exact hpage
    case h_1 =>
      refine ⟨Finset.mem_erase.mpr ⟨fun heq => hne ?_, hpage.1⟩, hpage.2⟩
      apply BitVec.eq_of_toNat_eq
      rw [← hpage.2, ← h.2.1, (Block.mk.inj heq).1]

/-- What is returned is the address of a page, or `0`. -/
theorem allocPages_aligned (m : PmmPages) : m.allocPages.1 &&& pteAddrMask = m.allocPages.1 := by
  rcases m.allocPages_cases with ⟨pfn, pmm, hinv, -, -, hlt, heq⟩ | ⟨-, heq⟩
  · have hpool : pmmPoolStartPfn = 0x8000 := rfl
    have hphys : pfnToPhys pfn = pfn * 4096 := by
      rw [pfnToPhys, Nat.shiftLeft_eq]
      rfl
    -- the mask keeps the bits of an address below 2^52 except for the offset in the page
    rw [heq, ← BitVec.toNat_inj, Word.toNat_and_mask (a := 12) (w := 40) (by decide),
      toNat_page hlt, hphys]
    omega
  · rw [heq]
    exact (by decide : 0#64 &&& pteAddrMask = 0#64)

/-- A page that is handed out was not handed out before. -/
theorem allocPages_fresh (hne : m.allocPages.1 ≠ 0) : m.allocPages.1 ∉ m.allocated := by
  intro hmem
  rcases m.allocPages_cases with ⟨pfn, pmm, hinv, -, hnew, hlt, heq⟩ | ⟨-, heq⟩
  · rw [heq] at hmem
    have hpfn := hmem.1
    rw [toNat_page hlt, Pmm.physToPfn_pfnToPhys] at hpfn
    exact hnew hpfn
  · exact hne (congrArg Prod.fst heq)

/-- It is one of those handed out then. -/
theorem mem_allocPages (hne : m.allocPages.1 ≠ 0) : m.allocPages.1 ∈ m.allocPages.2.allocated := by
  rcases m.allocPages_cases with ⟨pfn, pmm, hinv, -, -, hlt, heq⟩ | ⟨-, heq⟩
  · rw [heq]
    refine ⟨?_, ?_⟩
    · rw [toNat_page hlt, Pmm.physToPfn_pfnToPhys]
      exact Finset.mem_insert_self _ _
    · rw [toNat_page hlt, Pmm.physToPfn_pfnToPhys]
  · exact absurd (congrArg Prod.fst heq) hne

/-- The pages handed out before stay so. -/
theorem allocated_allocPages (hpage : page ∈ m.allocated) : page ∈ m.allocPages.2.allocated := by
  rcases m.allocPages_cases with ⟨pfn, pmm, hinv, -, -, -, heq⟩ | ⟨-, heq⟩
  · rw [heq]
    exact ⟨Finset.mem_insert_of_mem hpage.1, hpage.2⟩
  · rw [heq]
    exact hpage

instance : LawfulPageAllocator PmmPages where
  allocated := allocated
  alloc_aligned := allocPages_aligned
  alloc_fresh _ := allocPages_fresh
  alloc_mem _ := mem_allocPages
  alloc_mono _ _ := allocated_allocPages
  free_mono _ _ _ hpage hne := mem_freePages hpage hne

/-! ### How many pages are left

The pages on the free lists are counted, which gives the budget that `Arch/PmapFailure` asks for. A
page that was given back may be merged, and the count does not depend on it. -/

/-- `pmm_alloc_pages(0)` returns `NULL` if and only if no page is left. -/
theorem allocPages_eq_zero_iff (m : PmmPages) : m.allocPages.1 = 0 ↔ m.left = 0 := by
  have hscan := Pmm.allocScan_eq m.pmm 0 maxBuddyOrder 0
  have hcall : m.pmm.pmmAllocPages 0 = m.pmm.allocScan 0 maxBuddyOrder 0 := rfl
  rcases m.allocPages_cases with ⟨pfn, pmm, hinv, halloc, -, hlt, heq⟩ | ⟨hnull, heq⟩
  · refine iff_of_false (fun hzero => ?_) fun hzero => ?_
    · have hpos := (@frame_bounds ⟨pmm, _, hinv⟩ pfn (Finset.mem_insert_self _ _)).1
      rw [heq] at hzero
      have hnat := congrArg BitVec.toNat hzero
      rw [toNat_page hlt, pfnToPhys, Nat.shiftLeft_eq] at hnat
      exact Nat.mul_ne_zero hpos.ne' (Nat.two_pow_pos _).ne' hnat
    · rcases Pmm.pmmAllocPages_spec 0 m.inv.tiling with hnone | ⟨_, _, -, -, -, hlisted, -⟩
      · rw [halloc] at hnone
        cases hnone
      · unfold left at hzero
        simp only [Int.toNat_zero, Nat.pow_zero] at hlisted
        omega
  · apply iff_of_true (congrArg Prod.fst heq)
    rcases hscan with ⟨hempty, -⟩ | ⟨o, p, -, -, hhome, hscan⟩
    · -- all lists are empty
      rw [left, listed]
      apply Finset.sum_eq_zero
      intro o ho
      rw [hempty o (Nat.zero_le o) (by simpa using ho), List.length_nil, Nat.zero_mul]
    · rw [hcall, hscan] at hnull
      obtain ⟨lists, -, hrest⟩ := Option.bind_eq_some_iff.mp hnull
      obtain ⟨s, -, hdone⟩ := Option.bind_eq_some_iff.mp hrest
      cases hdone

/-- Every allocation takes one page from what is left. -/
theorem left_allocPages (m : PmmPages) : m.allocPages.2.left = m.left - 1 := by
  rcases m.allocPages_cases with ⟨pfn, pmm, hinv, halloc, -, -, heq⟩ | ⟨-, heq⟩
  · rw [heq]
    rcases Pmm.pmmAllocPages_spec 0 m.inv.tiling with hnone | ⟨p, s, hcall, -, -, hlisted, -⟩
    · rw [halloc] at hnone
      cases hnone
    · obtain ⟨-, rfl⟩ := Prod.mk.inj (Option.some.inj (halloc.symm.trans hcall))
      simp only [Int.toNat_zero, Nat.pow_zero] at hlisted
      simp only [left]
      omega
  · have hzero := (allocPages_eq_zero_iff m).mp (congrArg Prod.fst heq)
    rw [heq, hzero]

/-- A page that is given back is left once more. -/
theorem left_freePages (hpage : page ∈ m.allocated)
    (hmerge : m.pmm.Mergeable (physToPfn page.toNat) 0) : (m.freePages page).left = m.left + 1 := by
  obtain ⟨pmm, hinv, -, hlisted, heq⟩ := freePages_eq hpage hmerge
  rw [heq]
  exact hlisted

end PmmPages

end Koharu
