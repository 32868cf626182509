import Koharu.Arch.PmapRefinement

/-!
# Ranges of pages, and the kernel half

`Step` says what a call leaves alone: the memory around the trees of tables, and the entries of
their roots that do not belong to the trees. Here it is carried from single pages to the calls that
work on ranges (`Wf.pmapMap`, `Wf.pmapUnmap`), whether they succeed or not, and to an address space
that is given up as soon as it is made (`Wf.destroyNew`).

All address spaces share the tables below the entries 256 to 511 of their roots (`Shared`). What a
walk in the kernel half reads is fixed by these entries and these tables (`entries_eq`).
-/

namespace Koharu

open Radix

/-- The entries of the top level for the kernel half. -/
def kernelTop : Set (BitVec 9) := {i | 256#9 ≤ i}

/-- The kernel's half of the root is what is not the user's. -/
theorem not_mem_userTop {i : BitVec 9} : i ∉ userTop ↔ i ∈ kernelTop := BitVec.not_lt

namespace PmState

variable {σ : Type*}

/-- The translation of an address: the entries that its walk reads, with the frame and all flags in
them. -/
def entries (s : PmState σ) (root va : Addr) : List Entry := walk Entry.child s.mem root (path va)

/-- The tables below the entries of the root `k` for the kernel half. -/
def Shared (s : PmState σ) (k q : Addr) : Prop :=
  ∃ i ∈ kernelTop, ∃ π : List (BitVec 9), π.length < 3 ∧ s.table k (i :: π) = some q

/-- A root with the same entries for the kernel half, and the same tables below them, has the same
translations. -/
theorem entries_eq {s₀ s : PmState σ} {k r va : Addr} (hva : pml4Index va ∈ kernelTop)
    (hroot : s.mem r (pml4Index va) = s₀.mem k (pml4Index va))
    (hshared : ∀ q, s₀.Shared k q → s.mem q = s₀.mem q) : s.entries r va = s₀.entries k va := by
  apply walk_congr_cons hroot
  intro π₁ j π₂ q hπ hq
  have hlen : π₁.length < 3 := by
    have := congrArg List.length hπ
    rw [List.length_append, List.length_cons] at this
    simp only [List.length_cons, List.length_nil] at this
    omega
  rw [hshared q ⟨_, hva, π₁, hlen, hq⟩]

/-! ### The pages of a range

The addresses that the loop of `pmap_map` goes through, as a function of the count. They are taken
modulo `2 ^ 64`, as the loop takes them. -/

/-- Where the loop of `pmap_map` starts. -/
def mapStart (flags : BitVec 32) (virt : Addr) : Addr := virt &&& ~~~(mapStep flags - 1)

/-- Where the loop of `pmap_map` ends. -/
def mapEnd (flags : BitVec 32) (virt size : Addr) : Addr :=
  (virt + size + (mapStep flags - 1)) &&& ~~~(mapStep flags - 1)

/-- The number of pages that `pmap_map` sets out to map. -/
def mapCount (flags : BitVec 32) (virt size : Addr) : ℕ :=
  if size = 0 then 0
  else ((mapEnd flags virt size).toNat - (mapStart flags virt).toNat) / (mapStep flags).toNat

/-- The `k`-th page from `va` on, in `pmap_map`. -/
def pageAt (flags : BitVec 32) (va : Addr) (k : ℕ) : Addr := va + BitVec.ofNat 64 k * mapStep flags

/-- The first page of a range. -/
theorem pageAt_zero (flags : BitVec 32) (va : Addr) : pageAt flags va 0 = va := by
  simp [pageAt]

/-- The other pages are those of the range that begins one step later. -/
theorem pageAt_succ (flags : BitVec 32) (va : Addr) (k : ℕ) :
    pageAt flags va (k + 1) = pageAt flags (va + mapStep flags) k := by
  rw [pageAt, pageAt, BitVec.ofNat_add, BitVec.add_mul, BitVec.one_mul,
    BitVec.add_comm (BitVec.ofNat 64 k * mapStep flags), BitVec.add_assoc]

/-- The addresses are in the same page, of the size that the flags ask for. -/
def SamePage (flags : BitVec 32) (va va' : Addr) : Prop :=
  if hasProt flags protHuge then (path va').take 3 = (path va).take 3 else path va' = path va

/-- What the tables say about an address in a page that has been mapped to `pa`. -/
def mappedLeaf (flags : BitVec 32) (pa va : Addr) : Entry × List (BitVec 9) :=
  if hasProt flags protHuge then (hugeEntry pa flags, [ptIndex va]) else (pageEntry pa flags, [])

variable [PageAllocator σ] [LawfulPageAllocator σ] {s s' : PmState σ} {F : Shape Addr (BitVec 9)}

/-! ### Ranges

What a whole call does to an address of the trees: it is mapped as before, or as one of the pages
that the call set out to map. On failure some of them are missing, and the statement does not say
which. -/

section Ranges

variable {r : Addr} (h : s.Wf F) (hr : r ∈ F.roots)

/-- Every address of the range starts at an entry of the trees. -/
def InTop (F : Shape Addr (BitVec 9)) (va vaEnd : Addr) : Prop :=
  ∀ va', va ≤ va' → va' < vaEnd → pml4Index va' ∈ F.top

/-- No address of the range is in a huge page. -/
def NoHuge (s : PmState σ) (r va vaEnd : Addr) : Prop :=
  ∀ va', va ≤ va' → va' < vaEnd → ∀ e ρ, s.leaf r va' = some (e, ρ) → ρ = []

/-- What `pmap_map` does when it sets out to map the `n` pages from `va` on to `pa` and what comes
after it: an address is mapped as before, or as one of the pages it is in. If all goes well, it is
mapped as the last of the pages it is in. -/
structure Mapped (F : Shape Addr (BitVec 9)) (r : Addr) (flags : BitVec 32) (va pa : Addr) (n : ℕ)
    (ok : Bool) (s s' : PmState σ) : Prop where
  moves : Moves F s s'
  either : ∀ va', pml4Index va' ∈ F.top → s'.leaf r va' = s.leaf r va' ∨
    ∃ k < n, SamePage flags (pageAt flags va k) va' ∧
      s'.leaf r va' = some (mappedLeaf flags (pageAt flags pa k) va')
  inside : ok = true → ∀ va', pml4Index va' ∈ F.top → ∀ k < n,
    SamePage flags (pageAt flags va k) va' →
    (∀ j < n, k < j → ¬ SamePage flags (pageAt flags va j) va') →
    s'.leaf r va' = some (mappedLeaf flags (pageAt flags pa k) va')

section Mapped

variable {flags : BitVec 32} {va pa va' : Addr} {n : ℕ} {ok : Bool} {s₁ : PmState σ}

omit [LawfulPageAllocator σ] in
/-- Addresses in no page of the range keep their leaves. -/
theorem Mapped.outside (h : Mapped F r flags va pa n ok s s') (hva' : pml4Index va' ∈ F.top)
    (hout : ∀ k < n, ¬ SamePage flags (pageAt flags va k) va') :
    s'.leaf r va' = s.leaf r va' := by
  rcases h.either va' hva' with hsame | ⟨k, hk, hin, -⟩
  · exact hsame
  · exact absurd hin (hout k hk)

omit [LawfulPageAllocator σ] in
/-- Normal pages leave no huge page where there was none. -/
theorem Mapped.plain (h : Mapped F r flags va pa n ok s s')
    (hflags : hasProt flags protHuge = false) (hva' : pml4Index va' ∈ F.top)
    (hplain : ∀ e ρ, s.leaf r va' = some (e, ρ) → ρ = []) (e : Entry) (ρ : List (BitVec 9))
    (hfound : s'.leaf r va' = some (e, ρ)) : ρ = [] := by
  rcases h.either va' hva' with hsame | ⟨k, -, -, hnew⟩
  · exact hplain e ρ (hsame ▸ hfound)
  · rw [hfound, mappedLeaf, if_neg (by simp [hflags])] at hnew
    exact congrArg Prod.snd (Option.some.inj hnew)

omit [LawfulPageAllocator σ] in
/-- Nothing is mapped in an empty range. -/
theorem Mapped.refl (F : Shape Addr (BitVec 9)) (r : Addr) (flags : BitVec 32) (va pa : Addr)
    (ok : Bool) (s : PmState σ) : Mapped F r flags va pa 0 ok s s := by
  refine ⟨.refl, fun _ _ => Or.inl rfl, fun _ va' _ k hk => ?_⟩
  exact absurd hk (Nat.not_lt_zero k)

omit [LawfulPageAllocator σ] in
/-- The first page and then the rest. -/
theorem Mapped.cons (hfirst : Mapped F r flags va pa 1 true s s₁)
    (hrest : Mapped F r flags (va + mapStep flags) (pa + mapStep flags) n ok s₁ s') :
    Mapped F r flags va pa (n + 1) ok s s' := by
  refine ⟨hfirst.moves.trans hrest.moves, fun va' hva' => ?_, fun hok va' hva' k hk hin hlast => ?_⟩
  · rcases hrest.either va' hva' with hsame | ⟨k, hk, hin, hnew⟩
    · rw [hsame]
      apply (hfirst.either va' hva').imp id
      rintro ⟨k, hk, hin⟩
      exact ⟨k, by omega, hin⟩
    · rw [← pageAt_succ] at hin hnew
      exact Or.inr ⟨k + 1, by omega, hin, hnew⟩
  · cases k with
    | zero =>
        -- the pages after the first leave this address alone
        rw [hrest.outside hva' fun j hj => ?_]
        · exact hfirst.inside rfl va' hva' 0 (by omega) hin fun j hj hlt => by omega
        · rw [← pageAt_succ]
          exact hlast (j + 1) (by omega) (by omega)
    | succ k =>
        rw [pageAt_succ] at hin ⊢
        apply hrest.inside hok va' hva' k (by omega) hin
        intro j hj hlt
        rw [← pageAt_succ]
        exact hlast (j + 1) (by omega) (by omega)

omit [LawfulPageAllocator σ] in
/-- The first page fails. -/
theorem Mapped.fail (hfirst : Mapped F r flags va pa 1 false s s') :
    Mapped F r flags va pa (n + 1) false s s' := by
  refine ⟨hfirst.moves, fun va' hva' => (hfirst.either va' hva').imp id ?_, by simp⟩
  rintro ⟨k, hk, hin⟩
  exact ⟨k, by omega, hin⟩

end Mapped

/-- There are no huge pages at all. -/
def Plain (F : Shape Addr (BitVec 9)) (r : Addr) (s : PmState σ) : Prop :=
  ∀ va, pml4Index va ∈ F.top → ∀ e ρ, s.leaf r va = some (e, ρ) → ρ = []

include h hr

/-- One page of `pmap_map`. -/
theorem Wf.mapPage_mapped {flags : BitVec 32} {va : Addr} (htop : pml4Index va ∈ F.top)
    (hnot : hasProt flags protHuge = false → ∀ e ρ, s.leaf r va = some (e, ρ) → ρ = [])
    (pa : Addr) : ∃ ok s', s.pmapMapPage r va pa flags = (ok, s') ∧
      Mapped F r flags va pa 1 ok s s' := by
  -- for both sizes the spec of the page is an `if` on the addresses in it
  obtain ⟨ok, s₁, heq, hmoves, hsame, hin, hout⟩ : ∃ ok s₁, s.pmapMapPage r va pa flags = (ok, s₁) ∧
      Moves F s s₁ ∧ (ok = false → SameLeaves F s s₁) ∧
      (ok = true → ∀ va', pml4Index va' ∈ F.top → SamePage flags va va' →
        s₁.leaf r va' = some (mappedLeaf flags pa va')) ∧
      (ok = true → ∀ va', pml4Index va' ∈ F.top → ¬ SamePage flags va va' →
        s₁.leaf r va' = s.leaf r va') := by
    cases hflags : hasProt flags protHuge with
    | true =>
        obtain ⟨ok, s₁, heq, hmoves, hsame, hleaf⟩ := h.mapPage_huge hr htop hflags pa
        refine ⟨ok, s₁, heq, hmoves, hsame, fun hok va' hva' hin => ?_, fun hok va' hva' hout => ?_⟩
        · rw [SamePage, if_pos hflags] at hin
          rw [hleaf hok r hr va' hva', if_pos ⟨rfl, hin⟩, mappedLeaf, if_pos hflags]
        · rw [SamePage, if_pos hflags] at hout
          rw [hleaf hok r hr va' hva', if_neg fun hin => hout hin.2]
    | false =>
        obtain ⟨ok, s₁, heq, hmoves, hsame, hleaf⟩ := h.mapPage hr htop hflags (hnot hflags) pa
        have hneg : ¬ hasProt flags protHuge = true := by simp [hflags]
        refine ⟨ok, s₁, heq, hmoves, hsame, fun hok va' hva' hin => ?_, fun hok va' hva' hout => ?_⟩
        · rw [SamePage, if_neg hneg] at hin
          rw [hleaf hok r hr va' hva', if_pos ⟨rfl, hin⟩, mappedLeaf, if_neg hneg]
        · rw [SamePage, if_neg hneg] at hout
          rw [hleaf hok r hr va' hva', if_neg fun hin => hout hin.2]
  refine ⟨ok, s₁, heq, hmoves, fun va' hva' => ?_, fun hok va' hva' k hk hin' _ => ?_⟩
  · cases ok with
    | false => exact Or.inl (hsame rfl r hr va' hva')
    | true =>
        by_cases hpage : SamePage flags va va'
        · refine Or.inr ⟨0, Nat.one_pos, ?_, ?_⟩
          · rw [pageAt_zero]
            exact hpage
          · rw [pageAt_zero]
            exact hin rfl va' hva' hpage
        · exact Or.inl (hout rfl va' hva' hpage)
  · obtain rfl : k = 0 := by omega
    rw [pageAt_zero] at hin' ⊢
    exact hin hok va' hva' hin'

/-- The loop of `pmap_map`, whether it succeeds or not. -/
theorem Wf.mapLoop {vaEnd : Addr} {flags : BitVec 32}
    (hend : (mapStep flags).toNat ∣ vaEnd.toNat) (fuel : ℕ) {va pa : Addr}
    (hva : (mapStep flags).toNat ∣ va.toNat) (htop : InTop F va vaEnd)
    (hnot : hasProt flags protHuge = false → s.NoHuge r va vaEnd) {ok : Bool}
    (hloop : PmState.mapLoop r vaEnd (mapStep flags) flags fuel va pa s = some (ok, s')) :
    Mapped F r flags va pa ((vaEnd.toNat - va.toNat) / (mapStep flags).toNat) ok s s' := by
  induction fuel generalizing s va pa with
  | zero => cases hloop
  | succ fuel ih =>
      rw [PmState.mapLoop] at hloop
      split at hloop
      next hlt =>
        have hlt' := BitVec.lt_def.mp hlt
        have hnext := toNat_add_step hend hva hlt
        have hle : ∀ va', va + mapStep flags ≤ va' → va ≤ va' := by
          intro va' hva'
          rw [BitVec.le_def] at hva' ⊢
          omega
        -- the page of this round is one of those counted
        have hcount : (vaEnd.toNat - va.toNat) / (mapStep flags).toNat =
            (vaEnd.toNat - (va + mapStep flags).toNat) / (mapStep flags).toNat + 1 := by
          have hpos : 0 < (mapStep flags).toNat := by
            rw [toNat_mapStep]
            split <;> decide
          have hbound : (mapStep flags).toNat ≤ vaEnd.toNat - va.toNat :=
            Nat.le_of_dvd (by omega) (Nat.dvd_sub hend hva)
          rw [hnext, ← Nat.sub_sub, Nat.div_eq_sub_div hpos hbound]
        obtain ⟨ok₁, s₁, heq, hmapped⟩ := h.mapPage_mapped hr (htop va (BitVec.le_refl va) hlt)
          (fun hflags => hnot hflags va (BitVec.le_refl va) hlt) pa
        rw [heq] at hloop
        rw [hcount]
        cases ok₁ with
        | false =>
            cases hloop
            exact hmapped.fail
        | true =>
            refine hmapped.cons (ih (hmapped.moves.step h).wf
              (by rw [hnext]; exact Nat.dvd_add hva dvd_rfl)
              (fun va' hva' hlt' => htop va' (hle va' hva') hlt')
              (fun hflags va' hva' hlt' => ?_) hloop)
            exact hmapped.plain hflags (htop va' (hle va' hva') hlt')
              (hnot hflags va' (hle va' hva') hlt')
      next hlt =>
        cases hloop
        have hzero : vaEnd.toNat - va.toNat = 0 := by
          rw [BitVec.lt_def] at hlt
          omega
        rw [hzero, Nat.zero_div]
        exact .refl F r flags va pa true _

/-- `pmap_map`, whether it succeeds or not. -/
theorem Wf.pmapMap {fuel : ℕ} {virt phys size : Addr} {flags : BitVec 32} {ok : Bool}
    (htop : InTop F (mapStart flags virt) (mapEnd flags virt size))
    (hnot : hasProt flags protHuge = false →
      s.NoHuge r (mapStart flags virt) (mapEnd flags virt size))
    (hmap : s.pmapMap fuel r virt phys size flags = some (ok, s')) :
    Mapped F r flags (mapStart flags virt) (mapStart flags phys) (mapCount flags virt size) ok
      s s' := by
  have hdvd : ∀ x : Addr, (mapStep flags).toNat ∣ (x &&& ~~~(mapStep flags - 1)).toNat := by
    intro x
    rw [toNat_round]
    exact Nat.dvd_mul_left _ _
  -- the test for an empty range comes before the loop
  unfold PmState.pmapMap at hmap
  rw [mapCount]
  split at hmap
  next hsize =>
    cases hmap
    rw [if_pos hsize]
    exact .refl _ _ _ _ _ _ _
  next hsize =>
    rw [if_neg hsize]
    exact h.mapLoop hr (hdvd _) fuel (hdvd _) htop hnot hmap

/-- The loop of `pmap_unmap`. It may advance by more than the range has left, and then wraps around
at the end of the address space. -/
theorem Wf.unmapLoop {vaEnd : Addr} (fuel : ℕ) {va : Addr} (htop : InTop F va vaEnd)
    (hwrap : (∀ i, i ∈ F.top) ∨ vaEnd.toNat + 2 ^ 21 ≤ 2 ^ 64)
    (hloop : PmState.unmapLoop r vaEnd fuel va s = some s') :
    Moves F s s' ∧ (s.Plain F r → s'.Plain F r) := by
  induction fuel generalizing s va with
  | zero => cases hloop
  | succ fuel ih =>
      rw [PmState.unmapLoop] at hloop
      split at hloop
      next hlt =>
        obtain ⟨advance, s₁, heq, hmoves, hadvance, hleaf⟩ :=
          h.unmapPage hr (htop va (BitVec.le_refl va) hlt)
        rw [heq] at hloop
        -- a huge page may advance beyond the end, where the room behind it keeps the sum from
        -- wrapping
        have htop' : InTop F (va + advance) vaEnd := by
          intro va' hle hlt'
          rcases hwrap with hall | hroom
          · exact hall _
          · refine htop va' ?_ hlt'
            have hbound : advance.toNat ≤ 2 ^ 21 := by
              rcases hadvance with rfl | rfl <;> decide
            rw [BitVec.lt_def] at hlt
            rw [BitVec.le_def, BitVec.toNat_add, Nat.mod_eq_of_lt (by omega)] at hle
            rw [BitVec.le_def]
            omega
        obtain ⟨hrest, hplain⟩ := ih (hmoves.step h).wf htop' hloop
        refine ⟨hmoves.trans hrest, fun hs => hplain fun va' hva' e ρ hfound => ?_⟩
        obtain ⟨-, hleaf⟩ := hleaf (hs va (htop va (BitVec.le_refl va) hlt))
        rw [hleaf r hr va' hva'] at hfound
        split at hfound
        · cases hfound
        · exact hs va' hva' e ρ hfound
      next =>
        cases hloop
        exact ⟨.refl, id⟩

/-- `pmap_unmap`. -/
theorem Wf.pmapUnmap {fuel : ℕ} {virt size : Addr}
    (htop : InTop F (virt &&& ~~~0xFFF#64) ((virt + size + 0xFFF#64) &&& ~~~0xFFF#64))
    (hwrap : (∀ i, i ∈ F.top) ∨
      ((virt + size + 0xFFF#64) &&& ~~~0xFFF#64).toNat + 2 ^ 21 ≤ 2 ^ 64)
    (hunmap : s.pmapUnmap fuel r virt size = some s') :
    Moves F s s' ∧ (s.Plain F r → s'.Plain F r) := by
  rw [PmState.pmapUnmap] at hunmap
  split at hunmap
  · cases hunmap
    exact ⟨.refl, id⟩
  · exact h.unmapLoop hr fuel htop hwrap hunmap

omit h hr in
/-- Rounding up a page boundary that is one page on changes nothing. -/
theorem roundUp_page {n : ℕ} (h : n / 4096 * 4096 = n) :
    (n + 4096 + 4095) / 4096 * 4096 = n + 4096 := by
  have hdiv : (n + 4096 + 4095) / 4096 = n / 4096 + 1 := by omega
  rw [hdiv, Nat.add_mul, h, Nat.one_mul]

omit h hr in
/-- The range of one page ends with the page. -/
theorem roundUp_pageEnd {va : Addr} (hva : va &&& ~~~0xFFF#64 = va)
    (hwrap : va.toNat + 4096 < 2 ^ 64) :
    ((va + pageSize + 0xFFF#64) &&& ~~~0xFFF#64) = va + pageSize := by
  have hva' := congrArg BitVec.toNat hva
  rw [toNat_roundDown] at hva'
  apply BitVec.eq_of_toNat_eq
  have hsum : (va + pageSize).toNat = va.toNat + 4096 := by
    rw [BitVec.toNat_add, show pageSize.toNat = 4096 from rfl, Nat.mod_eq_of_lt hwrap]
  rw [toNat_roundDown, BitVec.toNat_add, hsum, show (0xFFF#64).toNat = 4095 from rfl,
    Nat.mod_eq_of_lt (by omega), roundUp_page hva']

/-- `pmap_map` of one normal page, where no huge page is mapped. -/
theorem Wf.pmapMap_page {fuel : ℕ} {va pa : Addr} {flags : BitVec 32}
    (hva : va &&& ~~~0xFFF#64 = va) (hwrap : va.toNat + 4096 < 2 ^ 64)
    (htop : pml4Index va ∈ F.top) (hflags : hasProt flags protHuge = false)
    (hnot : ∀ e ρ, s.leaf r va = some (e, ρ) → ρ = [])
    (hmap : s.pmapMap (fuel + 2) r va pa pageSize flags = some (true, s')) :
    Moves F s s' ∧ ∀ r' ∈ F.roots, ∀ va', pml4Index va' ∈ F.top → s'.leaf r' va' =
      if r' = r ∧ path va' = path va then some (pageEntry (pa &&& ~~~0xFFF#64) flags, [])
      else s.leaf r' va' := by
  have hend := roundUp_pageEnd hva hwrap
  have hlt : va < va + pageSize := by
    rw [BitVec.lt_def, BitVec.toNat_add, show pageSize.toNat = 4096 from rfl,
      Nat.mod_eq_of_lt hwrap]
    omega
  obtain ⟨ok, s₁, heq, hmoves, -, hleaf⟩ := h.mapPage hr htop hflags hnot (pa &&& ~~~0xFFF#64)
  rw [PmState.pmapMap, if_neg (by decide)] at hmap
  simp only [mapStep, hflags, Bool.false_eq_true, if_false, pageMask, hend, hva] at hmap
  -- the loop maps the page and is done
  rw [PmState.mapLoop, if_pos hlt, heq] at hmap
  cases ok with
  | false => cases hmap
  | true =>
      simp only [PmState.mapLoop, if_neg (BitVec.lt_irrefl _), Option.some.injEq, Prod.mk.injEq,
        true_and] at hmap
      subst hmap
      exact ⟨hmoves, hleaf rfl⟩

/-- `pmap_unmap` of one page, in the user half. -/
theorem Wf.pmapUnmap_page {fuel : ℕ} {va : Addr} (hva : va &&& ~~~0xFFF#64 = va)
    (htop : pml4Index va ∈ F.top) (huser : pml4Index va ∈ userTop)
    (hunmap : s.pmapUnmap fuel r va pageSize = some s') : Moves F s s' := by
  have hlow : va.toNat + 2 ^ 47 ≤ 2 ^ 64 := by
    have hlt : (pml4Index va).toNat < 256 := huser
    rw [toNat_pml4Index] at hlt
    omega
  have hva' := congrArg BitVec.toNat hva
  rw [toNat_roundDown] at hva'
  have hend : ((va + pageSize + 0xFFF#64) &&& ~~~0xFFF#64).toNat = va.toNat + 4096 := by
    rw [roundUp_pageEnd hva (by omega), BitVec.toNat_add, show pageSize.toNat = 4096 from rfl,
      Nat.mod_eq_of_lt (by omega)]
  refine (h.pmapUnmap hr (fun va' hle hlt => ?_) (Or.inr (by omega)) hunmap).1
  -- all addresses of the page have the same first index
  have hindex : pml4Index va' = pml4Index va := by
    rw [hva, BitVec.le_def] at hle
    rw [BitVec.lt_def, hend] at hlt
    rw [← BitVec.toNat_inj, toNat_pml4Index, toNat_pml4Index]
    omega
  rw [hindex]
  exact htop

end Ranges

/-! ### Fewer trees

A statement about all roots is also one about some of them. -/

/-- Tables well formed for some roots are so for fewer. -/
theorem Wf.mono {roots roots' : Set Addr} {top : Set (BitVec 9)} (h : s.Wf (forest roots top))
    (hsub : roots' ⊆ roots) : s.Wf (forest roots' top) where
  depth := rfl
  sep r π r' π' q hπ hπ' hq hq' :=
    h.sep r π r' π' q ⟨hsub hπ.1, hπ.2⟩ ⟨hsub hπ'.1, hπ'.2⟩ hq hq'
  owned r π q hπ hq := h.owned r π q ⟨hsub hπ.1, hπ.2⟩ hq
  upper r π q i hπ hlen hq := h.upper r π q i ⟨hsub hπ.1, hπ.2⟩ hlen hq

omit [PageAllocator σ] [LawfulPageAllocator σ] in
/-- A table of fewer roots is one of all of them. -/
theorem isTable_mono {roots roots' : Set Addr} {top : Set (BitVec 9)} (hsub : roots' ⊆ roots)
    {q : Addr} (h : s.IsTable (forest roots' top) q) : s.IsTable (forest roots top) q := by
  obtain ⟨r, π, hπ, hq⟩ := h
  exact ⟨r, π, ⟨hsub hπ.1, hπ.2⟩, hq⟩

/-! ### A root without tables

The tree of a new address space, before anything is mapped in it. -/

/-- A page whose entries are zero is a tree by itself. -/
theorem wf_of_zero {k : Addr} {top : Set (BitVec 9)} (hk : k ≠ 0) (halloc : s.Allocated k)
    (hzero : ∀ i ∈ top, s.mem k i = 0#64) : s.Wf (forest {k} top) := by
  -- with every entry zero the only table of the forest is the root itself
  have hroot : ∀ r π q, (forest {k} top).Has r π → s.table r π = some q →
      r = k ∧ π = [] ∧ q = k := by
    rintro r π q ⟨rfl, -, htop⟩ hq
    cases π with
    | nil => exact ⟨rfl, rfl, (Option.some.inj hq).symm⟩
    | cons i π =>
        rw [table, node, hzero i (htop i rfl), Entry.child_zero] at hq
        cases hq
  refine ⟨rfl, fun r π r' π' q hπ hπ' hq hq' => ?_, fun r π q hπ hq => ?_,
    fun r π q i hπ _ hq => ?_⟩
  · obtain ⟨rfl, rfl, -⟩ := hroot r π q hπ hq
    obtain ⟨rfl, rfl, -⟩ := hroot r' π' q hπ' hq'
    exact ⟨rfl, rfl⟩
  · obtain ⟨-, -, rfl⟩ := hroot r π q hπ hq
    exact Or.inl ⟨hk, halloc⟩
  · obtain ⟨rfl, rfl, rfl⟩ := hroot r π q hπ.of_append hq
    rw [hzero i (hπ.2.2 i rfl)]
    exact Entry.huge_zero

omit [LawfulPageAllocator σ] in
/-- `pmap_destroy` for an address space in which nothing has been mapped. -/
theorem pmapDestroy_of_zero {t : Addr} (hzero : ∀ i ∈ userTop, s.mem t i = 0#64) :
    s.pmapDestroy t = s.freePages t := by
  unfold pmapDestroy
  refine congrArg (freePages · t) (List.foldlRecOn (motive := fun s' => s' = s) _ _ rfl ?_)
  rintro _ rfl i hi
  have hlt : BitVec.ofNat 9 i ∈ userTop := by
    have := List.mem_range.mp hi
    show BitVec.ofNat 9 i < 256#9
    rw [BitVec.lt_def, BitVec.toNat_ofNat]
    simp
    omega
  simp [hzero _ hlt]

/-! ### The kernel half

All roots have the same entries from 256 on, and what hangs below these is never touched by anything
that works on the lower half. The entries are copied when a root is made, so this is an invariant
only as long as the kernel's own root does not get new ones. -/

/-- The address spaces `roots` have the kernel half that the root `k` had in the state `s₀`. -/
structure Isolated (s₀ : PmState σ) (k : Addr) (roots : Set Addr) (s : PmState σ) : Prop where
  wf : s.Wf (forest roots userTop)
  shared : ∀ q, s₀.Shared k q → s.Outside (forest roots userTop) q ∧ s.mem q = s₀.mem q ∧
    (.free q ∈ s.trace → .free q ∈ s₀.trace)
  top : ∀ r ∈ roots, ∀ i ∈ kernelTop, s.mem r i = s₀.mem k i

variable {s₀ : PmState σ} {k : Addr} {roots : Set Addr}

/-- The kernel half of an isolated root translates as at the start. -/
theorem Isolated.entries_eq (h : Isolated s₀ k roots s) {r va : Addr} (hr : r ∈ roots)
    (hva : pml4Index va ∈ kernelTop) : s.entries r va = s₀.entries k va :=
  PmState.entries_eq hva (h.top r hr _ hva) fun q hq => (h.shared q hq).2.1

/-- What works on the user half only keeps the kernel half. -/
theorem Isolated.step (h : Isolated s₀ k roots s) (hstep : Step (forest roots userTop) s s') :
    Isolated s₀ k roots s' where
  wf := hstep.wf
  shared q hq := by
    obtain ⟨hout, hmem, hfree⟩ := h.shared q hq
    obtain ⟨hout', hmem', hfree'⟩ := hstep.outside q hout
    exact ⟨hout', hmem'.trans hmem, fun hf => hfree (hfree' hf)⟩
  top r hr i hi := (hstep.rest r hr i (not_mem_userTop.mpr hi)).trans (h.top r hr i hi)

/-- So does everything that leaves the tables alone. -/
theorem Isolated.congr (h : Isolated s₀ k roots s)
    (hmem : ∀ q, s.IsTable (forest roots userTop) q ∨ s₀.Shared k q → s'.mem q = s.mem q)
    (halloc : ∀ q, s.IsTable (forest roots userTop) q ∨ s₀.Shared k q → q ≠ 0 → s.Allocated q →
      s'.Allocated q)
    (hfree : ∀ q, s₀.Shared k q → .free q ∈ s'.trace → .free q ∈ s.trace) :
    Isolated s₀ k roots s' where
  wf := h.wf.congr (fun q hq => hmem q (Or.inl hq)) fun q hq => halloc q (Or.inl hq)
  shared q hq := by
    obtain ⟨hout, hmem₀, hfree₀⟩ := h.shared q hq
    refine ⟨⟨hout.ne_zero, halloc q (Or.inr hq) hout.ne_zero hout.allocated, ?_⟩,
      (hmem q (Or.inr hq)).trans hmem₀, fun hf => hfree₀ (hfree q hq hf)⟩
    -- a shared table that became one of the user's would already have been one before
    rintro ⟨r, π, hπ, htable⟩
    refine hout.not_table ⟨r, π, hπ, ?_⟩
    rw [← htable]
    exact (node_congr (fun q' hq' => hmem q' (Or.inl hq')) hπ).symm
  top r hr i hi := by
    rw [hmem r (Or.inl ⟨r, [], Shape.has_nil hr, rfl⟩)]
    exact h.top r hr i hi

/-- Fewer roots are isolated as well. -/
theorem Isolated.mono (h : Isolated s₀ k roots s) {roots' : Set Addr} (hsub : roots' ⊆ roots) :
    Isolated s₀ k roots' s where
  wf := h.wf.mono hsub
  shared q hq := by
    obtain ⟨hout, hrest⟩ := h.shared q hq
    exact ⟨⟨hout.ne_zero, hout.allocated, fun ht => hout.not_table (isTable_mono hsub ht)⟩, hrest⟩
  top r hr := h.top r (hsub hr)

/-- `pmap_create` copies the kernel half. -/
theorem Isolated.create (h : Isolated s₀ k roots s) (hk : k ∈ roots) (hne : k ≠ 0) :
    Isolated s₀ k (insert (s.pmapCreate k).1 roots) (s.pmapCreate k).2 := by
  obtain ⟨hwf, hout⟩ := h.wf.create k
  -- the new root is not the kernel's: it was free before
  have hfresh : k ≠ s.allocPages.1 := by
    intro heq
    rcases h.wf.owned k [] k (Shape.has_nil hk) rfl with ⟨-, halloc⟩ | ⟨-, hzero⟩
    · exact LawfulPageAllocator.alloc_fresh s.pmm (heq ▸ hne) (heq ▸ halloc)
    · exact hne hzero
  refine ⟨hwf, fun q hq => ?_, fun r hr i hi => ?_⟩
  · obtain ⟨hout₀, hmem₀, hfree₀⟩ := h.shared q hq
    obtain ⟨hout', hmem', hfree'⟩ := hout q hout₀
    exact ⟨hout', hmem'.trans hmem₀, fun hf => hfree₀ (hfree' hf)⟩
  · rw [pmapCreate_mem]
    split
    · rw [if_pos ⟨hi, hfresh⟩, h.top k hk i hi]
    next hr' => exact h.top r ((Set.mem_insert_iff.mp hr).resolve_left hr') i hi

/-- An address space that is destroyed before anything is mapped in it. -/
theorem Isolated.destroyNew {t : Addr} (h : Isolated s₀ k (insert t roots) s)
    (ht : t ∈ roots → t = 0) (hzero : ∀ i ∈ userTop, s.mem t i = 0#64) :
    Isolated s₀ k roots (s.pmapDestroy t) := by
  have htable : s.IsTable (forest (insert t roots) userTop) t :=
    ⟨t, [], Shape.has_nil (Set.mem_insert t roots), rfl⟩
  -- the new root is none of the other tables: each table has one place in the forest
  have hne : ∀ q, s.IsTable (forest roots userTop) q ∨ s₀.Shared k q → q ≠ 0 → q ≠ t := by
    rintro q (⟨r, π, hπ, hq⟩ | hq) hq0 rfl
    · obtain ⟨rfl, -⟩ := h.wf.sep r π q [] q ⟨Set.mem_insert_of_mem _ hπ.1, hπ.2⟩
        (Shape.has_nil (Set.mem_insert q roots)) hq rfl
      exact hq0 (ht hπ.1)
    · exact (h.shared q hq).1.not_table htable
  -- an address space without user entries is destroyed by freeing its root alone
  rw [pmapDestroy_of_zero hzero]
  refine (h.mono (Set.subset_insert t roots)).congr (fun _ _ => rfl) (fun q hq hq0 halloc => ?_)
    fun q hq hf => ?_
  · exact LawfulPageAllocator.free_mono _ _ _ halloc (hne q hq hq0)
  · have hqt := hne q (Or.inr hq) (h.shared q hq).1.ne_zero
    simpa [freePages, hqt] using hf

/-- The tables below the kernel half are the same for all roots. -/
theorem Isolated.table_eq (h : Isolated s₀ k roots s) {r : Addr} (hr : r ∈ roots) {i : BitVec 9}
    (hi : i ∈ kernelTop) {π : List (BitVec 9)} (hπ : π.length < 3) :
    s.table r (i :: π) = s₀.table k (i :: π) := by
  induction π using List.reverseRecOn with
  | nil => simp [table, node, h.top r hr i hi]
  | append_singleton π j ih =>
      have hlen : π.length < 3 := by
        rw [List.length_append] at hπ
        omega
      rw [← List.cons_append, table_snoc, table_snoc, ih hlen]
      cases hq : s₀.table k (i :: π) with
      | none => rfl
      | some q => simp [(h.shared q ⟨i, hi, π, hlen, hq⟩).2.1]

/-- Any state reached may be taken for the one to compare with. -/
theorem Isolated.rebase (h : Isolated s₀ k roots s) (hk : k ∈ roots) : Isolated s k roots s where
  wf := h.wf
  shared q := by
    rintro ⟨i, hi, π, hπ, hq⟩
    rw [h.table_eq hk hi hπ] at hq
    exact ⟨(h.shared q ⟨i, hi, π, hπ, hq⟩).1, rfl, id⟩
  top r hr i hi := (h.top r hr i hi).trans (h.top k hk i hi).symm

/-! ### The kernel's own tables

At boot there is one root, and the calls that build the kernel's half are the only ones that go
above it. -/

/-- The tables of the kernel's pmap while there is no other: nothing is mapped in the user half. -/
structure KernelTables (s : PmState σ) (k : Addr) : Prop where
  ne_zero : k ≠ 0
  wf : s.Wf (forest {k} kernelTop)
  low : ∀ i ∈ userTop, s.mem k i = 0#64

/-- `pmap_init`. -/
theorem kernelTables_pmapInit (h : s.pmapInit = (some k, s')) : s'.KernelTables k := by
  unfold pmapInit at h
  dsimp only at h
  split at h
  · cases h
  next hne =>
    cases h
    have hzero : ∀ i, (s.allocPages.2.clear s.allocPages.1).mem s.allocPages.1 i = 0#64 := by
      simp [clear]
    exact ⟨hne, wf_of_zero hne (LawfulPageAllocator.alloc_mem s.pmm hne) fun i _ => hzero i,
      fun i _ => hzero i⟩

/-- The calls of `pmap_map` with which the kernel builds its half. -/
theorem KernelTables.pmapMap (h : s.KernelTables k) {fuel : ℕ} {virt phys size : Addr}
    {flags : BitVec 32} {ok : Bool}
    (htop : InTop (forest {k} kernelTop) (virt &&& ~~~(mapStep flags - 1))
      ((virt + size + (mapStep flags - 1)) &&& ~~~(mapStep flags - 1)))
    (hnot : hasProt flags protHuge = false → s.NoHuge k (virt &&& ~~~(mapStep flags - 1))
      ((virt + size + (mapStep flags - 1)) &&& ~~~(mapStep flags - 1)))
    (hmap : s.pmapMap fuel k virt phys size flags = some (ok, s')) : s'.KernelTables k := by
  have hstep := (h.wf.pmapMap (Set.mem_singleton k) htop hnot hmap).moves.step h.wf
  refine ⟨h.ne_zero, hstep.wf, fun i hi => ?_⟩
  rw [hstep.rest k rfl i fun hi' => not_mem_userTop.mpr hi' hi, h.low i hi]

/-- The kernel's own root is isolated at the start. -/
theorem KernelTables.isolated (h : s.KernelTables k) : Isolated s k {k} s := by
  have halloc : s.Allocated k := by
    rcases h.wf.owned k [] k (Shape.has_nil rfl) rfl with ⟨-, halloc⟩ | ⟨-, hzero⟩
    · exact halloc
    · exact absurd hzero h.ne_zero
  -- the lower half of the kernel's root is empty, so that the user's forest is the root alone
  have hwf : s.Wf (forest {k} userTop) := wf_of_zero h.ne_zero halloc h.low
  refine ⟨hwf, fun q hq => ⟨?_, rfl, id⟩, fun r hr i _ => by rw [hr]⟩
  obtain ⟨i, hi, π, hlen, hq⟩ := hq
  have hπ : (forest {k} kernelTop).Has k (i :: π) := by
    refine ⟨rfl, hlen, fun j hj => ?_⟩
    obtain rfl : i = j := Option.some.inj hj
    exact hi
  rcases h.wf.owned k (i :: π) q hπ hq with ⟨hne, hq'⟩ | ⟨hnil, -⟩
  swap
  · cases hnil
  refine ⟨hne, hq', ?_⟩
  rintro ⟨r, π', ⟨rfl, -, htop⟩, hq''⟩
  cases π' with
  | nil =>
      obtain rfl : r = q := Option.some.inj hq''
      obtain ⟨-, hnil⟩ := h.wf.sep r (i :: π) r [] r hπ (Shape.has_nil rfl) hq rfl
      cases hnil
  | cons j π' =>
      simp only [node, h.low j (htop j rfl), Entry.child_zero] at hq''
      cases hq''

end PmState

end Koharu
