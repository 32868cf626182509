import Koharu.Arch.PmapInvariant
import Koharu.Lib.Word

/-!
# Page tables refine a map

The user half of an address space, seen from outside, is a map from virtual pages to frames:
`pmap_map` overwrites the pages its range covers, `pmap_unmap` erases them, and `pmap_extract`
looks an address up (`pmapExtract_of_run`). Creating tables on demand and giving the empty ones
back leaves no trace in it.

This is about normal pages. Frames are numbered by the 40 bits that an entry has for them.
-/

namespace Koharu

open Radix

/-! ### The map

The abstract model: a partial function from page numbers to frames, with the operations that
`pmap_map`, `pmap_unmap` and `pmap_extract` stand for. Frames have 40 bits, as in the entries. -/

/-- The range of `size` bytes from `virt` on has a byte in `page`. -/
def Covers (virt size page : ℕ) : Prop :=
  0 < size ∧ virt / 4096 ≤ page ∧ page * 4096 < virt + size

instance (virt size page : ℕ) : Decidable (Covers virt size page) :=
  inferInstanceAs (Decidable (_ ∧ _ ∧ _))

/-- The frame of each virtual page that is mapped. -/
abbrev AddressSpace := ℕ → Option (BitVec 40)

namespace AddressSpace

/-- Nothing is mapped. -/
def empty : AddressSpace := fun _ => none

/-- Map the pages of a range to consecutive frames. -/
def map (m : AddressSpace) (virt phys size : ℕ) : AddressSpace := fun page =>
  if Covers virt size page then some (BitVec.ofNat 40 (phys / 4096 + (page - virt / 4096)))
  else m page

/-- Erase the pages of a range. -/
def unmap (m : AddressSpace) (virt size : ℕ) : AddressSpace := fun page =>
  if Covers virt size page then none else m page

/-- The physical address of a virtual one, or `0`. -/
def extract (m : AddressSpace) (va : Addr) : Addr :=
  match m (va.toNat / 4096) with
  | none => 0
  | some frame => frame.setWidth 64 <<< 12 + (va &&& 0xFFF#64)

end AddressSpace

/-! ### Addresses and their indices

The four indices of an address as digits of its page number, which connects paths of tables with
page numbers. -/

/-- The first index as an arithmetic expression. -/
theorem toNat_pml4Index (va : Addr) : (pml4Index va).toNat = va.toNat / 2 ^ 39 % 512 := by
  simp [pml4Index, Nat.shiftRight_eq_div_pow]

/-- The second index. -/
theorem toNat_pdptIndex (va : Addr) : (pdptIndex va).toNat = va.toNat / 2 ^ 30 % 512 := by
  simp [pdptIndex, Nat.shiftRight_eq_div_pow]

/-- The third index. -/
theorem toNat_pdIndex (va : Addr) : (pdIndex va).toNat = va.toNat / 2 ^ 21 % 512 := by
  simp [pdIndex, Nat.shiftRight_eq_div_pow]

/-- The last index. -/
theorem toNat_ptIndex (va : Addr) : (ptIndex va).toNat = va.toNat / 2 ^ 12 % 512 := by
  simp [ptIndex, Nat.shiftRight_eq_div_pow]

/-- The indices of two addresses agree only if the addresses are on one page. -/
theorem path_eq_iff {va va' : Addr} (h : va.toNat < 2 ^ 48) (h' : va'.toNat < 2 ^ 48) :
    PmState.path va' = PmState.path va ↔ va'.toNat / 4096 = va.toNat / 4096 := by
  simp only [PmState.path, List.cons.injEq, and_true, ← BitVec.toNat_inj, toNat_pml4Index,
    toNat_pdptIndex, toNat_pdIndex, toNat_ptIndex]
  omega

/-- An address of the lower half has its first index in the lower half of the root. -/
theorem pml4Index_mem_userTop {va : Addr} (h : va.toNat < 2 ^ 47) : pml4Index va ∈ userTop := by
  change pml4Index va < 256#9
  rw [BitVec.lt_def, toNat_pml4Index]
  simp
  omega

/-- The address field of an entry is the frame's, cut to 40 bits. -/
theorem addr_pageEntry_eq (pa : Addr) (flags : BitVec 32) :
    (pageEntry pa flags).addr = (BitVec.ofNat 40 (pa.toNat / 4096)).setWidth 64 <<< 12 := by
  rw [addr_pageEntry, ← BitVec.toNat_inj, Word.toNat_and_mask (a := 12) (w := 40) (by decide)]
  simp [Nat.shiftLeft_eq]
  omega

/-! ### The tables represent the map

For every address of the lower half: the leaf of its path is a page entry with the frame of the map,
or there is none. -/

namespace PmState

variable {σ : Type*} [PageAllocator σ] [LawfulPageAllocator σ] {s s' : PmState σ} {root : Addr}
  {m : AddressSpace}

/-- The entry of a page that is mapped to `frame`, as far as the map is concerned. -/
def Maps (x : Option (Entry × List (BitVec 9))) (frame : Option (BitVec 40)) : Prop :=
  match x, frame with
  | none, none => True
  | some (e, ρ), some frame => ρ = [] ∧ e.addr = frame.setWidth 64 <<< 12
  | _, _ => False

/-- The tables below `root` represent `m`. -/
structure Represents (s : PmState σ) (root : Addr) (m : AddressSpace) : Prop where
  wf : s.Wf (forest {root} userTop)
  maps : ∀ va, va.toNat < 2 ^ 47 → Maps (s.leaf root va) (m (va.toNat / 4096))

/-- A map of pages is represented by entries of the last level only. -/
theorem Represents.not_huge (h : s.Represents root m) {va : Addr} (hva : va.toNat < 2 ^ 47)
    (e : Entry) (ρ : List (BitVec 9)) (hleaf : s.leaf root va = some (e, ρ)) : ρ = [] := by
  have hmaps := h.maps va hva
  rw [hleaf] at hmaps
  cases hm : m (va.toNat / 4096) with
  | none => simp [Maps, hm] at hmaps
  | some frame =>
      rw [hm] at hmaps
      exact hmaps.1

/-- `pmap_extract` looks the map up. -/
theorem Represents.extract (h : s.Represents root m) {va : Addr} (hva : va.toNat < 2 ^ 47) :
    s.pmapExtract root va = m.extract va := by
  have hmaps := h.maps va hva
  rw [h.wf.extract_eq rfl (pml4Index_mem_userTop hva), AddressSpace.extract]
  -- the walk and the map find something together, and then the same frame
  cases hleaf : s.leaf root va with
  | none =>
      cases hm : m (va.toNat / 4096) with
      | none => rfl
      | some frame => simp [Maps, hleaf, hm] at hmaps
  | some x =>
      obtain ⟨e, ρ⟩ := x
      cases hm : m (va.toNat / 4096) with
      | none => simp [Maps, hleaf, hm] at hmaps
      | some frame =>
          simp only [Maps, hleaf, hm] at hmaps
          obtain ⟨rfl, haddr⟩ := hmaps
          exact congrArg (· + (va &&& 0xFFF#64)) haddr

/-- A step that changes what is found at one page changes the map there. -/
theorem Represents.update (h : s.Represents root m) {va : Addr} (hva : va.toNat < 2 ^ 47)
    {x : Option (Entry × List (BitVec 9))} {frame : Option (BitVec 40)} (hx : Maps x frame)
    (hstep : Step (forest {root} userTop) s s')
    (hleaf : ∀ r' ∈ ({root} : Set Addr), ∀ va', pml4Index va' ∈ userTop → s'.leaf r' va' =
      if r' = root ∧ path va' = path va then x else s.leaf r' va') :
    s'.Represents root fun page => if page = va.toNat / 4096 then frame else m page := by
  refine ⟨hstep.wf, fun va' hva' => ?_⟩
  rw [hleaf root rfl va' (pml4Index_mem_userTop hva')]
  simp only [true_and, path_eq_iff (by omega : va.toNat < 2 ^ 48) (by omega : va'.toNat < 2 ^ 48)]
  split
  · exact hx
  · exact h.maps va' hva'

/-- `pmap_map_page`. -/
theorem Represents.mapPage (h : s.Represents root m) (va : Addr) (hva : va.toNat < 2 ^ 47)
    {flags : BitVec 32} (hflags : hasProt flags protHuge = false) (pa : Addr) :
    ∃ ok s', s.pmapMapPage root va pa flags = (ok, s') ∧
      (ok = true → s'.Represents root fun page =>
        if page = va.toNat / 4096 then some (BitVec.ofNat 40 (pa.toNat / 4096)) else m page) := by
  obtain ⟨ok, s', heq, hmoves, -, hleaf⟩ := h.wf.mapPage (r := root) rfl (pml4Index_mem_userTop hva)
    hflags (h.not_huge hva) pa
  refine ⟨ok, s', heq, fun hok => ?_⟩
  exact h.update hva (x := some (pageEntry pa flags, [])) ⟨rfl, addr_pageEntry_eq pa flags⟩
    (hmoves.step h.wf) (hleaf hok)

/-- `pmap_unmap_page`. -/
theorem Represents.unmapPage (h : s.Represents root m) (va : Addr) (hva : va.toNat < 2 ^ 47) :
    ∃ s', s.pmapUnmapPage root va = (pageSize, s') ∧ s'.Represents root fun page =>
      if page = va.toNat / 4096 then none else m page := by
  obtain ⟨advance, s', heq, hmoves, -, hleaf⟩ :=
    h.wf.unmapPage (r := root) rfl (pml4Index_mem_userTop hva)
  obtain ⟨rfl, hleaf'⟩ := hleaf (h.not_huge hva)
  exact ⟨s', heq, h.update hva (x := none) trivial (hmoves.step h.wf) hleaf'⟩

/-! ### The loops

By induction on the fuel, each turn updates the map at one page. That the fuel is enough is proved
separately, from the distance to the end. -/

/-- The next page of a range does not wrap. -/
theorem toNat_add_pageSize {va vaEnd : Addr} (hlt : va < vaEnd) (hend : vaEnd.toNat ≤ 2 ^ 47) :
    (va + pageSize).toNat = va.toNat + 4096 := by
  rw [BitVec.lt_def] at hlt
  simp [BitVec.toNat_add, pageSize]
  omega

/-- The next page of physical memory has the next frame. -/
theorem frame_succ (pa : Addr) (n : ℕ) : BitVec.ofNat 40 ((pa + pageSize).toNat / 4096 + n) =
    BitVec.ofNat 40 (pa.toNat / 4096 + (n + 1)) := by
  rw [← BitVec.toNat_inj]
  simp [BitVec.toNat_add, pageSize]
  omega

section Loops

variable {vaEnd : Addr} (hend : vaEnd.toNat ≤ 2 ^ 47) (halign : vaEnd.toNat % 4096 = 0)

include hend halign

/-- The loop of `pmap_map`, where no page fails. -/
theorem Represents.mapLoop {flags : BitVec 32} (hflags : hasProt flags protHuge = false)
    (fuel : ℕ) {va pa : Addr} (h : s.Represents root m) (hva : va.toNat % 4096 = 0)
    (hloop : mapLoop root vaEnd pageSize flags fuel va pa s = some (true, s')) :
    s'.Represents root fun page =>
      if va.toNat / 4096 ≤ page ∧ page < vaEnd.toNat / 4096 then
        some (BitVec.ofNat 40 (pa.toNat / 4096 + (page - va.toNat / 4096)))
      else m page := by
  induction fuel generalizing s m va pa with
  | zero => cases hloop
  | succ fuel ih =>
      rw [PmState.mapLoop] at hloop
      split at hloop
      next hlt =>
        have hlt' := BitVec.lt_def.mp hlt
        obtain ⟨ok, s₁, heq, hs₁⟩ := h.mapPage va (by omega) hflags pa
        rw [heq] at hloop
        cases ok with
        | false => cases hloop
        | true =>
            have hnext := toNat_add_pageSize hlt hend
            have := ih (hs₁ rfl) (by rw [hnext]; omega) hloop
            rw [hnext] at this
            -- the page of this round, and those of the rest of the loop
            convert this using 2 with page
            rcases lt_trichotomy page (va.toNat / 4096) with hpage | rfl | hpage
            · rw [if_neg (by omega), if_neg (by omega), if_neg (by omega)]
            · rw [if_pos (by omega), if_neg (by omega), if_pos rfl, Nat.sub_self, Nat.add_zero]
            · by_cases hlast : page < vaEnd.toNat / 4096
              · have hsucc : page - va.toNat / 4096 = page - (va.toNat + 4096) / 4096 + 1 := by
                  omega
                rw [if_pos (by omega), if_pos (by omega), frame_succ, hsucc]
              · rw [if_neg (by omega), if_neg (by omega), if_neg (by omega)]
      next hlt =>
        cases hloop
        have hlt' : ¬ va.toNat < vaEnd.toNat := fun hlt' => hlt (BitVec.lt_def.mpr hlt')
        convert h using 2 with page
        rw [if_neg (by omega)]

/-- The loop of `pmap_unmap`. -/
theorem Represents.unmapLoop (fuel : ℕ) {va : Addr} (h : s.Represents root m)
    (hva : va.toNat % 4096 = 0) (hloop : unmapLoop root vaEnd fuel va s = some s') :
    s'.Represents root fun page =>
      if va.toNat / 4096 ≤ page ∧ page < vaEnd.toNat / 4096 then none else m page := by
  induction fuel generalizing s m va with
  | zero => cases hloop
  | succ fuel ih =>
      rw [PmState.unmapLoop] at hloop
      split at hloop
      next hlt =>
        have hlt' := BitVec.lt_def.mp hlt
        obtain ⟨s₁, heq, hs₁⟩ := h.unmapPage va (by omega)
        rw [heq] at hloop
        have hnext := toNat_add_pageSize hlt hend
        have := ih hs₁ (by rw [hnext]; omega) hloop
        rw [hnext] at this
        convert this using 2 with page
        -- pages before the first one, the first one, and those that the rest of the loop unmaps
        rcases lt_trichotomy page (va.toNat / 4096) with hpage | rfl | hpage
        · rw [if_neg (by omega), if_neg (by omega), if_neg (by omega)]
        · rw [if_pos (by omega), if_neg (by omega), if_pos rfl]
        · by_cases hlast : page < vaEnd.toNat / 4096
          · rw [if_pos (by omega), if_pos (by omega)]
          · rw [if_neg (by omega), if_neg (by omega), if_neg (by omega)]
      next hlt =>
        cases hloop
        have hlt' : ¬ va.toNat < vaEnd.toNat := fun hlt' => hlt (BitVec.lt_def.mpr hlt')
        convert h using 2 with page
        rw [if_neg (by omega)]

/-- The loop of `pmap_unmap` ends. -/
theorem Represents.unmapLoop_returns (fuel : ℕ) (va : Addr) (h : s.Represents root m)
    (hva : va.toNat % 4096 = 0) (hfuel : vaEnd.toNat - va.toNat < fuel) :
    ∃ s', PmState.unmapLoop root vaEnd fuel va s = some s' := by
  induction fuel generalizing s m va with
  | zero => omega
  | succ fuel ih =>
      rw [PmState.unmapLoop]
      split
      next hlt =>
        have hlt' := BitVec.lt_def.mp hlt
        obtain ⟨s₁, heq, hs₁⟩ := h.unmapPage va (by omega)
        have hnext := toNat_add_pageSize hlt hend
        rw [heq]
        exact ih _ hs₁ (by rw [hnext]; omega) (by rw [hnext]; omega)
      next => exact ⟨s, rfl⟩

end Loops

/-- An address below the end stays below or at the end when it advances by one step, since both are
multiples of the step. -/
theorem toNat_add_step {vaEnd step va : Addr} (hend : step.toNat ∣ vaEnd.toNat)
    (hva : step.toNat ∣ va.toNat) (hlt : va < vaEnd) :
    (va + step).toNat = va.toNat + step.toNat := by
  have hlt' := BitVec.lt_def.mp hlt
  have hle : va.toNat + step.toNat ≤ vaEnd.toNat := by
    obtain ⟨a, ha⟩ := hva
    obtain ⟨b, hb⟩ := hend
    rw [ha, hb] at hlt' ⊢
    have hab : a + 1 ≤ b := Nat.lt_of_mul_lt_mul_left hlt'
    calc step.toNat * a + step.toNat = step.toNat * (a + 1) := (Nat.mul_succ _ _).symm
      _ ≤ step.toNat * b := Nat.mul_le_mul_left _ hab
  rw [BitVec.toNat_add, Nat.mod_eq_of_lt]
  have := vaEnd.isLt
  omega

omit [LawfulPageAllocator σ] in
/-- The loop of `pmap_map` ends, whatever the tables are: its address advances and does not
wrap. -/
theorem mapLoop_returns {vaEnd step va : Addr} (root : Addr) (flags : BitVec 32)
    (hstep : 0 < step.toNat) (hend : step.toNat ∣ vaEnd.toNat) (hva : step.toNat ∣ va.toNat)
    (fuel : ℕ) (hfuel : vaEnd.toNat - va.toNat < fuel) (pa : Addr) (s : PmState σ) :
    ∃ ok s', mapLoop root vaEnd step flags fuel va pa s = some (ok, s') := by
  induction fuel generalizing s va pa with
  | zero => omega
  | succ fuel ih =>
      rw [mapLoop]
      split
      next hlt =>
        have hlt' := BitVec.lt_def.mp hlt
        -- the address stays on the grid of `step` and does not pass `vaEnd`, so that it moves on
        -- for good
        have hnext := toNat_add_step hend hva hlt
        obtain ⟨ok, s₁⟩ := s.pmapMapPage root va pa flags
        cases ok with
        | false => exact ⟨_, _, rfl⟩
        | true =>
            exact ih (by rw [hnext]; exact Nat.dvd_add hva dvd_rfl) (by rw [hnext]; omega) _ _
      next => exact ⟨_, _, rfl⟩

/-! ### Whole calls

The rounding of the range, after which the loops apply. In the lower half nothing wraps. -/

/-- The step of the mapping loop is 2 MiB or 4 KiB. -/
theorem toNat_mapStep (flags : BitVec 32) :
    (mapStep flags).toNat = if hasProt flags protHuge then 2 ^ 21 else 2 ^ 12 := by
  unfold mapStep
  split_ifs <;> rfl

/-- Rounding in `pmap_map`. -/
theorem toNat_round (flags : BitVec 32) (x : Addr) : (x &&& ~~~(mapStep flags - 1)).toNat =
    x.toNat / (mapStep flags).toNat * (mapStep flags).toNat := by
  rw [toNat_mapStep, mapStep]
  split
  · exact Word.toNat_and_high (a := 21) (by decide) (by decide) x
  · exact Word.toNat_and_high (a := 12) (by decide) (by decide) x

/-- The mask of the offset in a page. -/
theorem pageMask : pageSize - 1 = 0xFFF#64 := by decide

/-- Clearing the low twelve bits rounds down to a page. -/
theorem toNat_roundDown (x : Addr) : (x &&& ~~~0xFFF#64).toNat = x.toNat / 4096 * 4096 :=
  Word.toNat_and_high (a := 12) (by decide) (by decide) x

/-- The end of a range in the user half, rounded up. -/
theorem toNat_roundUp {virt size : Addr} (h : virt.toNat + size.toNat ≤ 2 ^ 47) :
    ((virt + size + 0xFFF#64) &&& ~~~0xFFF#64).toNat =
      (virt.toNat + size.toNat + 4095) / 4096 * 4096 := by
  rw [toNat_roundDown]
  simp [BitVec.toNat_add]
  omega

variable {virt phys size : Addr} {flags : BitVec 32}

/-- A size that passes the test is positive. -/
theorem pos_of_size_ne_zero (hsize : size ≠ 0) : 0 < size.toNat :=
  Nat.pos_of_ne_zero fun hzero => hsize (by rw [← BitVec.toNat_inj, hzero]; rfl)

/-- The pages of a range are those from its start rounded down to its end rounded up. -/
theorem covers_iff_rounded (hsize : 0 < size.toNat) (page : ℕ) :
    Covers virt.toNat size.toNat page ↔ virt.toNat / 4096 * 4096 / 4096 ≤ page ∧
      page < (virt.toNat + size.toNat + 4095) / 4096 * 4096 / 4096 := by
  unfold Covers
  omega

section Calls

variable (h : s.Represents root m) (hrange : virt.toNat + size.toNat ≤ 2 ^ 47)

include h hrange

/-- `pmap_map`. -/
theorem Represents.pmapMap (hflags : hasProt flags protHuge = false) {fuel : ℕ}
    (hmap : s.pmapMap fuel root virt phys size flags = some (true, s')) :
    s'.Represents root (m.map virt.toNat phys.toNat size.toNat) := by
  rw [PmState.pmapMap] at hmap
  split at hmap
  · cases hmap
  next hsize =>
    have hpos := pos_of_size_ne_zero hsize
    have hend := toNat_roundUp hrange
    simp only [mapStep, hflags, Bool.false_eq_true, if_false, pageMask] at hmap
    have := h.mapLoop (by omega) (by omega) hflags fuel (by rw [toNat_roundDown]; omega) hmap
    rw [hend, toNat_roundDown, toNat_roundDown] at this
    convert this using 2 with page
    simp only [AddressSpace.map, covers_iff_rounded hpos,
      Nat.mul_div_cancel _ (by decide : 0 < 4096)]

/-- `pmap_unmap`. -/
theorem Represents.pmapUnmap {fuel : ℕ} (hunmap : s.pmapUnmap fuel root virt size = some s') :
    s'.Represents root (m.unmap virt.toNat size.toNat) := by
  rw [PmState.pmapUnmap] at hunmap
  split at hunmap
  next hsize =>
    cases hunmap
    have hsame : m.unmap virt.toNat size.toNat = m := by
      funext page
      simp [AddressSpace.unmap, Covers, hsize]
    rwa [hsame]
  next hsize =>
    have hpos := pos_of_size_ne_zero hsize
    have hend := toNat_roundUp hrange
    have := h.unmapLoop (by omega) (by omega) fuel (by rw [toNat_roundDown]; omega) hunmap
    -- the loop covers the rounded range; a page meets it iff it meets the range asked for
    rw [hend, toNat_roundDown] at this
    convert this using 2 with page
    simp only [AddressSpace.unmap, covers_iff_rounded hpos]

/-- `pmap_unmap` returns. -/
theorem Represents.pmapUnmap_returns : ∃ fuel s', s.pmapUnmap fuel root virt size = some s' := by
  have hend := toNat_roundUp hrange
  by_cases hsize : size = 0
  · exact ⟨0, s, by rw [PmState.pmapUnmap, if_pos hsize]⟩
  · have hle : ((virt + size + 0xFFF#64) &&& ~~~0xFFF#64).toNat ≤ 2 ^ 47 := by omega
    obtain ⟨s', hs'⟩ := h.unmapLoop_returns hle (by omega) (2 ^ 64) (virt &&& ~~~0xFFF#64)
      (by rw [toNat_roundDown]; omega) (by omega)
    exact ⟨2 ^ 64, s', by rw [PmState.pmapUnmap, if_neg hsize, hs']⟩

end Calls

omit [LawfulPageAllocator σ] in
/-- `pmap_map` of normal pages returns. -/
theorem pmapMap_returns (hflags : hasProt flags protHuge = false) (root virt phys size : Addr)
    (s : PmState σ) : ∃ fuel ok s', s.pmapMap fuel root virt phys size flags = some (ok, s') := by
  by_cases hsize : size = 0
  · exact ⟨0, false, s, by rw [PmState.pmapMap, if_pos hsize]⟩
  · have hdvd : ∀ x : Addr, pageSize.toNat ∣ (x &&& ~~~0xFFF#64).toNat := by
      intro x
      rw [toNat_roundDown]
      exact Nat.dvd_mul_left _ _
    obtain ⟨ok, s', hs'⟩ := mapLoop_returns root flags (by decide)
      (hdvd (virt + size + 0xFFF#64)) (hdvd virt) (2 ^ 64) (by omega) (phys &&& ~~~0xFFF#64) s
    refine ⟨2 ^ 64, ok, s', ?_⟩
    rw [PmState.pmapMap, if_neg hsize]
    simp only [mapStep, hflags, Bool.false_eq_true, if_false, pageMask, hs']

/-! ### A new address space

Runs from `pmap_create` on, and what `pmap_extract` finds in every state that they reach. -/

/-- A new pmap represents the empty map. -/
theorem represents_pmapCreate (s : PmState σ) (kernelRoot : Addr) :
    (s.pmapCreate kernelRoot).2.Represents (s.pmapCreate kernelRoot).1 .empty := by
  have hempty : s.Wf (forest ∅ userTop) :=
    ⟨rfl, fun _ _ _ _ _ hπ => hπ.1.elim, fun _ _ _ hπ => hπ.1.elim, fun _ _ _ _ hπ => hπ.1.elim⟩
  obtain ⟨hwf, -⟩ := hempty.create kernelRoot
  rw [insert_empty_eq] at hwf
  refine ⟨hwf, fun va hva => ?_⟩
  have hleaf : (s.pmapCreate kernelRoot).2.leaf (s.pmapCreate kernelRoot).1 va = none := by
    refine (leaf_of_table (π := []) rfl rfl).trans (findFrom_of_not_present ?_ _)
    have hzero := pmapCreate_mem_user (s := s) kernelRoot (pml4Index_mem_userTop hva)
    exact (congrArg Entry.present hzero).trans Entry.present_zero
  rw [hleaf]
  trivial

/-- An address space made by `pmap_create` in the state `s₀`, after any number of calls of
`pmap_map` for normal pages that return `0` and of `pmap_unmap`, all in the user half; and the map
that the calls describe. -/
inductive MapRun (s₀ : PmState σ) (kernelRoot : Addr) : PmState σ → AddressSpace → Prop
  | create : MapRun s₀ kernelRoot (s₀.pmapCreate kernelRoot).2 .empty
  | map {s s' : PmState σ} {m : AddressSpace} {fuel : ℕ} {virt phys size : Addr}
      {flags : BitVec 32} (hrun : MapRun s₀ kernelRoot s m)
      (hflags : hasProt flags protHuge = false) (hrange : virt.toNat + size.toNat ≤ 2 ^ 47)
      (hmap : s.pmapMap fuel (s₀.pmapCreate kernelRoot).1 virt phys size flags = some (true, s')) :
      MapRun s₀ kernelRoot s' (m.map virt.toNat phys.toNat size.toNat)
  | unmap {s s' : PmState σ} {m : AddressSpace} {fuel : ℕ} {virt size : Addr}
      (hrun : MapRun s₀ kernelRoot s m) (hrange : virt.toNat + size.toNat ≤ 2 ^ 47)
      (hunmap : s.pmapUnmap fuel (s₀.pmapCreate kernelRoot).1 virt size = some s') :
      MapRun s₀ kernelRoot s' (m.unmap virt.toNat size.toNat)

/-- Every run of maps and unmaps keeps the representation, by induction on the run. -/
theorem MapRun.represents {s₀ : PmState σ} {kernelRoot : Addr} (hrun : MapRun s₀ kernelRoot s m) :
    s.Represents (s₀.pmapCreate kernelRoot).1 m := by
  induction hrun with
  | create => exact represents_pmapCreate s₀ kernelRoot
  | map _ hflags hrange hmap ih => exact ih.pmapMap hrange hflags hmap
  | unmap _ hrange hunmap ih => exact ih.pmapUnmap hrange hunmap

/-- After any such calls `pmap_extract` looks the map up, for every address of the user half. The
calls themselves always return. -/
theorem pmapExtract_of_run {s₀ : PmState σ} {kernelRoot : Addr}
    (hrun : MapRun s₀ kernelRoot s m) :
    (∀ va : Addr, va.toNat < 2 ^ 47 →
      s.pmapExtract (s₀.pmapCreate kernelRoot).1 va = m.extract va) ∧
    (∀ virt phys size flags, hasProt flags protHuge = false → ∃ fuel ok s',
      s.pmapMap fuel (s₀.pmapCreate kernelRoot).1 virt phys size flags = some (ok, s')) ∧
    ∀ virt size : Addr, virt.toNat + size.toNat ≤ 2 ^ 47 → ∃ fuel s',
      s.pmapUnmap fuel (s₀.pmapCreate kernelRoot).1 virt size = some s' :=
  ⟨fun _ hva => hrun.represents.extract hva,
    fun virt phys size _ hflags => pmapMap_returns hflags _ virt phys size s,
    fun _ _ hrange => hrun.represents.pmapUnmap_returns hrange⟩

end PmState

/-! ### An allocator

A small allocator on which the hypotheses can be checked and the examples evaluated. `Arch/PmmPages`
shows the same laws for the repository's own. -/

/-- An allocator that hands out the first thousand pages of memory, one after another, and takes
none back. -/
structure BumpAllocator where
  /-- The pages handed out. -/
  count : ℕ

instance : PageAllocator BumpAllocator where
  allocPages m :=
    if m.count < 1000 then (BitVec.ofNat 64 ((m.count + 1) * 4096), ⟨m.count + 1⟩) else (0, m)
  freePages m _ := m

/-- The pages handed out do not wrap. -/
theorem bumpAllocator_page {n : ℕ} (h : n < 1000) :
    (BitVec.ofNat 64 ((n + 1) * 4096)).toNat = (n + 1) * 4096 := by
  simp
  omega

/-- The example allocator hands out the next page or is exhausted. -/
theorem bumpAllocator_cases (m : BumpAllocator) :
    (m.count < 1000 ∧ PageAllocator.allocPages m =
      (BitVec.ofNat 64 ((m.count + 1) * 4096), ⟨m.count + 1⟩)) ∨
    PageAllocator.allocPages m = (0, m) := by
  by_cases h : m.count < 1000
  · exact Or.inl ⟨h, if_pos h⟩
  · exact Or.inr (if_neg h)

instance : LawfulPageAllocator BumpAllocator where
  allocated m := {p | p.toNat ≤ m.count * 4096}
  alloc_aligned m := by
    rcases bumpAllocator_cases m with ⟨h, heq⟩ | heq
    · rw [heq, ← BitVec.toNat_inj, Word.toNat_and_mask (a := 12) (w := 40) (by decide),
        bumpAllocator_page h]
      omega
    · rw [heq]
      exact (by decide : 0#64 &&& pteAddrMask = 0#64)
  alloc_fresh m hne hmem := by
    rcases bumpAllocator_cases m with ⟨h, heq⟩ | heq
    · rw [heq] at hmem
      have hle : (BitVec.ofNat 64 ((m.count + 1) * 4096)).toNat ≤ m.count * 4096 := hmem
      rw [bumpAllocator_page h] at hle
      omega
    · exact hne (by rw [heq])
  alloc_mem m hne := by
    rcases bumpAllocator_cases m with ⟨h, heq⟩ | heq
    · rw [heq]
      exact (bumpAllocator_page h).le
    · exact absurd (by rw [heq]) hne
  alloc_mono m p hp := by
    rcases bumpAllocator_cases m with ⟨h, heq⟩ | heq
    · rw [heq]
      have hle : p.toNat ≤ m.count * 4096 := hp
      exact le_trans hle (Nat.mul_le_mul_right _ (Nat.le_succ _))
    · rw [heq]
      exact hp
  free_mono m p q hp _ := hp

namespace PmState

/-- Memory that is all zero. -/
def blank : PmState BumpAllocator where
  mem _ _ := 0#64
  pmm := ⟨0⟩
  trace := []

/-- Two pages are mapped, and the second is unmapped again. -/
theorem pmapExtract_of_run_twoPages : ∃ s m, MapRun blank 0x80000#64 s m ∧
    s.pmapExtract (blank.pmapCreate 0x80000#64).1 0x400010#64 = 0x5010#64 ∧
    s.pmapExtract (blank.pmapCreate 0x80000#64).1 0x401010#64 = 0#64 := by
  have hcheck : (((blank.pmapCreate 0x80000#64).2.pmapMap 3 (blank.pmapCreate 0x80000#64).1
      0x400000#64 0x5000#64 0x2000#64 (protRead ||| protWrite)).any fun x => x.1 &&
        (x.2.pmapUnmap 2 (blank.pmapCreate 0x80000#64).1 0x401000#64 0x1000#64).isSome) = true := by
    decide +kernel
  obtain ⟨⟨ok, s₁⟩, hmap, hcheck⟩ := (Option.any_eq_true _ _).mp hcheck
  obtain ⟨rfl, hsome⟩ : ok = true ∧ _ := by simpa only [Bool.and_eq_true] using hcheck
  obtain ⟨s₂, hunmap⟩ := Option.isSome_iff_exists.mp hsome
  -- both answers are read off the map that the run leaves
  have hrun := (MapRun.create.map (by decide) (by decide) hmap).unmap (by decide) hunmap
  obtain ⟨hextract, -, -⟩ := pmapExtract_of_run hrun
  refine ⟨s₂, _, hrun, ?_, ?_⟩
  · rw [hextract _ (by decide)]
    decide
  · rw [hextract _ (by decide)]
    decide

end PmState

end Koharu
