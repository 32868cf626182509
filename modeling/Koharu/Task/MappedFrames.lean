import Koharu.Task.MapAtomic

/-!
# The frames that virtual pages are mapped to

An address space seen page by page: `PmState.frameAt` is the frame that the leaf entry of a virtual
page points to. A huge page is the leaf entry of 512 virtual pages, each with a frame of its own.
The calls of `pmap.c` are described by what they do to these frames, in the address space that they
work on and in all others.

* `Wf.frameAt_rangePage`: the pages that `pmap_map` maps, one after another;
* `Wf.length_leaves`: how many of them it has mapped when it fails;
* `Wf.frameAt_pmapUnmap`: `pmap_unmap` of one normal page.
-/

namespace Koharu

open Radix

/-! ### Virtual pages

A page goes by its number, which is what the indices into the tables are taken from. -/

/-- The virtual page of an address. Virtual pages are numbered by the bits that the indices are made
of. -/
def virtPage (va : Addr) : BitVec 36 := (va >>> 12).setWidth 36

/-- The first address of a virtual page. -/
def pageAddr (page : BitVec 36) : Addr := page.setWidth 64 <<< 12

/-- The number of the page of an address. -/
theorem toNat_virtPage (va : Addr) : (virtPage va).toNat = va.toNat / 4096 % 2 ^ 36 := by
  simp [virtPage, Nat.shiftRight_eq_div_pow]

/-- The address where a page begins. -/
theorem toNat_pageAddr (page : BitVec 36) : (pageAddr page).toNat = page.toNat * 4096 := by
  have hlt := page.isLt
  rw [pageAddr, BitVec.toNat_shiftLeft, BitVec.toNat_setWidth, Nat.shiftLeft_eq,
    Nat.mod_eq_of_lt (by omega : page.toNat < 2 ^ 64), Nat.mod_eq_of_lt (by omega)]

/-- An address is translated along the path of its page. -/
theorem path_pageAddr_eq_iff {page : BitVec 36} {va : Addr} :
    PmState.path (pageAddr page) = PmState.path va ↔ page = virtPage va := by
  have hlt := page.isLt
  rw [PmState.path_eq_iff_div, toNat_pageAddr, ← BitVec.toNat_inj, toNat_virtPage]
  omega

/-- What the tables say about an address they say about its page. -/
theorem path_pageAddr_virtPage (va : Addr) :
    PmState.path (pageAddr (virtPage va)) = PmState.path va := path_pageAddr_eq_iff.mpr rfl

/-- The first index of an address is that of its page. -/
theorem pml4Index_pageAddr_virtPage (va : Addr) :
    pml4Index (pageAddr (virtPage va)) = pml4Index va :=
  (List.cons.inj (path_pageAddr_virtPage va)).1

namespace PmState

variable {σ : Type}

/-- The frame that a leaf entry gives a page. A huge page has a frame for each of its pages. -/
def leafFrame : Entry × List (BitVec 9) → ℕ
  | (e, []) => e.addr.toNat / 4096
  | (e, i :: _) => (e &&& pdAddrMask).toNat / 4096 + i.toNat

/-- The frame that the leaf entry of a virtual page points to, if it has one. -/
def frameAt (s : PmState σ) (root : Addr) (page : BitVec 36) : Option ℕ :=
  (s.leaf root (pageAddr page)).map leafFrame

/-- The pages of the range that `pmap_map` maps, in order. -/
def rangePage (virt : Addr) (flags : BitVec 32) (i : ℕ) : BitVec 36 :=
  BitVec.ofNat 36 ((mapStart flags virt).toNat / 4096 + i)

/-- The number of frames of one page that `pmap_map` maps. -/
def stepFrames (flags : BitVec 32) : ℕ := (mapStep flags).toNat / 4096

variable {flags : BitVec 32} {virt phys size : Addr}

/-- A step maps at least one frame. -/
theorem stepFrames_pos (flags : BitVec 32) : 0 < stepFrames flags := by
  rw [stepFrames, toNat_mapStep]
  split <;> decide

/-- The frames of a range, counted in steps. -/
theorem spanCount_eq (hsize : size ≠ 0) :
    spanCount virt size flags = mapCount flags virt size * stepFrames flags := by
  have hpos : 0 < (mapStep flags).toNat := by
    rw [toNat_mapStep]
    split <;> decide
  have hsub : ∀ a b c : ℕ, 0 < c → (a * c - b * c) / c = a - b := by
    intro a b c hc
    rw [← Nat.sub_mul, Nat.mul_div_cancel _ hc]
  rw [mapCount, if_neg hsize, mapEnd, mapStart, toNat_round, toNat_round, toNat_rangeEnd,
    hsub _ _ _ hpos]
  rfl

/-- The pages that the `k`-th page of a range of `pmap_map` is made of. -/
theorem samePage_pageAddr_iff {k : ℕ} {page : BitVec 36} :
    SamePage flags (pageAt flags (mapStart flags virt) k) (pageAddr page) ↔
      ∃ j < stepFrames flags, page = rangePage virt flags (k * stepFrames flags + j) := by
  have hlt := page.isLt
  have hstart : (mapStart flags virt).toNat =
      virt.toNat / (mapStep flags).toNat * (mapStep flags).toNat := toNat_round flags virt
  have hpage : (pageAt flags (mapStart flags virt) k).toNat =
      (virt.toNat / (mapStep flags).toNat + k) * (mapStep flags).toNat % 2 ^ 64 := by
    rw [pageAt, BitVec.toNat_add, BitVec.toNat_mul, BitVec.toNat_ofNat, hstart, Nat.mod_mul_mod,
      Nat.add_mod_mod, Nat.add_mul]
  simp only [rangePage, ← BitVec.toNat_inj, BitVec.toNat_ofNat, hstart, stepFrames]
  -- a huge page has 512 frames, a page has one
  cases hflags : hasProt flags protHuge with
  | true =>
      simp only [SamePage, hflags, if_true, take_path_eq_iff, hpage, toNat_pageAddr, toNat_mapStep]
      constructor
      · intro h
        exact ⟨page.toNat % 512, by omega, by omega⟩
      · rintro ⟨j, hj, h⟩
        omega
  | false =>
      simp only [SamePage, hflags, Bool.false_eq_true, if_false, path_eq_iff_div, hpage,
        toNat_pageAddr, toNat_mapStep]
      constructor
      · intro h
        exact ⟨0, by omega, by omega⟩
      · rintro ⟨j, hj, h⟩
        omega

/-- The number of the step in which a frame lies. -/
theorem mul_add_div_of_lt {c k j : ℕ} (h : j < c) : (k * c + j) / c = k := by
  rw [Nat.mul_comm, Nat.mul_add_div (by omega), Nat.div_eq_of_lt h, Nat.add_zero]

/-- The frames of the `k`-th page. -/
theorem leafFrame_mappedLeaf {k j : ℕ} (hj : j < stepFrames flags) :
    leafFrame (mappedLeaf flags (pageAt flags (mapStart flags phys) k)
      (pageAddr (rangePage virt flags (k * stepFrames flags + j)))) =
      spanFrame phys flags (k * stepFrames flags + j) := by
  have hstart : ∀ x : Addr, (mapStart flags x).toNat =
      x.toNat / (mapStep flags).toNat * (mapStep flags).toNat := toNat_round flags
  -- the address of the step, up to wrapping
  have hpage : (pageAt flags (mapStart flags phys) k).toNat =
      (phys.toNat / (mapStep flags).toNat + k) * (mapStep flags).toNat % 2 ^ 64 := by
    rw [pageAt, BitVec.toNat_add, BitVec.toNat_mul, BitVec.toNat_ofNat, hstart, Nat.mod_mul_mod,
      Nat.add_mod_mod, Nat.add_mul]
  rw [stepFrames, toNat_mapStep] at hj
  -- in numbers both sides are the same frame modulo 2^40
  cases hflags : hasProt flags protHuge with
  | true =>
      simp only [hflags, if_true] at hj
      simp only [mappedLeaf, hflags, if_true, leafFrame, hugeEntry_and_mask, toNat_ptIndex,
        Word.toNat_and_mask (m := pdAddrMask) (a := 21) (w := 31) (by decide), hpage,
        toNat_pageAddr, rangePage, BitVec.toNat_ofNat, hstart, stepFrames, spanFrame, toNat_mapStep]
      omega
  | false =>
      simp only [hflags, Bool.false_eq_true, if_false] at hj
      simp only [mappedLeaf, hflags, Bool.false_eq_true, if_false, leafFrame, addr_pageEntry,
        Word.toNat_and_mask (m := pteAddrMask) (a := 12) (w := 40) (by decide), hpage, stepFrames,
        spanFrame, toNat_mapStep]
      omega

/-! ### The pages of a range

Different numbers for different pages, as long as the range does not go around. -/

/-- The pages of a range are different as long as it does not go around. -/
theorem rangePage_inj {n i i' : ℕ} (hn : n ≤ 2 ^ 36) (hi : i < n) (hi' : i' < n)
    (h : rangePage virt flags i = rangePage virt flags i') : i = i' := by
  rw [rangePage, rangePage, ← BitVec.toNat_inj, BitVec.toNat_ofNat, BitVec.toNat_ofNat] at h
  omega

/-- The pages of a range have their addresses in it. -/
theorem exists_rangeAddr {i : ℕ} (hi : i < mapCount flags virt size * stepFrames flags) :
    ∃ va, mapStart flags virt ≤ va ∧ va < mapEnd flags virt size ∧
      virtPage va = rangePage virt flags i := by
  have hdvd : (mapStep flags).toNat = stepFrames flags * 4096 := by
    rw [stepFrames, toNat_mapStep]
    split <;> rfl
  have hstart : 4096 ∣ (mapStart flags virt).toNat := by
    rw [mapStart, toNat_round, hdvd, ← Nat.mul_assoc]
    exact Nat.dvd_mul_left _ _
  have hsize : size ≠ 0 := by
    rintro rfl
    rw [mapCount, if_pos rfl, Nat.zero_mul] at hi
    exact absurd hi (Nat.not_lt_zero i)
  -- the page begins before the end of the range
  have hlt : i * 4096 < (mapEnd flags virt size).toNat - (mapStart flags virt).toNat := by
    calc i * 4096 < mapCount flags virt size * stepFrames flags * 4096 :=
          Nat.mul_lt_mul_of_pos_right hi (by decide)
      _ = mapCount flags virt size * (mapStep flags).toNat := by rw [hdvd, Nat.mul_assoc]
      _ ≤ _ := by
          rw [mapCount, if_neg hsize]
          exact Nat.div_mul_le_self _ _
  have hend := (mapEnd flags virt size).isLt
  have hva : (mapStart flags virt + BitVec.ofNat 64 (i * 4096)).toNat =
      (mapStart flags virt).toNat + i * 4096 := by
    rw [BitVec.toNat_add, BitVec.toNat_ofNat, Nat.mod_eq_of_lt (by omega : i * 4096 < 2 ^ 64),
      Nat.mod_eq_of_lt (by omega)]
  refine ⟨mapStart flags virt + BitVec.ofNat 64 (i * 4096), ?_, ?_, ?_⟩
  · rw [BitVec.le_def, hva]
    omega
  · rw [BitVec.lt_def, hva]
    omega
  · rw [← BitVec.toNat_inj, toNat_virtPage, hva, rangePage, BitVec.toNat_ofNat]
    omega

/-- The frame of a page is read from its leaf. -/
theorem frameAt_congr {s s' : PmState σ} {root root' : Addr} {page : BitVec 36}
    (h : s'.leaf root' (pageAddr page) = s.leaf root (pageAddr page)) :
    s'.frameAt root' page = s.frameAt root page :=
  congrArg (Option.map leafFrame) h

variable [PageAllocator σ] [LawfulPageAllocator σ] {s s' : PmState σ} {F : Shape Addr (BitVec 9)}
  {back : ℕ} {left : σ → ℕ} {r : Addr} {ok : Bool}

section Range

variable (h : s.Wf F) (hr : r ∈ F.roots)
  (htop : InTop F (mapStart flags virt) (mapEnd flags virt size))
  (hplain : hasProt flags protHuge = false →
    s.NoHuge r (mapStart flags virt) (mapEnd flags virt size))

omit [PageAllocator σ] [LawfulPageAllocator σ] in
include htop in
/-- The pages of a range lie where the range does. -/
theorem InTop.rangePage {i : ℕ} (hi : i < mapCount flags virt size * stepFrames flags) :
    pml4Index (pageAddr (PmState.rangePage virt flags i)) ∈ F.top := by
  obtain ⟨va, hle, hlt, hpage⟩ := exists_rangeAddr hi
  rw [← hpage, pml4Index_pageAddr_virtPage]
  exact htop va hle hlt

include h hr htop hplain

/-- None of the pages is inside a huge page. -/
theorem Wf.not_overlaid {i : ℕ} (hi : i < mapCount flags virt size * stepFrames flags) :
    ¬ s.Overlaid r flags (pageAddr (PmState.rangePage virt flags i)) := by
  rintro ⟨hflags, hhuge⟩
  obtain ⟨va, hle, hlt, hpage⟩ := exists_rangeAddr hi
  rw [h.hugePage_iff hr (htop.rangePage hi)] at hhuge
  obtain ⟨e, i, ρ, hleaf⟩ := hhuge
  rw [leaf, ← hpage, path_pageAddr_virtPage] at hleaf
  have hnil := hplain hflags va hle hlt e _ hleaf
  cases hnil

variable (hrange : RangeMapped F back left r flags (mapStart flags virt) (mapStart flags phys)
  (mapCount flags virt size) ok s s')

include hrange

/-- The pages for which there are tables are mapped to one frame after another. -/
theorem Wf.frameAt_rangePage (hshort : mapCount flags virt size * stepFrames flags ≤ 2 ^ 36) {i : ℕ}
    (hi : i < mapCount flags virt size * stepFrames flags)
    (hroom : HasRoom back left s r flags (mapStart flags virt) (i / stepFrames flags + 1)) :
    s'.frameAt r (PmState.rangePage virt flags i) = some (spanFrame phys flags i) := by
  have hpos := stepFrames_pos flags
  have hsplit : i / stepFrames flags * stepFrames flags + i % stepFrames flags = i :=
    Nat.div_add_mod' i _
  have hk : i / stepFrames flags < mapCount flags virt size := (Nat.div_lt_iff_lt_mul hpos).mpr hi
  have hj : i % stepFrames flags < stepFrames flags := Nat.mod_lt i hpos
  have hleaf := hrange.inside _ (htop.rangePage hi) (h.not_overlaid hr htop hplain hi) _ hk hroom
    (samePage_pageAddr_iff.mpr ⟨_, hj, by rw [hsplit]⟩) fun k' hk' hlt _ hsame => ?_
  · have hframe : leafFrame (mappedLeaf flags
          (pageAt flags (mapStart flags phys) (i / stepFrames flags))
          (pageAddr (PmState.rangePage virt flags i))) = spanFrame phys flags i := by
      have hpage := @leafFrame_mappedLeaf flags virt phys (i / stepFrames flags) _ hj
      rwa [hsplit] at hpage
    rw [frameAt, hleaf, Option.map_some, hframe]
  · -- no later page of the range is the same one
    obtain ⟨j', hj', heq⟩ := samePage_pageAddr_iff.mp hsame
    have hi' : k' * stepFrames flags + j' < mapCount flags virt size * stepFrames flags :=
      calc k' * stepFrames flags + j' < (k' + 1) * stepFrames flags := by rw [Nat.succ_mul]; omega
        _ ≤ _ := Nat.mul_le_mul_right _ hk'
    have hsame' := rangePage_inj hshort hi hi' heq
    have hdiv : i / stepFrames flags = k' := by
      rw [hsame', mul_add_div_of_lt hj']
    omega

omit hplain h hr htop in
/-- The other pages are mapped as before. -/
theorem RangeMapped.frameAt_of_ne {page : BitVec 36} (hpage : pml4Index (pageAddr page) ∈ F.top)
    (hout : ∀ i < mapCount flags virt size * stepFrames flags,
      HasRoom back left s r flags (mapStart flags virt) (i / stepFrames flags + 1) →
      page ≠ PmState.rangePage virt flags i) :
    s'.frameAt r page = s.frameAt r page := by
  refine frameAt_congr (hrange.rest _ hpage (Or.inr fun k hk hroom hsame => ?_))
  obtain ⟨j, hj, heq⟩ := samePage_pageAddr_iff.mp hsame
  have hi : k * stepFrames flags + j < mapCount flags virt size * stepFrames flags :=
    calc k * stepFrames flags + j < (k + 1) * stepFrames flags := by rw [Nat.succ_mul]; omega
      _ ≤ _ := Nat.mul_le_mul_right _ hk
  refine hout _ hi ?_ heq
  rwa [mul_add_div_of_lt hj]

end Range

/-! ### How many pages are mapped

One leaf entry for each page of the range for which there are tables. -/

section Stored

variable {va pa vaEnd : Addr}

/-- The loop of `pmap_map` stores a leaf entry for each page for which there are tables, and none
for the others. -/
theorem Wf.leaves_mapLoop_range (hleft : Budget back left) (hr : r ∈ F.roots)
    (hend : (mapStep flags).toNat ∣ vaEnd.toNat) (fuel : ℕ) (h : s.Wf F)
    (hva : (mapStep flags).toNat ∣ va.toNat) (htop : InTop F va vaEnd)
    (hplain : hasProt flags protHuge = false → s.NoHuge r va vaEnd)
    (hloop : PmState.mapLoop r vaEnd (mapStep flags) flags fuel va pa s = some (ok, s')) :
    ∃ leaves, Leaves s s' leaves ∧
      leaves.length ≤ (vaEnd.toNat - va.toNat) / (mapStep flags).toNat ∧
      ∀ k < (vaEnd.toNat - va.toNat) / (mapStep flags).toNat,
        (k < leaves.length ↔ HasRoom back left s r flags va (k + 1)) := by
  induction fuel generalizing s va pa with
  | zero => cases hloop
  | succ fuel ih =>
      rw [PmState.mapLoop] at hloop
      split at hloop
      next hlt =>
        have hlt' := BitVec.lt_def.mp hlt
        have hnext := toNat_add_step hend hva hlt
        have hle : ∀ x, va + mapStep flags ≤ x → va ≤ x := by
          intro x hx
          rw [BitVec.le_def] at hx ⊢
          omega
        have hcount : (vaEnd.toNat - va.toNat) / (mapStep flags).toNat =
            (vaEnd.toNat - (va + mapStep flags).toNat) / (mapStep flags).toNat + 1 := by
          have hpos : 0 < (mapStep flags).toNat := by
            rw [toNat_mapStep]
            split <;> decide
          have hbound : (mapStep flags).toNat ≤ vaEnd.toNat - va.toNat :=
            Nat.le_of_dvd (by omega) (Nat.dvd_sub hend hva)
          rw [hnext, ← Nat.sub_sub, Nat.div_eq_sub_div hpos hbound]
        have htopva := htop va (BitVec.le_refl va) hlt
        have hnot : hasProt flags protHuge = false → ∀ e i, s.leaf r va = some (e, [i]) →
            s.Outside F e.addr := by
          intro hflags e i hleaf
          cases hplain hflags va (BitVec.le_refl va) hlt e _ hleaf
        obtain ⟨ok₁, s₁, heq, hcases⟩ := h.mapPage_budget hleft hr htopva hnot pa
        have hfirst := leaves_pmapMapPage LawfulPageAllocator.alloc_aligned s r va pa flags heq
        rw [heq] at hloop
        rw [hcount]
        rcases hcases with ⟨rfl, hpage⟩ | ⟨rfl, -, -, hfull⟩
        · -- a normal page leaves no huge page where there was none
          have hplain₁ : hasProt flags protHuge = false →
            s₁.NoHuge r (va + mapStep flags) vaEnd := by
            intro hflags x hx hxlt e ρ hleaf
            have hxtop := htop x (hle x hx) hxlt
            by_cases hin : SamePage flags va x ∧ ¬ s.Overlaid r flags x
            · rw [hpage.inside x hxtop hin.1 hin.2, mappedLeaf, if_neg (by simp [hflags])] at hleaf
              exact (congrArg Prod.snd (Option.some.inj hleaf)).symm
            · rw [not_and_or, not_not] at hin
              rw [hpage.rest x hxtop hin] at hleaf
              exact hplain hflags x (hle x hx) hxlt e ρ hleaf
          obtain ⟨leaves, hleaves, hle', hlength⟩ := ih hpage.wf
            (by rw [hnext]; exact Nat.dvd_add hva dvd_rfl)
            (fun x hx hxlt => htop x (hle x hx) hxlt) hplain₁ hloop
          rw [if_pos rfl] at hfirst
          refine ⟨_, hfirst.trans hleaves, ?_, fun k hk => ?_⟩
          · rw [List.length_append, List.length_singleton]
            omega
          rw [List.length_append, List.length_singleton]
          cases k with
          | zero => exact iff_of_true (by omega) hpage.hasRoom_one
          | succ k =>
              have hroom := hpage.hasRoom_succ (n := k + 1) (F := F) fun j hj => by
                rw [pageAt_succ]
                obtain ⟨hin, hinlt⟩ : va + mapStep flags ≤ pageAt flags (va + mapStep flags) j ∧
                    pageAt flags (va + mapStep flags) j < vaEnd := pageAt_mem (by omega)
                exact htop _ (hle _ hin) hinlt
              rw [hroom, ← hlength k (by omega)]
              omega
        · cases hloop
          rw [if_neg Bool.false_ne_true] at hfirst
          refine ⟨_, hfirst, Nat.zero_le _, fun k _ => ?_⟩
          apply iff_of_false (Nat.not_lt_zero k)
          intro hroom
          have hone := hroom 0 (by omega)
          rw [newTables_one, oldTables, Finset.range_zero, Finset.biUnion_empty, Finset.card_empty,
            Nat.mul_zero] at hone
          omega
      next hlt =>
        cases hloop
        have hzero : vaEnd.toNat - va.toNat = 0 := by
          rw [BitVec.lt_def] at hlt
          omega
        rw [hzero, Nat.zero_div]
        exact ⟨[], ⟨[], by simp, rfl⟩, le_rfl, fun k hk => absurd hk (Nat.not_lt_zero k)⟩

/-- The number of leaf entries that `pmap_map` stores. -/
theorem Wf.length_leaves (hleft : Budget back left) (h : s.Wf F) (hr : r ∈ F.roots) {fuel : ℕ}
    (hsize : size ≠ 0) (htop : InTop F (mapStart flags virt) (mapEnd flags virt size))
    (hplain : hasProt flags protHuge = false →
      s.NoHuge r (mapStart flags virt) (mapEnd flags virt size))
    (hmap : s.pmapMap fuel r virt phys size flags = some (ok, s')) :
    ∃ leaves, Leaves s s' leaves ∧ leaves.length ≤ mapCount flags virt size ∧
      ∀ k < mapCount flags virt size,
        (k < leaves.length ↔ HasRoom back left s r flags (mapStart flags virt) (k + 1)) := by
  have hdvd : ∀ x : Addr, (mapStep flags).toNat ∣ (x &&& ~~~(mapStep flags - 1)).toNat := by
    intro x
    rw [toNat_round]
    exact Nat.dvd_mul_left _ _
  rw [PmState.pmapMap, if_neg hsize] at hmap
  rw [mapCount, if_neg hsize]
  exact h.leaves_mapLoop_range hleft hr (hdvd _) fuel (hdvd _) htop hplain hmap

end Stored

/-! ### Other address spaces

Separate trees: what is stored in one is not found in another. -/

/-- What is done to the tables of one address space is not seen in another. -/
theorem Step.leaf_of_ne {roots : Set Addr} {top : Set (BitVec 9)} {r' va : Addr}
    (hstep : Step (forest {r} top) s s') (h : s.Wf (forest roots top)) (hr : r ∈ roots)
    (hr' : r' ∈ roots) (hne : r' ≠ r) (hzero : r' ≠ 0) (hva : pml4Index va ∈ top) :
    s'.leaf r' va = s.leaf r' va := by
  have hcovers : (forest {r'} top).Covers r' (path va) :=
    (h.mono (Set.singleton_subset_iff.mpr hr')).covers (Set.mem_singleton r') hva
  refine find_congr (fun q hq => ?_) hcovers
  obtain ⟨ρ, π, ⟨rfl, hπ⟩, hq⟩ := hq
  -- the tables of the other address space are outside of the trees of this one
  refine (hstep.outside q ⟨?_, ?_, ?_⟩).2.1
  · rcases h.owned ρ π q ⟨hr', hπ⟩ hq with ⟨hq0, -⟩ | ⟨rfl, rfl⟩
    · exact hq0
    · exact absurd (Option.some.inj hq) hzero
  · rcases h.owned ρ π q ⟨hr', hπ⟩ hq with ⟨-, halloc⟩ | ⟨rfl, rfl⟩
    · exact halloc
    · exact absurd (Option.some.inj hq) hzero
  · rintro ⟨ρ', π', ⟨rfl, hπ'⟩, hq'⟩
    exact hne (h.sep ρ π ρ' π' q ⟨hr', hπ⟩ ⟨hr, hπ'⟩ hq hq').1

/-! ### `pmap_unmap` of one page

It removes the leaf that `pmap_extract` finds, and nothing else. -/

section Unmap

variable {va : Addr} (h : s.Wf F) (hr : r ∈ F.roots) (haligned : va &&& ~~~0xFFF#64 = va)
  (hva : pml4Index va ∈ F.top)

include h hr hva

/-- Where no huge page is, a leaf is found at the last level. -/
theorem Wf.leaf_normal (hhuge : s.hugePage r va = false) (e : Entry) (ρ : List (BitVec 9))
    (hleaf : s.leaf r va = some (e, ρ)) : ρ = [] := by
  cases ρ with
  | nil => rfl
  | cons i ρ =>
      rw [(h.hugePage_iff hr hva).mpr ⟨e, i, ρ, hleaf⟩] at hhuge
      cases hhuge

include haligned

/-- What `pmap_extract` says about the beginning of a page. -/
theorem Wf.toNat_extract :
    (s.pmapExtract r va).toNat = ((s.frameAt r (virtPage va)).getD 0) * 4096 := by
  have hsame : s.leaf r (pageAddr (virtPage va)) = s.leaf r va := by
    rw [leaf, leaf, path_pageAddr_virtPage]
  have hva' := congrArg BitVec.toNat haligned
  rw [toNat_roundDown] at hva'
  rw [h.extract_eq hr hva, frameAt, hsame]
  -- nothing is mapped, or a huge page, or a page
  rcases h.walk_cases hr hva with ⟨hleaf, -, -⟩ | ⟨pd, -, -, hleaf, -, -⟩ |
    ⟨pdpt, pd, pt, -, -, -, hleaf, -, -⟩
  · rw [hleaf]
    rfl
  · have hlow : (va &&& 0x1FFFFF#64).toNat = (ptIndex va).toNat * 4096 := by
      rw [Word.toNat_and_low (w := 21) (by decide), toNat_ptIndex]
      omega
    rw [hleaf]
    simp only [Option.map_some, Option.getD_some, leafFrame]
    rw [BitVec.toNat_add, hlow,
      Word.toNat_and_mask (m := pdAddrMask) (a := 21) (w := 31) (by decide)]
    have := (ptIndex va).isLt
    omega
  · have hlow : (va &&& 0xFFF#64).toNat = 0 := by
      rw [Word.toNat_and_low (w := 12) (by decide)]
      omega
    rw [hleaf]
    simp only [Option.map_some, Option.getD_some, leafFrame, Entry.addr]
    rw [BitVec.toNat_add, hlow,
      Word.toNat_and_mask (m := pteAddrMask) (a := 12) (w := 40) (by decide)]
    omega

/-- `pmap_unmap` of one normal page, as seen in all address spaces. -/
theorem Wf.frameAt_pmapUnmap (hhuge : s.hugePage r va = false) (hwrap : va.toNat + 4096 < 2 ^ 64)
    {fuel : ℕ} (hunmap : s.pmapUnmap fuel r va pageSize = some s') :
    Moves F s s' ∧ (∀ r' ∈ F.roots, ∀ page, pml4Index (pageAddr page) ∈ F.top →
      s'.frameAt r' page = if r' = r ∧ page = virtPage va then none else s.frameAt r' page) ∧
      ∀ x, s'.hugePage r x = true → s.hugePage r x = true := by
  have hlt : va < va + pageSize := by
    rw [BitVec.lt_def, BitVec.toNat_add, show pageSize.toNat = 4096 from rfl,
      Nat.mod_eq_of_lt hwrap]
    omega
  obtain ⟨advance, s₁, heq, hmoves, -, hplain⟩ := h.unmapPage hr hva
  obtain ⟨rfl, hleaf⟩ := hplain (h.leaf_normal hr hva hhuge)
  rw [PmState.pmapUnmap, if_neg (by decide), roundUp_pageEnd haligned hwrap, haligned] at hunmap
  -- the loop unmaps the page and is done
  obtain rfl : s₁ = s' := by
    cases fuel with
    | zero => cases hunmap
    | succ fuel =>
        rw [PmState.unmapLoop, if_pos hlt, heq] at hunmap
        cases fuel with
        | zero => cases hunmap
        | succ fuel =>
            simp only [PmState.unmapLoop, if_neg (BitVec.lt_irrefl _)] at hunmap
            exact Option.some.inj hunmap
  refine ⟨hmoves, fun r' hr' page hpage => ?_, fun x hx => ?_⟩
  · rw [frameAt, hleaf r' hr' _ hpage]
    by_cases hsame : r' = r ∧ page = virtPage va
    · rw [if_pos ⟨hsame.1, path_pageAddr_eq_iff.mpr hsame.2⟩, if_pos hsame, Option.map_none]
    · rw [if_neg fun heq' => hsame ⟨heq'.1, path_pageAddr_eq_iff.mp heq'.2⟩, if_neg hsame]
      rfl
  · obtain ⟨s₂, heq₂, hzero, -⟩ := s.pmapUnmapPage_spec r va
    obtain rfl : s₁ = s₂ := congrArg Prod.snd (heq.symm.trans heq₂)
    exact (hzero.hugePage hx).1

end Unmap

end PmState

end Koharu
