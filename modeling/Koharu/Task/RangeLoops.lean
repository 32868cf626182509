import Koharu.Arch.PmapCoverage
import Koharu.Lib.Sweep
import Koharu.Task.ControlAuthority

/-!
# The loops over address ranges end

`SYS_MAP`, `SYS_UNMAP` and `SYS_WRITE` and the loops of `pmap_map` and `pmap_unmap` below them. The
bound of a loop is a sum of two arguments of the call and may be any word. `pmap_map` and
`pmap_unmap` round it down to the beginning of a page, and `SYS_WRITE` counts the bytes that are
left; these loops end, whatever the arguments are. `SYS_UNMAP` does not round its bound. If this is
above the last page of the address space, the address wraps to zero and the loop never ends. So it
is for `SYS_MAP`, except that there the caller would have to hold a grant for every frame number.

* `range_loops_return_iff`: for each loop, when it ends.
-/

namespace Koharu

open Sweep

namespace PmState

variable {σ : Type*} [PageAllocator σ]

/-- `pmap_map` returns, for pages of either size. -/
theorem pmapMap_ends (s : PmState σ) (root virt phys size : Addr) (flags : BitVec 32) :
    ∃ fuel, ∀ fuel' ≥ fuel, ∃ x, s.pmapMap fuel' root virt phys size flags = some x := by
  by_cases hsize : size = 0
  · exact ⟨0, fun fuel' _ => ⟨_, by rw [PmState.pmapMap, if_pos hsize]⟩⟩
  · have hdvd : ∀ x : Addr, (mapStep flags).toNat ∣ (x &&& ~~~(mapStep flags - 1)).toNat := by
      intro x
      rw [toNat_round]
      exact Nat.dvd_mul_left _ _
    -- the addresses are multiples of the step, so that the loop cannot jump over its end
    have hpos : 0 < (mapStep flags).toNat := by
      rw [toNat_mapStep]
      split <;> decide
    refine ⟨2 ^ 64 + 1, fun fuel' hfuel => ?_⟩
    rw [PmState.pmapMap, if_neg hsize]
    obtain ⟨ok, s', hs'⟩ := mapLoop_returns root flags hpos
      (hdvd (virt + size + (mapStep flags - 1))) (hdvd virt) fuel' (by omega)
      (phys &&& ~~~(mapStep flags - 1)) s
    exact ⟨(ok, s'), hs'⟩

end PmState

namespace Kernel

variable {σ : Type} {s s' : Kernel σ}

/-- The pointer is `NULL` or that of a pmap. -/
def SpaceOk (s : Kernel σ) (pmap : Addr) : Prop := pmap = 0 ∨ s.pmaps pmap ≠ none

/-- The first loop of `SYS_MAP` never ends: every frame number is granted, and the sum of the two
arguments is above every address that the loop looks at. -/
def MapSpins (s : Kernel σ) (a1 a3 a4 a5 : BitVec 64) : Prop :=
  s.registered a1 = true ∧ (s.thread a1).pagerTid = s.current ∧ a4 ≠ 0 ∧ mapRights a5 ≠ 0 ∧
    2 ^ 64 - 2 ^ 12 + a3.toNat % 2 ^ 12 < (a3 + a4).toNat ∧
    ∀ pfn : BitVec 64, pfn.toNat < 2 ^ 52 → s.grantHolds s.cur.pmap pfn (mapRights a5) = some true

/-- The loop of `SYS_UNMAP` never ends: the sum of the two arguments is above the last page of the
address space. -/
def UnmapSpins (s : Kernel σ) (a1 a2 a3 : BitVec 64) : Prop :=
  s.registered a1 = true ∧ (s.thread a1).pagerTid = s.current ∧ a3 ≠ 0 ∧
    2 ^ 64 - 2 ^ 12 < (a2 + a3).toNat

/-- The loop over pages ends before the wrap when its last page is not the last of all. -/
theorem ends_page_iff {lo hi : Addr} :
    Ends lo pageSize hi ↔ hi.toNat ≤ 2 ^ 64 - 2 ^ 12 + lo.toNat % 2 ^ 12 := by
  have hstep : pageSize.toNat ∣ 2 ^ 64 := ⟨2 ^ 52, rfl⟩
  exact ends_iff hstep

/-- `pmap_extract` gives an answer on every pmap of the store. -/
theorem exists_pmapExtract {pmap : Addr} (h : s.SpaceOk pmap) (va : Addr) :
    ∃ phys, s.pmapExtract pmap va = some phys := by
  unfold pmapExtract
  rcases h with rfl | hsome
  · exact ⟨0, if_pos rfl⟩
  · obtain ⟨p, hp⟩ := Option.ne_none_iff_exists'.mp hsome
    split
    · exact ⟨0, rfl⟩
    · exact ⟨_, by rw [hp]; rfl⟩

/-! ### `SYS_MAP`

The loop comes to its end when the addresses it steps through meet the bound before they wrap
around. -/

/-- So does the test of the grants. -/
theorem exists_grantHolds {pmap : Addr} (h : s.SpaceOk pmap) (pfn : BitVec 64) (rights : BitVec 8) :
    ∃ held, s.grantHolds pmap pfn rights = some held := by
  rw [grantHolds]
  split
  · exact ⟨_, rfl⟩
  split
  · exact ⟨_, rfl⟩
  next hnull _ =>
    obtain ⟨p, hp⟩ := Option.ne_none_iff_exists'.mp
      (h.resolve_left fun hzero => hnull (Or.inl hzero))
    rw [hp, Option.bind_eq_bind, Option.bind_some]
    split
    · exact ⟨_, rfl⟩
    · exact ⟨_, rfl⟩

section MapCheck

variable {rights : BitVec 8} {pa paEnd : Addr}

/-- One round of the checking loop of `SYS_MAP`. -/
theorem mapCheck_succ (fuel : ℕ) : s.mapCheck rights paEnd (fuel + 1) pa =
    if pa < paEnd then
      (s.grantHolds s.cur.pmap (physToPfn pa) rights).bind fun held =>
        if held then s.mapCheck rights paEnd fuel (pa + pageSize) else some false
    else some true := rfl

/-- The first loop of `SYS_MAP`, if its address comes to the bound. -/
theorem mapCheck_ends (hspace : s.SpaceOk s.cur.pmap) (hends : Ends pa pageSize paEnd) :
    ∃ fuel, ∀ fuel' ≥ fuel, ∃ held, s.mapCheck rights paEnd fuel' pa = some held := by
  refine hends.rec_on (P := fun pa => ∃ fuel, ∀ fuel' ≥ fuel, ∃ held,
    s.mapCheck rights paEnd fuel' pa = some held) (fun pa hge => ⟨1, fun fuel' hfuel => ?_⟩)
    fun pa hlt ih => ?_
  · obtain ⟨fuel, rfl⟩ := Nat.exists_eq_add_of_le' hfuel
    exact ⟨true, by rw [mapCheck_succ, if_neg hge]⟩
  · obtain ⟨n, hn⟩ := ih
    refine ⟨n + 1, fun fuel' hfuel => ?_⟩
    obtain ⟨fuel, rfl⟩ := Nat.exists_eq_add_of_le' (Nat.le_of_add_left_le hfuel)
    obtain ⟨held, hheld⟩ := exists_grantHolds hspace (physToPfn pa) rights
    rw [mapCheck_succ, if_pos hlt, hheld, Option.bind_some]
    split
    · exact hn fuel (by omega)
    · exact ⟨false, rfl⟩

/-- It ends as well where a frame is not held. -/
theorem mapCheck_ends_of_not_held (hspace : s.SpaceOk s.cur.pmap) {k : ℕ}
    (hheld : s.grantHolds s.cur.pmap (physToPfn (pos pa pageSize k)) rights ≠ some true) :
    ∃ fuel, ∀ fuel' ≥ fuel, ∃ held, s.mapCheck rights paEnd fuel' pa = some held := by
  induction k generalizing pa with
  | zero =>
      -- this page is not held, and the loop ends here
      rw [pos_zero] at hheld
      refine ⟨1, fun fuel' hfuel => ?_⟩
      obtain ⟨fuel, rfl⟩ := Nat.exists_eq_add_of_le' hfuel
      obtain ⟨held, heq⟩ := exists_grantHolds hspace (physToPfn pa) rights
      rw [mapCheck_succ, heq, Option.bind_some]
      split
      · rw [if_neg fun htrue => hheld (by rw [heq, htrue])]
        exact ⟨false, rfl⟩
      · exact ⟨true, rfl⟩
  | succ k ih =>
      rw [pos_succ] at hheld
      obtain ⟨n, hn⟩ := ih hheld
      refine ⟨n + 1, fun fuel' hfuel => ?_⟩
      obtain ⟨fuel, rfl⟩ := Nat.exists_eq_add_of_le' (Nat.le_of_add_left_le hfuel)
      obtain ⟨held, heq⟩ := exists_grantHolds hspace (physToPfn pa) rights
      rw [mapCheck_succ, heq, Option.bind_some]
      split
      · split
        · exact hn fuel (by omega)
        · exact ⟨false, rfl⟩
      · exact ⟨true, rfl⟩

/-- Otherwise it does not. -/
theorem mapCheck_spins (hends : ¬ Ends pa pageSize paEnd)
    (hheld : ∀ k, s.grantHolds s.cur.pmap (physToPfn (pos pa pageSize k)) rights = some true)
    (fuel : ℕ) : s.mapCheck rights paEnd fuel pa = none := by
  induction fuel generalizing pa with
  | zero => rfl
  | succ fuel ih =>
      obtain ⟨hlt, hends'⟩ := next_of_not_ends hends
      have hfirst := hheld 0
      rw [pos_zero] at hfirst
      rw [mapCheck_succ, if_pos hlt, hfirst, Option.bind_some, if_pos rfl]
      exact ih hends' fun k => by rw [← pos_succ]; exact hheld (k + 1)

/-- If all frames are held, the address has come to the bound. -/
theorem ends_of_mapCheck {fuel : ℕ} (h : s.mapCheck rights paEnd fuel pa = some true) :
    Ends pa pageSize paEnd := by
  by_contra hends
  -- a loop that does not end only stops where a page fails the check
  have hspins : ∀ fuel pa, ¬ Ends pa pageSize paEnd →
      s.mapCheck rights paEnd fuel pa ≠ some true := by
    intro fuel
    induction fuel with
    | zero => exact fun pa _ h => by cases h
    | succ fuel ih =>
        intro pa hends h
        obtain ⟨hlt, hends'⟩ := next_of_not_ends hends
        rw [mapCheck_succ, if_pos hlt] at h
        obtain ⟨held, -, h⟩ := Option.bind_eq_some_iff.mp h
        split at h
        · exact ih _ hends' h
        · cases h
  exact hspins fuel pa hends h

/-- The second loop of `SYS_MAP`. -/
theorem mapCount_ends (hends : Ends pa pageSize paEnd) :
    ∃ fuel, ∀ fuel' ≥ fuel, ∀ s : Kernel σ, ∃ s', mapCount paEnd fuel' pa s = some s' := by
  refine hends.rec_on (P := fun pa => ∃ fuel, ∀ fuel' ≥ fuel, ∀ s : Kernel σ, ∃ s',
    mapCount paEnd fuel' pa s = some s') (fun pa hge => ⟨1, fun fuel' hfuel s => ?_⟩)
    fun pa hlt ih => ?_
  · obtain ⟨fuel, rfl⟩ := Nat.exists_eq_add_of_le' hfuel
    exact ⟨s, by rw [mapCount, if_neg hge]⟩
  · obtain ⟨n, hn⟩ := ih
    refine ⟨n + 1, fun fuel' hfuel s => ?_⟩
    obtain ⟨fuel, rfl⟩ := Nat.exists_eq_add_of_le' (Nat.le_of_add_left_le hfuel)
    rw [mapCount, if_pos hlt]
    exact hn fuel (by omega) _

/-- The loops look at every frame number. -/
theorem exists_pos (pa : Addr) {pfn : BitVec 64} (hpfn : pfn.toNat < 2 ^ 52) :
    ∃ k, physToPfn (pos pa pageSize k) = pfn := by
  refine ⟨pfn.toNat + 2 ^ 52 - pa.toNat / 2 ^ 12, ?_⟩
  rw [← BitVec.toNat_inj, physToPfn, BitVec.toNat_ushiftRight, toNat_pos, Nat.shiftRight_eq_div_pow]
  have hsize : pageSize.toNat = 2 ^ 12 := rfl
  rw [hsize]
  omega

/-- A frame number has at most 52 bits. -/
theorem toNat_physToPfn_lt (pa : Addr) : (physToPfn pa).toNat < 2 ^ 52 := by
  rw [physToPfn, BitVec.toNat_ushiftRight, Nat.shiftRight_eq_div_pow]
  omega

end MapCheck

section Calls

variable [PageAllocator σ] {a1 a2 a3 a4 a5 : BitVec 64}

/-- `pmap_map`. -/
theorem exists_pmapMap {pmap : Addr} (h : s.SpaceOk pmap) (virt phys size : Addr)
    (flags : BitVec 32) :
    ∃ fuel, ∀ fuel' ≥ fuel, ∃ x, s.pmapMap fuel' pmap virt phys size flags = some x := by
  rcases h with rfl | hsome
  · exact ⟨0, fun fuel' _ => ⟨_, by rw [pmapMap, if_pos rfl]⟩⟩
  · obtain ⟨p, hp⟩ := Option.ne_none_iff_exists'.mp hsome
    obtain ⟨n, hn⟩ := s.pm.pmapMap_ends p.rootPhys virt phys size flags
    refine ⟨n, fun fuel' hfuel => ?_⟩
    obtain ⟨x, hx⟩ := hn fuel' hfuel
    rw [pmapMap]
    split
    · exact ⟨_, rfl⟩
    · exact ⟨_, by rw [hp, Option.bind_eq_bind, Option.bind_some, hx]; rfl⟩

/-- `SYS_MAP`. -/
theorem sysMap_returns_iff (hcur : s.SpaceOk s.cur.pmap) (htarget : s.SpaceOk (s.thread a1).pmap) :
    (∃ fuel x, s.sysMap fuel a1 a2 a3 a4 a5 = some x) ↔ ¬ s.MapSpins a1 a3 a4 a5 := by
  by_cases hregistered : s.registered a1 = true
  swap
  · exact iff_of_true ⟨0, _, by rw [sysMap, if_pos (by simpa using hregistered)]⟩
      fun hspins => hregistered hspins.1
  by_cases hpager : (s.thread a1).pagerTid = s.current
  swap
  · exact iff_of_true ⟨0, _, by rw [sysMap, if_neg (by simp [hregistered]), if_pos hpager]⟩
      fun hspins => hpager hspins.2.1
  by_cases hsize : a4 = 0
  · exact iff_of_true ⟨0, _, by rw [sysMap, if_neg (by simp [hregistered]),
      if_neg (not_not.mpr hpager), if_pos hsize]⟩ fun hspins => hspins.2.2.1 hsize
  by_cases hrights : mapRights a5 = 0
  · exact iff_of_true ⟨0, _, by rw [sysMap, if_neg (by simp [hregistered]),
      if_neg (not_not.mpr hpager), if_neg hsize, if_pos hrights]⟩
      fun hspins => hspins.2.2.2.1 hrights
  have hcall : ∀ fuel, s.sysMap fuel a1 a2 a3 a4 a5 =
      (s.mapCheck (mapRights a5) (a3 + a4) fuel a3).bind fun held =>
        if !held then some (-1, s)
        else (s.pmapMap fuel (s.thread a1).pmap a2 a3 a4 (mapFlags a5)).bind fun x =>
          if !x.1 then some (-1, x.2)
          else (mapCount (a3 + a4) fuel a3 x.2).bind fun s' => some (0, s') := by
    intro fuel
    rw [sysMap, if_neg (by simp [hregistered]), if_neg (not_not.mpr hpager), if_neg hsize,
      if_neg hrights]
    rfl
  constructor
  · rintro ⟨fuel, x, hreturns⟩ ⟨-, -, -, -, hend, hheld⟩
    have hends : ¬ Ends a3 pageSize (a3 + a4) := by
      rw [ends_page_iff]
      omega
    rw [hcall, mapCheck_spins hends fun k => hheld _ (toNat_physToPfn_lt _)] at hreturns
    cases hreturns
  · intro hnot
    -- either the address comes to the bound, or a frame is not held
    have hcheck : ∃ fuel, ∀ fuel' ≥ fuel, ∃ held,
        s.mapCheck (mapRights a5) (a3 + a4) fuel' a3 = some held := by
      by_cases hends : Ends a3 pageSize (a3 + a4)
      · exact mapCheck_ends hcur hends
      · rw [ends_page_iff] at hends
        obtain ⟨pfn, hpfn, hheld⟩ : ∃ pfn : BitVec 64, pfn.toNat < 2 ^ 52 ∧
            s.grantHolds s.cur.pmap pfn (mapRights a5) ≠ some true := by
          by_contra hall
          push Not at hall
          exact hnot ⟨hregistered, hpager, hsize, hrights, by omega, hall⟩
        obtain ⟨k, rfl⟩ := exists_pos a3 hpfn
        exact mapCheck_ends_of_not_held hcur hheld
    obtain ⟨n, hn⟩ := hcheck
    obtain ⟨m, hm⟩ := exists_pmapMap htarget a2 a3 a4 (mapFlags a5)
    obtain ⟨held, hheld⟩ := hn n le_rfl
    cases held with
    | false => exact ⟨n, (-1, s), by rw [hcall, hheld]; rfl⟩
    | true =>
        obtain ⟨l, hl⟩ := mapCount_ends (σ := σ) (ends_of_mapCheck hheld)
        obtain ⟨held, hheld⟩ := hn (n + m + l) (by omega)
        obtain ⟨x, hx⟩ := hm (n + m + l) (by omega)
        obtain ⟨s', hs'⟩ := hl (n + m + l) (by omega) x.2
        refine ⟨n + m + l, ?_⟩
        rw [hcall, hheld, Option.bind_some, hx, Option.bind_some, hs', Option.bind_some]
        split
        · exact ⟨_, rfl⟩
        split
        · exact ⟨_, rfl⟩
        · exact ⟨_, rfl⟩

/-! ### `SYS_UNMAP`

The same, for a bound that the last page of the address space wraps to zero. -/

/-- `pmap_unmap` ends with fuel enough, and leaves the pmaps. -/
theorem exists_pmapUnmap {pmap : Addr} (h : s.SpaceOk pmap) (virt size : Addr) {fuel : ℕ}
    (hfuel : 2 ^ 65 ≤ fuel) :
    ∃ s', s.pmapUnmap fuel pmap virt size = some s' ∧ s'.pmaps = s.pmaps := by
  unfold pmapUnmap
  rcases h with rfl | hsome
  · exact ⟨s, if_pos rfl, rfl⟩
  · obtain ⟨p, hp⟩ := Option.ne_none_iff_exists'.mp hsome
    obtain ⟨pm, hpm⟩ := s.pm.pmapUnmap_returns p.rootPhys virt size hfuel
    split
    · exact ⟨s, rfl, rfl⟩
    · refine ⟨{ s with pm }, ?_, rfl⟩
      rw [hp, Option.bind_eq_bind, Option.bind_some, hpm]
      rfl

omit [PageAllocator σ] in
/-- Counting mappings leaves the pmaps. -/
theorem pmaps_grantMappingRemove (s : Kernel σ) (pfn : BitVec 64) :
    (s.grantMappingRemove pfn).pmaps = s.pmaps := by
  rw [grantMappingRemove]
  split <;> rfl

section UnmapPages

variable {pmap va vaEnd : Addr}

/-- The loop of `SYS_UNMAP`, if its address comes to the bound. -/
theorem unmapPages_ends (hends : Ends va pageSize vaEnd) :
    ∃ fuel, ∀ s : Kernel σ, s.SpaceOk pmap → ∃ s', unmapPages pmap vaEnd fuel va s = some s' := by
  -- with more fuel than needed, for the induction over the pages that are left
  have hlarge : ∃ fuel, ∀ fuel' ≥ fuel, ∀ s : Kernel σ, s.SpaceOk pmap →
      ∃ s', unmapPages pmap vaEnd fuel' va s = some s' := by
    refine hends.rec_on (P := fun va => ∃ fuel, ∀ fuel' ≥ fuel, ∀ s : Kernel σ, s.SpaceOk pmap →
      ∃ s', unmapPages pmap vaEnd fuel' va s = some s')
      (fun va hge => ⟨1, fun fuel' hfuel s _ => ?_⟩) fun va hlt ih => ?_
    · obtain ⟨fuel, rfl⟩ := Nat.exists_eq_add_of_le' hfuel
      exact ⟨s, by rw [unmapPages, if_neg hge]⟩
    · obtain ⟨n, hn⟩ := ih
      refine ⟨n + 2 ^ 65 + 1, fun fuel' hfuel s hspace => ?_⟩
      obtain ⟨fuel, rfl⟩ := Nat.exists_eq_add_of_le' (Nat.le_of_add_left_le hfuel)
      obtain ⟨phys, hphys⟩ := exists_pmapExtract hspace va
      rw [unmapPages, if_pos hlt, hphys, Option.bind_eq_bind, Option.bind_some]
      split
      · exact hn fuel (by omega) s hspace
      · obtain ⟨s₁, hs₁, hpmaps⟩ := exists_pmapUnmap hspace va pageSize
          (show 2 ^ 65 ≤ fuel by omega)
        rw [hs₁, Option.bind_eq_bind, Option.bind_some]
        apply hn fuel (by omega) _
        rw [SpaceOk, pmaps_grantMappingRemove, hpmaps]
        exact hspace
  obtain ⟨fuel, hfuel⟩ := hlarge
  exact ⟨fuel, hfuel fuel le_rfl⟩

/-- Otherwise it never ends. -/
theorem unmapPages_spins (hends : ¬ Ends va pageSize vaEnd) (fuel : ℕ) (s : Kernel σ) :
    unmapPages pmap vaEnd fuel va s = none := by
  induction fuel generalizing s va with
  | zero => rfl
  | succ fuel ih =>
      obtain ⟨hlt, hends'⟩ := next_of_not_ends hends
      rw [unmapPages, if_pos hlt]
      cases s.pmapExtract pmap va with
      | none => rfl
      | some phys =>
          rw [Option.bind_eq_bind, Option.bind_some]
          -- neither kind of turn gets closer to an end that there is none of
          split
          · exact ih hends' s
          · cases s.pmapUnmap fuel pmap va pageSize with
            | none => rfl
            | some s₁ => exact ih hends' _

end UnmapPages

/-- `SYS_UNMAP`. -/
theorem sysUnmap_returns_iff (htarget : s.SpaceOk (s.thread a1).pmap) :
    (∃ fuel x, s.sysUnmap fuel a1 a2 a3 = some x) ↔ ¬ s.UnmapSpins a1 a2 a3 := by
  by_cases hregistered : s.registered a1 = true
  swap
  · exact iff_of_true ⟨0, _, by rw [sysUnmap, if_pos (by simpa using hregistered)]⟩
      fun hspins => hregistered hspins.1
  by_cases hpager : (s.thread a1).pagerTid = s.current
  swap
  · exact iff_of_true ⟨0, _, by rw [sysUnmap, if_neg (by simp [hregistered]), if_pos hpager]⟩
      fun hspins => hpager hspins.2.1
  by_cases hsize : a3 = 0
  · exact iff_of_true ⟨0, _, by rw [sysUnmap, if_neg (by simp [hregistered]),
      if_neg (not_not.mpr hpager), if_pos hsize]⟩ fun hspins => hspins.2.2.1 hsize
  -- past the tests the call is its loop
  have hcall : ∀ fuel, s.sysUnmap fuel a1 a2 a3 =
      (unmapPages (s.thread a1).pmap (a2 + a3) fuel (a2 &&& ~~~0xFFF#64) s).bind
        fun s' => some (0, s') := by
    intro fuel
    rw [sysUnmap, if_neg (by simp [hregistered]), if_neg (not_not.mpr hpager), if_neg hsize]
    rfl
  have hends : Ends (a2 &&& ~~~0xFFF#64) pageSize (a2 + a3) ↔
      (a2 + a3).toNat ≤ 2 ^ 64 - 2 ^ 12 := by
    rw [ends_page_iff, PmState.toNat_roundDown]
    omega
  -- without an end the loop runs out of any fuel
  constructor
  · rintro ⟨fuel, x, hreturns⟩ ⟨-, -, -, hend⟩
    rw [hcall, unmapPages_spins (by rw [hends]; omega)] at hreturns
    cases hreturns
  · intro hnot
    have hend : (a2 + a3).toNat ≤ 2 ^ 64 - 2 ^ 12 := by
      by_contra hlt
      exact hnot ⟨hregistered, hpager, hsize, by omega⟩
    obtain ⟨fuel, hfuel⟩ := unmapPages_ends (σ := σ) (hends.mpr hend)
    obtain ⟨s', hs'⟩ := hfuel s htarget
    exact ⟨fuel, (0, s'), by rw [hcall, hs']; rfl⟩

end Calls

end Kernel

namespace System

open Traced

variable {σ : Type} {s : System σ} {cur : Tid} {a1 a2 a3 : BitVec 64}

/-! ### `SYS_WRITE`

This loop counts down what is left to print, so that it always ends. -/

/-- An iteration prints a byte at least, and no more than are left. -/
theorem toNat_chunk (va : Addr) {left : BitVec 64} (hleft : 0 < left.toNat) :
    0 < (chunk va left).toNat ∧ (chunk va left).toNat ≤ left.toNat := by
  have hlow : (va &&& 0xFFF#64).toNat = va.toNat % 2 ^ 12 :=
    Word.toNat_and_low (w := 12) (by decide) va
  have hroom : (pageSize - (va &&& 0xFFF#64)).toNat = 2 ^ 12 - va.toNat % 2 ^ 12 := by
    rw [BitVec.toNat_sub, hlow, show pageSize.toNat = 2 ^ 12 from rfl]
    omega
  rw [chunk]
  split
  next => exact ⟨hleft, le_rfl⟩
  next hlt =>
    rw [BitVec.lt_def, hroom] at hlt
    rw [hroom]
    omega

/-- The loop of `SYS_WRITE`. -/
theorem writeLoop_returns (fuel : ℕ) {off : BitVec 64} (hoff : off.toNat ≤ a3.toNat)
    (hfuel : a3.toNat - off.toNat < fuel) (s : System σ)
    (hspace : s.kernel.SpaceOk (s.pmapOf cur)) :
    ∃ ending, (writeLoop cur a2 a3 fuel off s).val = some ending := by
  induction fuel generalizing off s with
  | zero => omega
  | succ fuel ih =>
      rw [writeLoop]
      split
      next hlt =>
        rw [BitVec.lt_def] at hlt
        obtain ⟨phys, hphys⟩ := Kernel.exists_pmapExtract hspace (a2 + off)
        rw [val_bind, lift_val, hphys, Option.bind_some]
        split
        · exact ⟨s.fails, rfl⟩
        · have hleft : (a3 - off).toNat = a3.toNat - off.toNat := by
            rw [BitVec.toNat_sub]
            omega
          obtain ⟨hpos, hle⟩ := toNat_chunk (a2 + off) (show 0 < (a3 - off).toNat by omega)
          -- a chunk is never empty and never goes past the end
          have hnext : (off + chunk (a2 + off) (a3 - off)).toNat =
              off.toNat + (chunk (a2 + off) (a3 - off)).toNat := by
            rw [BitVec.toNat_add, Nat.mod_eq_of_lt]
            omega
          rw [val_bind, tell_val, Option.bind_some]
          exact ih (by omega) (by omega) _ hspace
      next => exact ⟨_, rfl⟩

/-- `SYS_WRITE`. -/
theorem sysWrite_returns (hspace : s.kernel.SpaceOk (s.pmapOf cur)) :
    ∃ ending, (s.sysWrite cur a1 a2 a3).val = some ending := by
  rw [sysWrite]
  split
  · exact ⟨_, rfl⟩
  split
  · exact ⟨_, rfl⟩
  · exact writeLoop_returns (a3.toNat + 1) (Nat.zero_le _) (by simp) s hspace

/-! ### All loops

The conditions of the three loops, put together. -/

variable [PageAllocator σ]

/-- The loops of `pmap_map`, `pmap_unmap` and `SYS_WRITE` end, whatever the state and the arguments
are. Those of `SYS_MAP` and `SYS_UNMAP` end exactly if their bounds are not too large: for
`SYS_UNMAP`, above the last page of the address space, and for `SYS_MAP`, above every address that
it looks at while the caller holds every frame number there is. -/
theorem range_loops_return_iff
    (hspaces : ∀ tid, s.kernel.SpaceOk (s.kernel.thread tid).pmap) :
    (∀ root virt phys size flags,
      ∃ fuel x, s.kernel.pm.pmapMap fuel root virt phys size flags = some x) ∧
    (∀ root virt size, ∃ fuel pm, s.kernel.pm.pmapUnmap fuel root virt size = some pm) ∧
    (∀ a1 a2 a3, ∃ ending, (s.sysWrite cur a1 a2 a3).val = some ending) ∧
    (∀ a1 a2 a3 a4 a5, (∃ fuel x, (s.kernelView cur).sysMap fuel a1 a2 a3 a4 a5 = some x) ↔
      ¬ (s.kernelView cur).MapSpins a1 a3 a4 a5) ∧
    ∀ a1 a2 a3, (∃ fuel x, (s.kernelView cur).sysUnmap fuel a1 a2 a3 = some x) ↔
      ¬ (s.kernelView cur).UnmapSpins a1 a2 a3 := by
  refine ⟨fun root virt phys size flags => ?_, fun root virt size => ?_, fun a1 a2 a3 =>
    sysWrite_returns (hspaces _), fun a1 a2 a3 a4 a5 => ?_, fun a1 a2 a3 => ?_⟩
  -- `pmap_map` steps on its grid; `pmap_unmap` is bounded by the size of the address space
  · obtain ⟨fuel, hfuel⟩ := s.kernel.pm.pmapMap_ends root virt phys size flags
    exact ⟨fuel, hfuel fuel le_rfl⟩
  · exact ⟨2 ^ 65, s.kernel.pm.pmapUnmap_returns root virt size le_rfl⟩
  · exact Kernel.sysMap_returns_iff (hspaces _) (hspaces a1)
  · exact Kernel.sysUnmap_returns_iff (hspaces a1)

omit [PageAllocator σ] in
/-- The threads of the example have an address space. -/
theorem spaceOk_twoThreads (tid : BitVec 64) :
    twoThreads.kernel.SpaceOk (twoThreads.kernel.thread tid).pmap := by
  right
  show Kernel.small.pmaps 0x100#64 ≠ none
  simp [Kernel.small]

/-- Thread 1 unmaps the page at `0x400000` of thread 2, and may not unmap the last page of the
address space so. -/
theorem range_loops_return_iff_small :
    (∃ fuel x, (twoThreads.kernelView 1).sysUnmap fuel 2 0x400000#64 0x1000#64 = some x) ∧
    ¬ ∃ fuel x, (twoThreads.kernelView 1).sysUnmap fuel 2 0xFFFFFFFFFFFFF000#64 0xFFF#64 =
      some x := by
  obtain ⟨-, -, -, -, hunmap⟩ := @range_loops_return_iff _ twoThreads 1 _ spaceOk_twoThreads
  constructor
  · rw [hunmap]
    rintro ⟨-, -, -, hend⟩
    exact absurd hend (by decide)
  · rw [hunmap, not_not]
    exact ⟨by decide, by decide, by decide, by decide⟩

/-- Thread 1 asks to unmap all but one byte of the last page, of thread 2. The call never returns,
although all of its pointers are good. -/
theorem sysUnmap_lastPage_spins :
    Kernel.small.registered 2 = true ∧ (Kernel.small.thread 2).pagerTid = Kernel.small.current ∧
    (∀ va, Kernel.small.pmapExtract (Kernel.small.thread 2).pmap va ≠ none) ∧
    ∀ fuel, Kernel.small.sysUnmap fuel 2 0xFFFFFFFFFFFFF000#64 0xFFF#64 = none := by
  have hspace : Kernel.small.SpaceOk (Kernel.small.thread 2).pmap := spaceOk_twoThreads 2
  refine ⟨by decide, by decide, fun va hnone => ?_, fun fuel => ?_⟩
  · obtain ⟨phys, hphys⟩ := Kernel.exists_pmapExtract hspace va
    rw [hnone] at hphys
    cases hphys
  · rw [Kernel.sysUnmap, if_neg (by decide), if_neg (by decide), if_neg (by decide),
      Kernel.unmapPages_spins]
    · rfl
    · rw [Kernel.ends_page_iff]
      decide

end System

end Koharu
