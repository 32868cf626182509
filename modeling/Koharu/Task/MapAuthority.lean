import Koharu.Arch.PmapRefinement
import Koharu.Task.Syscall

/-!
# What `SYS_MAP` lets a caller map

`SYS_MAP` looks at the frames from `a3` to `a3 + a4` and then has `pmap_map` map the pages of
`a2` to `a2 + a4`, rounded to the size of a page, to the frames from `a3` on, rounded down. The two
ranges are computed independently. `sysMap_authorized_iff` says exactly when all that is mapped is
held: when the frames that are mapped and not looked at happen to be held as well.
-/

namespace Koharu

/-! ### Entries that map memory

Whether a store to a table maps memory is decided by the entry that is stored. -/

/-- The entry that a store makes to map memory, and whether it maps a huge page. -/
def Effect.leafEntry : Effect → Option (Entry × Bool)
  | .store .pt _ _ e => if e.present then some (e, false) else none
  | .store .pd _ _ e => if e.present ∧ e.huge then some (e, true) else none
  | _ => none

/-- The frames an entry maps. -/
def MapsFrame (x : Entry × Bool) (pfn : ℕ) : Prop :=
  if x.2 then ∃ j < 512, pfn = (x.1 &&& pdAddrMask).toNat / 4096 + j
  else pfn = x.1.addr.toNat / 4096

/-- The entry that `pmap_map_page` makes. -/
def mapLeaf (pa : Addr) (flags : BitVec 32) : Entry × Bool :=
  if hasProt flags protHuge then (hugeEntry pa flags, true) else (pageEntry pa flags, false)

/-- The bit that makes a page writable. -/
theorem writable_eq_getLsbD (e : Entry) : e.writable = e.getLsbD 1 := by
  have hbit : pteWritable = BitVec.twoPow 64 1 := by decide
  rw [Entry.writable, hbit, BitVec.and_twoPow]
  cases e.getLsbD 1 <;> decide

/-- It is set for `PROT_WRITE`. -/
theorem getLsbD_pteFlags (flags : BitVec 32) :
    (pteFlags flags).getLsbD 1 = hasProt flags protWrite := by
  cases h : hasProt flags protWrite <;>
    simp only [pteFlags, h, Bool.false_eq_true, if_true, if_false] <;> split_ifs <;> decide

/-- A leaf is writable when it was asked for. -/
theorem writable_mapLeaf (pa : Addr) (flags : BitVec 32) :
    (mapLeaf pa flags).1.writable = hasProt flags protWrite := by
  rw [writable_eq_getLsbD, mapLeaf]
  split
  · simp only [hugeEntry, BitVec.getLsbD_or, BitVec.getLsbD_and, getLsbD_pteFlags]
    split_ifs <;> simp [pdAddrMask, pdeHuge, pdePat]
  · simp only [pageEntry, BitVec.getLsbD_or, BitVec.getLsbD_and, getLsbD_pteFlags]
    split_ifs <;> simp [pteAddrMask, ptePat]

/-! ### What `pmap_map` writes

The leaf entries that a call makes, collected from the log of its stores. -/

namespace PmState

variable {σ : Type} [PageAllocator σ] {s s' : PmState σ}

/-- The entries that the functions have made to map memory since `s`. -/
def Leaves (s s' : PmState σ) (leaves : List (Entry × Bool)) : Prop :=
  ∃ l, s'.trace = s.trace ++ l ∧ l.filterMap Effect.leafEntry = leaves

omit [PageAllocator σ] in
/-- The leaves stored by two steps, in order. -/
theorem Leaves.trans {s'' : PmState σ} {leaves leaves' : List (Entry × Bool)}
    (h : Leaves s s' leaves) (h' : Leaves s' s'' leaves') : Leaves s s'' (leaves ++ leaves') := by
  obtain ⟨l, htrace, hl⟩ := h
  obtain ⟨l', htrace', hl'⟩ := h'
  exact ⟨l ++ l', by rw [htrace', htrace, List.append_assoc], by
    rw [List.filterMap_append, hl, hl']⟩

omit [PageAllocator σ] in
/-- One store stores at most one leaf. -/
theorem leaves_store (s : PmState σ) (level : Level) (p : Addr) (i : BitVec 9) (e : Entry) :
    Leaves s (s.store level p i e) (Effect.leafEntry (.store level p i e)).toList := by
  refine ⟨_, rfl, ?_⟩
  cases h : Effect.leafEntry (.store level p i e) <;> simp [h]

/-- Offsets within a range add up. -/
theorem offset_add (pa step : Addr) (n : ℕ) :
    pa + BitVec.ofNat 64 (n + step.toNat) = pa + step + BitVec.ofNat 64 n := by
  rw [BitVec.ofNat_add, BitVec.ofNat_toNat, BitVec.setWidth_eq, BitVec.add_comm (BitVec.ofNat 64 n),
    BitVec.add_assoc]

section Aligned

variable (haligned : ∀ m : σ, (PageAllocator.allocPages m).1 &&& pteAddrMask =
  (PageAllocator.allocPages m).1)

include haligned

/-- A link to a new table maps no memory. -/
theorem leaves_nextTable (s : PmState σ) {level : Level} (hlevel : level ≠ .pt) (p : Addr)
    (i : BitVec 9) {t : Option Addr} (h : s.nextTable level p i = (t, s')) : Leaves s s' [] := by
  rw [nextTable] at h
  split at h
  · cases h
    exact ⟨[], by simp, rfl⟩
  · dsimp only at h
    split at h
    · cases h
      exact ⟨[_], rfl, rfl⟩
    · cases h
      refine ⟨[.alloc s.allocPages.1, .clear s.allocPages.1,
        .store level p i (tableEntry s.allocPages.1)], ?_, ?_⟩
      · simp [store, clear, allocPages]
      -- the one entry stored points to a table, so that it is no leaf
      · have hhuge : (tableEntry s.allocPages.1).huge = false := huge_tableEntry (haligned s.pmm)
        cases level <;> simp_all [Effect.leafEntry]

/-- `pmap_map_page` makes one entry that maps memory, if it succeeds. -/
theorem leaves_pmapMapPage (s : PmState σ) (root va pa : Addr) (flags : BitVec 32) {ok : Bool}
    (h : s.pmapMapPage root va pa flags = (ok, s')) :
    Leaves s s' (if ok then [mapLeaf pa flags] else []) := by
  rw [pmapMapPage] at h
  split at h
  next s₁ heq₁ =>
    cases h
    exact leaves_nextTable haligned s (by decide) _ _ heq₁
  next pdpt s₁ heq₁ =>
    -- tables that are linked in map no memory
    have hleaves₁ := leaves_nextTable haligned s (by decide) _ _ heq₁
    split at h
    next s₂ heq₂ =>
      cases h
      exact hleaves₁.trans (leaves_nextTable haligned s₁ (by decide) _ _ heq₂)
    next pd s₂ heq₂ =>
      have hleaves₂ := hleaves₁.trans (leaves_nextTable haligned s₁ (by decide) _ _ heq₂)
      split at h
      next hflags =>
        cases h
        have hfree : ∀ e : Entry, Leaves s₂ (if e.present ∧ ¬ e.huge then s₂.freePages e.addr
            else s₂) [] := by
          intro e
          split
          · exact ⟨[.free e.addr], rfl, rfl⟩
          · exact ⟨[], by simp, rfl⟩
        have hstore := (hleaves₂.trans (hfree (s₂.mem pd (pdIndex va)))).trans
          (leaves_store _ .pd pd (pdIndex va) (hugeEntry pa flags))
        simpa [Effect.leafEntry, present_hugeEntry, huge_hugeEntry, mapLeaf, hflags, mapHuge]
          using hstore
      next hflags =>
        split at h
        next s₃ heq₃ =>
          cases h
          exact hleaves₂.trans (leaves_nextTable haligned s₂ (by decide) _ _ heq₃)
        next pt s₃ heq₃ =>
          cases h
          have hleaves₃ := hleaves₂.trans (leaves_nextTable haligned s₂ (by decide) _ _ heq₃)
          have hstore := hleaves₃.trans (leaves_store s₃ .pt pt (ptIndex va) (pageEntry pa flags))
          simpa [Effect.leafEntry, present_pageEntry, mapLeaf, hflags] using hstore

/-- The loop of `pmap_map` makes one entry for each page. -/
theorem leaves_mapLoop {root vaEnd step : Addr} {flags : BitVec 32}
    (hend : step.toNat ∣ vaEnd.toNat) (fuel : ℕ) {va : Addr} (hva : step.toNat ∣ va.toNat)
    (pa : Addr) (s : PmState σ)
    (h : mapLoop root vaEnd step flags fuel va pa s = some (true, s')) :
    ∃ leaves, Leaves s s' leaves ∧ ∀ x, x ∈ leaves ↔
      ∃ k, va.toNat + k * step.toNat < vaEnd.toNat ∧
        x = mapLeaf (pa + BitVec.ofNat 64 (k * step.toNat)) flags := by
  induction fuel generalizing s va pa with
  | zero => cases h
  | succ fuel ih =>
      rw [mapLoop] at h
      split at h
      next hlt =>
        have hlt' := BitVec.lt_def.mp hlt
        have hnext := toNat_add_step hend hva hlt
        split at h
        next s₁ heq =>
          have hfirst := leaves_pmapMapPage haligned s root va pa flags heq
          rw [if_pos rfl] at hfirst
          obtain ⟨leaves, hrest, hmem⟩ := ih (by rw [hnext]; exact Nat.dvd_add hva dvd_rfl)
            (pa + step) s₁ h
          refine ⟨_, hfirst.trans hrest, fun x => ?_⟩
          rw [List.mem_append, List.mem_singleton, hmem, hnext]
          -- the first entry is that of this round, the others are counted from it
          constructor
          · rintro (rfl | ⟨k, hk, rfl⟩)
            · exact ⟨0, by omega, by simp⟩
            · refine ⟨k + 1, by rw [Nat.succ_mul]; omega, ?_⟩
              rw [Nat.succ_mul, offset_add]
          · rintro ⟨k, hk, rfl⟩
            cases k with
            | zero => exact Or.inl (by simp)
            | succ k =>
                rw [Nat.succ_mul] at hk ⊢
                exact Or.inr ⟨k, by omega, by rw [offset_add]⟩
        next => cases h
      next hlt =>
        cases h
        refine ⟨[], ⟨[], by simp, rfl⟩, fun x => ?_⟩
        have hle : ¬ va.toNat < vaEnd.toNat := fun hlt' => hlt (BitVec.lt_def.mpr hlt')
        simp only [List.not_mem_nil, false_iff, not_exists, not_and]
        intro k hk
        omega

end Aligned

end PmState

/-! ### The frames of a range

The range is rounded outwards to pages, while `SYS_MAP` counts from the address it is given. -/

open PmState

/-- The number of frames that `pmap_map` maps: its range, rounded outwards to pages. -/
def spanCount (virt size : Addr) (flags : BitVec 32) : ℕ :=
  let step := (mapStep flags).toNat
  ((virt.toNat + size.toNat + (step - 1)) % 2 ^ 64 / step - virt.toNat / step) * (step / 4096)

/-- The frames that `pmap_map` maps, in order. -/
def spanFrame (phys : Addr) (flags : BitVec 32) (i : ℕ) : ℕ :=
  let step := (mapStep flags).toNat
  (phys.toNat / step * (step / 4096) + i) % 2 ^ 40

/-- The frames that the entry for the page at `pa` maps. -/
theorem mapsFrame_mapLeaf {pa : Addr} {flags : BitVec 32} {b : ℕ}
    (hpa : pa.toNat = b * (mapStep flags).toNat % 2 ^ 64) (pfn : ℕ) :
    MapsFrame (mapLeaf pa flags) pfn ↔ ∃ j < (mapStep flags).toNat / 4096,
      pfn = (b * ((mapStep flags).toNat / 4096) + j) % 2 ^ 40 := by
  rw [toNat_mapStep] at hpa ⊢
  -- a huge leaf covers 512 frames, a page one
  cases hflags : hasProt flags protHuge with
  | true =>
      rw [hflags] at hpa
      simp only [if_true] at hpa
      simp only [MapsFrame, mapLeaf, hflags, if_true, hugeEntry_and_mask,
        Word.toNat_and_mask (m := pdAddrMask) (a := 21) (w := 31) (by decide)]
      constructor
      · rintro ⟨j, hj, rfl⟩
        exact ⟨j, by omega, by omega⟩
      · rintro ⟨j, hj, rfl⟩
        exact ⟨j, by omega, by omega⟩
  | false =>
      rw [hflags] at hpa
      simp only [Bool.false_eq_true, if_false] at hpa
      simp only [MapsFrame, mapLeaf, hflags, Bool.false_eq_true, if_false, addr_pageEntry,
        Word.toNat_and_mask (m := pteAddrMask) (a := 12) (w := 40) (by decide)]
      constructor
      · rintro rfl
        exact ⟨0, by omega, by omega⟩
      · rintro ⟨j, hj, rfl⟩
        omega

/-- The addresses that `pmap_map` steps through, by the number of steps. -/
theorem toNat_step (phys : Addr) (flags : BitVec 32) (k : ℕ) :
    ((phys &&& ~~~(mapStep flags - 1)) + BitVec.ofNat 64 (k * (mapStep flags).toNat)).toNat =
      (phys.toNat / (mapStep flags).toNat + k) * (mapStep flags).toNat % 2 ^ 64 := by
  rw [BitVec.toNat_add, toNat_round, BitVec.toNat_ofNat, Nat.add_mod_mod, Nat.add_mul]

/-- The end of a range, rounded up to its step. -/
theorem toNat_rangeEnd (virt size : Addr) (flags : BitVec 32) :
    (virt + size + (mapStep flags - 1)).toNat =
      (virt.toNat + size.toNat + ((mapStep flags).toNat - 1)) % 2 ^ 64 := by
  have hmask : (mapStep flags - 1).toNat = (mapStep flags).toNat - 1 := by
    unfold mapStep
    split_ifs <;> rfl
  rw [BitVec.toNat_add, BitVec.toNat_add, hmask, Nat.mod_add_mod]

/-- What a call of `pmap_map` that returns `0` maps. -/
theorem PmState.frames_pmapMap {σ : Type} [PageAllocator σ]
    (haligned : ∀ m : σ, (PageAllocator.allocPages m).1 &&& pteAddrMask =
      (PageAllocator.allocPages m).1)
    {s s' : PmState σ} {fuel : ℕ} {root virt phys size : Addr} {flags : BitVec 32}
    (h : s.pmapMap fuel root virt phys size flags = some (true, s')) :
    ∃ leaves, Leaves s s' leaves ∧
      (∀ x ∈ leaves, x.1.writable = hasProt flags protWrite) ∧
      ∀ pfn, (∃ x ∈ leaves, MapsFrame x pfn) ↔
        ∃ i < spanCount virt size flags, pfn = spanFrame phys flags i := by
  rw [PmState.pmapMap] at h
  split at h
  · cases h
  obtain ⟨leaves, hleaves, hmem⟩ := leaves_mapLoop haligned
    (by rw [toNat_round]; exact Nat.dvd_mul_left _ _) fuel
    (by rw [toNat_round]; exact Nat.dvd_mul_left _ _) _ s h
  refine ⟨leaves, hleaves, fun x hx => ?_, fun pfn => ?_⟩
  · obtain ⟨k, -, rfl⟩ := (hmem x).mp hx
    exact writable_mapLeaf _ _
  -- a step is one frame or 512 of them
  · obtain ⟨c, hc, hstep⟩ : ∃ c, 0 < c ∧ (mapStep flags).toNat = c * 4096 := by
      rw [toNat_mapStep]
      split
      · exact ⟨512, by decide, by decide⟩
      · exact ⟨1, by decide, by decide⟩
    have hpages : (mapStep flags).toNat / 4096 = c := by
      rw [hstep, Nat.mul_div_cancel _ (by decide)]
    have hbound : ∀ k, (virt &&& ~~~(mapStep flags - 1)).toNat + k * (mapStep flags).toNat <
        ((virt + size + (mapStep flags - 1)) &&& ~~~(mapStep flags - 1)).toNat ↔
        k < (virt.toNat + size.toNat + ((mapStep flags).toNat - 1)) % 2 ^ 64 /
          (mapStep flags).toNat - virt.toNat / (mapStep flags).toNat := by
      intro k
      rw [toNat_round, toNat_round, toNat_rangeEnd, ← Nat.add_mul,
        Nat.mul_lt_mul_right (by omega : 0 < (mapStep flags).toNat)]
      omega
    -- the frames of the `k`-th entry
    have hframes : ∀ k pfn, MapsFrame (mapLeaf ((phys &&& ~~~(mapStep flags - 1)) +
        BitVec.ofNat 64 (k * (mapStep flags).toNat)) flags) pfn ↔
        ∃ j < c, pfn = spanFrame phys flags (k * c + j) := by
      intro k pfn
      rw [mapsFrame_mapLeaf (toNat_step phys flags k), hpages]
      simp only [spanFrame, hpages, Nat.add_mul, Nat.add_assoc]
    simp only [hmem, spanCount, hpages]
    constructor
    · rintro ⟨_, ⟨k, hk, rfl⟩, hpfn⟩
      obtain ⟨j, hj, rfl⟩ := (hframes k pfn).mp hpfn
      refine ⟨k * c + j, ?_, rfl⟩
      calc k * c + j < (k + 1) * c := by rw [Nat.succ_mul]; omega
        _ ≤ _ := Nat.mul_le_mul_right c ((hbound k).mp hk)
    · rintro ⟨i, hi, rfl⟩
      refine ⟨_, ⟨i / c, (hbound _).mpr ((Nat.div_lt_iff_lt_mul hc).mpr hi), rfl⟩,
        (hframes _ _).mpr ⟨i % c, Nat.mod_lt _ hc, ?_⟩⟩
      rw [Nat.div_add_mod']

/-! ### What `SYS_MAP` looks at

The rights are tested frame by frame. A range that goes beyond what was tested is the case that is
wrong. -/

/-- Whether the first loop of `SYS_MAP` asks for the right to read the frame: the caller wants to
read, and the frame is one of those from `a3` on, in a range that does not wrap around. -/
def Tested (a3 a4 a5 : BitVec 64) (pfn : ℕ) : Prop :=
  a5 &&& protRead.setWidth 64 ≠ 0 ∧ a3.toNat + a4.toNat < 2 ^ 64 ∧
    ∃ j, j * 4096 < a4.toNat ∧ pfn = a3.toNat / 4096 + j

/-- The rights that an entry needs. What is present can be read. -/
def neededRights (writable : Bool) : BitVec 8 := grantRead ||| if writable then grantWrite else 0

/-- The rights that a call needs follow from the write bit when it asks for reading. -/
theorem mapRights_eq {prot : BitVec 64} (h : prot &&& protRead.setWidth 64 ≠ 0) :
    Kernel.mapRights prot = neededRights (prot &&& protWrite.setWidth 64 != 0) := by
  rw [Kernel.mapRights, neededRights, if_pos (by simpa using h)]

/-- The flags of the mapping have the write bit that was asked for. -/
theorem hasProt_mapFlags (prot : BitVec 64) :
    hasProt (Kernel.mapFlags prot) protWrite = (prot &&& protWrite.setWidth 64 != 0) := by
  have hbit : protWrite = BitVec.twoPow 32 1 := by decide
  have hbit' : protWrite.setWidth 64 = BitVec.twoPow 64 1 := by decide
  have hflags : (Kernel.mapFlags prot).getLsbD 1 = prot.getLsbD 1 := by
    simp [Kernel.mapFlags, protUser]
  rw [hbit', hasProt, hbit, BitVec.and_twoPow, BitVec.and_twoPow, hflags]
  cases prot.getLsbD 1 <;> decide

namespace Kernel

variable {σ : Type} {s s' : Kernel σ}

/-- The entries that map memory that a call has made. -/
def written (s s' : Kernel σ) : List (Entry × Bool) :=
  (s'.pm.trace.drop s.pm.trace.length).filterMap Effect.leafEntry

/-- Before the call the caller held all that the call lets the target reach. -/
def Authorized (s s' : Kernel σ) : Prop :=
  ∀ x ∈ written s s', ∀ pfn, MapsFrame x pfn →
    s.grantHolds s.cur.pmap (BitVec.ofNat 64 pfn) (neededRights x.1.writable) = some true

/-- The leaves written by a call are those of its history. -/
theorem written_eq {leaves : List (Entry × Bool)} (h : Leaves s.pm s'.pm leaves) :
    written s s' = leaves := by
  obtain ⟨l, htrace, hl⟩ := h
  rw [written, htrace, List.drop_left, hl]

/-- The first loop of `SYS_MAP`. -/
theorem grantHolds_of_mapCheck {rights : BitVec 8} {paEnd : Addr} (fuel : ℕ) {pa : Addr}
    (h : s.mapCheck rights paEnd fuel pa = some true) (j : ℕ)
    (hj : pa.toNat + j * 4096 < paEnd.toNat) :
    s.grantHolds s.cur.pmap (BitVec.ofNat 64 (pa.toNat / 4096 + j)) rights = some true := by
  induction fuel generalizing pa j with
  | zero => cases h
  | succ fuel ih =>
      have hlt : pa < paEnd := BitVec.lt_def.mpr (by omega)
      rw [mapCheck, if_pos hlt] at h
      obtain ⟨held, hheld, h⟩ := Option.bind_eq_some_iff.mp h
      cases held with
      | false => cases h
      | true =>
          cases j with
          | zero =>
              have hpfn : physToPfn pa = BitVec.ofNat 64 (pa.toNat / 4096 + 0) := by
                rw [← BitVec.toNat_inj, physToPfn]
                simp [Nat.shiftRight_eq_div_pow]
                omega
              rw [← hpfn]
              exact hheld
          -- The other frames are tested in the rounds that follow.
          | succ j =>
              have hnext : (pa + pageSize).toNat = pa.toNat + 4096 := by
                rw [BitVec.toNat_add]
                have hsize : pageSize.toNat = 4096 := rfl
                omega
              have hrest := ih h j (by omega)
              rw [hnext] at hrest
              have hpfn : (pa.toNat + 4096) / 4096 + j = pa.toNat / 4096 + (j + 1) := by omega
              rwa [hpfn] at hrest

/-- The second loop of `SYS_MAP` counts. -/
theorem mapCount_eq {paEnd : Addr} (fuel : ℕ) {pa : Addr} (h : mapCount paEnd fuel pa s = some s') :
    ∃ maps, s' = { s with maps } := by
  induction fuel generalizing s pa with
  | zero => cases h
  | succ fuel ih =>
      rw [mapCount] at h
      split at h
      · obtain ⟨maps, rfl⟩ := ih h
        rw [grantMappingAdd]
        split <;> exact ⟨_, rfl⟩
      · cases h
        exact ⟨_, rfl⟩

/-- The checks of `SYS_MAP`. -/
structure MapChecked (fuel : ℕ) (s : Kernel σ) (a1 a3 a4 a5 : BitVec 64) : Prop where
  registered : s.registered a1 = true
  pager : (s.thread a1).pagerTid = s.current
  size : a4 ≠ 0
  rights : mapRights a5 ≠ 0
  held : s.mapCheck (mapRights a5) (a3 + a4) fuel a3 = some true

variable [PageAllocator σ] {fuel : ℕ} {a1 a2 a3 a4 a5 : BitVec 64}

/-- What `SYS_MAP` does: nothing, or a call of `pmap_map`. -/
theorem sysMap_cases {v : BitVec 64} (h : s.sysMap fuel a1 a2 a3 a4 a5 = some (v, s')) :
    (v = -1 ∧ s' = s) ∨ (MapChecked fuel s a1 a3 a4 a5 ∧
      ∃ p ok pm maps, s.pmaps (s.thread a1).pmap = some p ∧
        s.pm.pmapMap fuel p.rootPhys a2 a3 a4 (mapFlags a5) = some (ok, pm) ∧
        s' = { s with pm, maps } ∧ v = if ok then 0 else -1) := by
  rw [sysMap] at h
  split at h
  · cases h
    exact Or.inl ⟨rfl, rfl⟩
  -- the tests of the call, in order; each of them returns -1
  next hregistered =>
  split at h
  · cases h
    exact Or.inl ⟨rfl, rfl⟩
  next hpager =>
  split at h
  · cases h
    exact Or.inl ⟨rfl, rfl⟩
  next hsize =>
  split at h
  · cases h
    exact Or.inl ⟨rfl, rfl⟩
  next hrights =>
  obtain ⟨held, hheld, h⟩ := Option.bind_eq_some_iff.mp h
  cases held with
  | false =>
      cases h
      exact Or.inl ⟨rfl, rfl⟩
  | true =>
      have hchecked : MapChecked fuel s a1 a3 a4 a5 :=
        ⟨by simpa using hregistered, by simpa using hpager, hsize, hrights, hheld⟩
      obtain ⟨⟨ok, s₁⟩, hmap, h⟩ := Option.bind_eq_some_iff.mp h
      rw [pmapMap] at hmap
      split at hmap
      · cases hmap
        cases h
        exact Or.inl ⟨rfl, rfl⟩
      obtain ⟨p, hp, hmap⟩ := Option.bind_eq_some_iff.mp hmap
      obtain ⟨⟨ok', pm⟩, hpm, hmap⟩ := Option.bind_eq_some_iff.mp hmap
      cases hmap
      cases ok with
      | false =>
          cases h
          exact Or.inr ⟨hchecked, p, false, pm, s.maps, hp, hpm, rfl, rfl⟩
      | true =>
          obtain ⟨s₂, hcount, h⟩ := Option.bind_eq_some_iff.mp h
          cases h
          obtain ⟨maps, rfl⟩ := mapCount_eq fuel hcount
          exact Or.inr ⟨hchecked, p, true, pm, maps, hp, hpm, rfl, rfl⟩

/-- When `SYS_MAP` returns `0`, all that it maps was held if and only if the frames that it maps
and does not look at, or looks at for the right to write alone, happen to be held. -/
theorem sysMap_authorized_iff
    (haligned : ∀ m : σ, (PageAllocator.allocPages m).1 &&& pteAddrMask =
      (PageAllocator.allocPages m).1)
    (h : s.sysMap fuel a1 a2 a3 a4 a5 = some (0, s')) :
    Authorized s s' ↔ ∀ i < spanCount a2 a4 (mapFlags a5),
      ¬ Tested a3 a4 a5 (spanFrame a3 (mapFlags a5) i) →
        s.grantHolds s.cur.pmap (BitVec.ofNat 64 (spanFrame a3 (mapFlags a5) i))
          (neededRights (a5 &&& protWrite.setWidth 64 != 0)) = some true := by
  obtain ⟨hfail, -⟩ | ⟨hchecked, p, ok, pm, maps, -, hmap, rfl, hok⟩ := sysMap_cases h
  · exact absurd hfail (by decide)
  obtain rfl : ok = true := by
    cases ok with
    | false => exact absurd hok (by decide)
    | true => rfl
  obtain ⟨leaves, hleaves, hwritable, hframes⟩ := frames_pmapMap haligned hmap
  rw [Authorized, written_eq hleaves]
  constructor
  · intro hauth i hi _
    obtain ⟨x, hx, hpfn⟩ := (hframes _).mpr ⟨i, hi, rfl⟩
    have := hauth x hx _ hpfn
    rwa [hwritable x hx, hasProt_mapFlags] at this
  · intro hheld x hx pfn hpfn
    obtain ⟨i, hi, rfl⟩ := (hframes pfn).mp ⟨x, hx, hpfn⟩
    rw [hwritable x hx, hasProt_mapFlags]
    -- the frames that were tested are held, since the call has returned 0
    by_cases htested : Tested a3 a4 a5 (spanFrame a3 (mapFlags a5) i)
    · obtain ⟨hread, hwrap, j, hj, hframe⟩ := htested
      have hend : (a3 + a4).toNat = a3.toNat + a4.toNat := by
        rw [BitVec.toNat_add, Nat.mod_eq_of_lt hwrap]
      rw [← mapRights_eq hread, hframe]
      exact grantHolds_of_mapCheck fuel hchecked.held j (by omega)
    · exact hheld i hi htested

/-- Thread 1 is the pager of thread 2 and holds the frame `0x200`. -/
def oneGrant : Kernel BumpAllocator where
  pm := .blank
  pmaps p :=
    if p = 0x100#64 then some { rootPhys := 0x80000#64, grants := [⟨0x200#64, 3#8⟩] }
    else if p = 0x200#64 then some { rootPhys := 0x81000#64, grants := [] }
    else none
  kernelPmap := 0x300#64
  thread tid :=
    if tid = 1 then { pmap := 0x100#64, pagerTid := 0, utcb := 0, state := .running }
    else { pmap := 0x200#64, pagerTid := 1, utcb := 0, state := .ready }
  registered tid := tid = 1 ∨ tid = 2
  nextTid := 3
  current := 1
  cr3 := 0x80000#64
  kernelData _ := false
  -- the root server's pmap is neither of the two
  rootPmap := 0x400#64
  frames := 0x1000#64
  pool _ := false
  refs _ := 1
  maps _ := 0

/-- Thread 1 maps its frame for thread 2. -/
theorem sysMap_authorized_iff_onePage : ∃ s',
    oneGrant.sysMap 2 2 0x400000#64 0x200000#64 0x1000#64 3#64 = some (0, s') ∧
      Authorized oneGrant s' := by
  have hcheck : ((oneGrant.sysMap 2 2 0x400000#64 0x200000#64 0x1000#64 3#64).any
      fun x => x.1 = 0) = true := by decide +kernel
  obtain ⟨⟨v, s'⟩, h, hv⟩ := (Option.any_eq_true _ _).mp hcheck
  obtain rfl : v = 0 := by simpa using hv
  refine ⟨s', h, (sysMap_authorized_iff LawfulPageAllocator.alloc_aligned h).mpr ?_⟩
  intro i hi hnot
  have hcount : spanCount 0x400000#64 0x1000#64 (mapFlags 3#64) = 1 := by decide
  obtain rfl : i = 0 := by omega
  exact absurd ⟨by decide, by decide, 0, by decide, by decide⟩ hnot

/-- Thread 1 maps its frame as a huge page, and thread 2 reaches the 511 frames after it. -/
theorem sysMap_huge_not_authorized : ∃ s',
    oneGrant.sysMap 2 2 0x400000#64 0x200000#64 0x1000#64 0x41#64 = some (0, s') ∧
      ¬ Authorized oneGrant s' ∧
      oneGrant.grantHolds oneGrant.cur.pmap 0x201#64 grantRead = some false ∧
      oneGrant.pmapExtract (oneGrant.thread 2).pmap 0x401000#64 = some 0#64 ∧
      s'.pmapExtract (oneGrant.thread 2).pmap 0x401000#64 = some 0x201000#64 := by
  have hcheck : ((oneGrant.sysMap 2 2 0x400000#64 0x200000#64 0x1000#64 0x41#64).any fun x =>
      x.1 = 0 ∧ mapLeaf 0x200000#64 (mapFlags 0x41#64) ∈ written oneGrant x.2 ∧
        x.2.pmapExtract (oneGrant.thread 2).pmap 0x401000#64 = some 0x201000#64) = true := by
    decide +kernel
  obtain ⟨⟨v, s'⟩, h, hcheck⟩ := (Option.any_eq_true _ _).mp hcheck
  obtain ⟨rfl, hmem, hextract⟩ : v = 0 ∧ _ ∧ _ := by simpa using hcheck
  refine ⟨s', h, fun hauth => ?_, by decide, by decide, hextract⟩
  have hheld := hauth _ hmem 0x201 ⟨1, by decide, by decide⟩
  exact absurd hheld (by decide)

end Kernel

end Koharu
