import Koharu.Mm.PmmSafety
import Mathlib.Data.Set.Card
import Mathlib.Order.Interval.Finset.Nat

/-!
# The pool

Memory is divided at boot. `pmm_init` gives the frames below `PMM_POOL_START_PFN` to the free lists
of the allocator, and `grant_pool_build` gives the others to the root server, by a bitmap that it
fills by asking `pmm_frame_in_pool` about every frame.

Both parts are defined by the memory map. A frame is in the allocator's part if its block is seeded,
and the loops of `pmm_init` seed each usable entry from its aligned start, or 1 MiB, to its end or
the pool's start, without the page array (`Seeded`). A frame is in the pool if `pmm_frame_in_pool`
says so, which compares the same numbers (`entryHolds_iff`). That the parts do not overlap is the
comparison with `PMM_POOL_START_PFN`, and that they cover all usable memory is what the loops do not
leave out.

* `pmmFrameInPool`, `grantPoolBuild`, `grantPoolTest`: the functions, with the bitmap as bytes;
* `covered`: the frames on the free lists. `covered_pmmInit` says which they are;
* `boot_partition`: the two parts cover all memory and do not overlap.

The last frame of the 64-bit address space is an exception: its end wraps to `0`, and
`pmm_frame_in_pool` takes it for a frame of any entry (`last_frame_in_pool`).
-/

namespace Koharu

namespace Pmm

/-! ### `pmm_frame_in_pool`

A frame is in the pool if its page lies in a usable entry and it is above the frames of the
allocator. -/

/-- The loop body of `pmm_frame_in_pool`: whether the page at `phys` is in a usable entry. -/
def entryHolds (phys : ℕ) (e : MmapEntry) : Bool :=
  if e.type ≠ .usable then false
  else
    let start := alignUp e.physStart.toNat
    let stop := alignDown (wrap64 (e.physStart.toNat + e.length.toNat))
    let start := if start < lowMemory then lowMemory else start
    if stop ≤ start then false
    else phys ≥ start ∧ wrap64 (phys + pageSize) ≤ stop

/-- `pmm_frame_in_pool`. -/
def pmmFrameInPool (s : Pmm) (info : MmapInfo) (pfn : ℕ) : Bool :=
  if pfn < pmmPoolStartPfn then false
  else
    let phys := wrap64 (pfnToPhys pfn)
    if phys < lowMemory then false
    else if phys ≥ s.memMapPhys ∧ phys < wrap64 (s.memMapPhys + s.memMapSize) then false
    else info.entries.any (entryHolds phys)

/-! ### The bitmap of the pool

The bitmap has a bit for each frame below the highest address, and its memory comes from the
allocator itself. -/

/-- The loop of `alloc_order`. There are fewer than `2 ^ 64` pages. -/
def allocOrderLoop (pages : ℕ) : ℕ → ℕ → ℕ
  | 0, order => order
  | left + 1, order => if 2 ^ order < pages then allocOrderLoop pages left (order + 1) else order

/-- `alloc_order`. -/
def allocOrder (bytes : ℕ) : ℕ := allocOrderLoop (wrap64 (bytes + pageSize - 1) >>> pageShift) 64 0

/-- `g_frames`, as `grant_init` sets it. -/
def grantFrames (info : MmapInfo) : ℕ := (info.maxPhysAddr.toNat >>> pageShift) + 1

/-- `g_pool_v`. -/
abbrev Bitmap := ℕ → BitVec 8

/-- The loop of `grant_pool_build`. -/
def markPool (inPool : ℕ → Bool) (frames : ℕ) (bits : Bitmap) : Bitmap :=
  (List.range frames).foldl (fun bits pfn =>
    if inPool pfn then Function.update bits (pfn / 8) (bits (pfn / 8) ||| 1#8 <<< (pfn % 8))
    else bits) bits

/-- `grant_pool_build`, with what the block it is given holds: the bitmap when it returns `0`, and
`some none` when it returns `-1`. -/
def grantPoolBuild (s : Pmm) (info : MmapInfo) (old : Bitmap) : Option (Option Bitmap × Pmm) := do
  let bytes := (grantFrames info + 7) / 8
  match ← s.pmmAllocPages (allocOrder bytes) with
  | (none, s) => return (none, s)
  | (some _, s) =>
      -- `memset`
      let bits : Bitmap := fun i => if i < 2 ^ (allocOrder bytes + pageShift) then 0 else old i
      return (some (markPool (s.pmmFrameInPool info) (grantFrames info) bits), s)

/-- `grant_pool_test`. -/
def grantPoolTest (info : MmapInfo) (bits : Bitmap) (pfn : ℕ) : Bool :=
  if pfn ≥ grantFrames info then false
  else (bits (pfn / 8) >>> (pfn % 8) &&& 1#8) != 0

/-! ### The frames on the free lists

What seeding puts on the lists, frame by frame. -/

/-- The frames in the blocks of the free lists. -/
def covered (lists : ListStore ℕ ℕ) : Set ℕ :=
  {f | ∃ b : Block, lists.home b.base = some b.order ∧ f ∈ b.frames}

/-- The flags of the pages are set on the heads of the free blocks. Behind the page array, where
there are no flags, `beyond` is read. -/
def Flagged (s : Pmm) (entries : ℕ) (beyond : ℕ → Bool) : Prop :=
  ∀ f, s.isFree f = ((s.freeList.home f).isSome || if f < entries then false else beyond f)

/-- What seeding a block does. -/
theorem covered_seedBlock {s s' : Pmm} {curr o : ℕ} (h : s.seedBlock curr o = some s') :
    covered s'.freeList = covered s.freeList ∪ (⟨physToPfn curr, o⟩ : Block).frames ∧
      (∀ entries beyond, s.Flagged entries beyond → s'.Flagged entries beyond) ∧
      s'.memMapPhys = s.memMapPhys ∧ s'.memMapSize = s.memMapSize ∧
      s'.totalPages = s.totalPages := by
  unfold seedBlock at h
  obtain ⟨lists, hlists, hs'⟩ := Option.bind_eq_some_iff.mp h
  cases hs'
  -- a node that is on a list already makes the step fail
  have hnone : s.freeList.home (physToPfn curr) = none := by
    by_contra hne
    rw [ListStore.pushBack_eq_none _ hne] at hlists
    cases hlists
  rw [ListStore.pushBack_eq_some _ hnone] at hlists
  cases hlists
  refine ⟨?_, fun entries beyond hflagged f => ?_, rfl, rfl, rfl⟩
  · ext f
    simp only [covered, ListStore.snocAt_home, Set.mem_union, Set.mem_ofPred_eq]
    constructor
    · rintro ⟨b, hb, hf⟩
      by_cases hbase : b.base = physToPfn curr
      · rw [hbase, Function.update_self, Option.some.injEq] at hb
        exact Or.inr (by rw [← hbase, hb]; exact hf)
      · rw [Function.update_of_ne hbase] at hb
        exact Or.inl ⟨b, hb, hf⟩
    · rintro (⟨b, hb, hf⟩ | hf)
      · have hbase : b.base ≠ physToPfn curr := by
          rintro hbase
          rw [hbase, hnone] at hb
          cases hb
        exact ⟨b, by rw [Function.update_of_ne hbase]; exact hb, hf⟩
      · exact ⟨_, Function.update_self .., hf⟩
  · by_cases hf : f = physToPfn curr
    · subst hf
      simp
    · simp only [ListStore.snocAt_home, Function.update_of_ne hf]
      exact hflagged f

/-- The frames from `curr` to `stop` that are not in the page array and below the pool. -/
def region (arrayPhys arrayEnd curr stop : ℕ) : Set ℕ :=
  {f | curr ≤ f * pageSize ∧ f * pageSize < stop ∧ f < pmmPoolStartPfn ∧
    ¬(arrayPhys ≤ f * pageSize ∧ f * pageSize < arrayEnd)}

/-- Seeding keeps what the allocator knows of the page array. -/
structure Seeded (s s' : Pmm) (P : Set ℕ) : Prop where
  covered : covered s'.freeList = covered s.freeList ∪ P
  flagged : ∀ entries beyond, s.Flagged entries beyond → s'.Flagged entries beyond
  memMapPhys : s'.memMapPhys = s.memMapPhys
  memMapSize : s'.memMapSize = s.memMapSize
  totalPages : s'.totalPages = s.totalPages

/-- Nothing was taken yet. -/
theorem Seeded.refl (s : Pmm) : s.Seeded s ∅ where
  covered := (Set.union_empty _).symm
  flagged _ _ h := h
  memMapPhys := rfl
  memMapSize := rfl
  totalPages := rfl

/-- What two steps took is the union. -/
theorem Seeded.trans {s s' s'' : Pmm} {P Q : Set ℕ} (h : s.Seeded s' P) (h' : s'.Seeded s'' Q) :
    s.Seeded s'' (P ∪ Q) where
  covered := by rw [h'.covered, h.covered, Set.union_assoc]
  flagged e b hs := h'.flagged e b (h.flagged e b hs)
  memMapPhys := h'.memMapPhys.trans h.memMapPhys
  memMapSize := h'.memMapSize.trans h.memMapSize
  totalPages := h'.totalPages.trans h.totalPages

/-- There is nothing to tile at the end of a region, or in the pool. -/
theorem region_eq_empty {arrayPhys arrayEnd curr stop : ℕ}
    (h : stop ≤ curr ∨ pmmPoolStartPfn <<< pageShift ≤ curr) :
    region arrayPhys arrayEnd curr stop = ∅ := by
  apply Set.eq_empty_of_forall_notMem
  intro f hf
  obtain ⟨hle, hlt, hpool, -⟩ := hf
  simp only [pageSize, pmmPoolStartPfn, pageShift, Nat.reduceShiftLeft] at *
  omega

/-- The frames of the page array are skipped. -/
theorem region_skip {arrayPhys arrayEnd curr stop : ℕ} (hle : arrayPhys ≤ curr)
    (hlt : curr < arrayEnd) :
    region arrayPhys arrayEnd curr stop = region arrayPhys arrayEnd arrayEnd stop := by
  ext f
  simp only [region, Set.mem_ofPred_eq]
  constructor
  · rintro ⟨hf, hstop, hpool, harray⟩
    exact ⟨by omega, hstop, hpool, harray⟩
  · rintro ⟨hf, hstop, hpool, harray⟩
    exact ⟨by omega, hstop, hpool, harray⟩

/-- A block is taken from the front of a region. -/
theorem region_block {arrayPhys arrayEnd curr next stop limit o : ℕ} (hcurr : pageSize ∣ curr)
    (hnext : pageSize ∣ next) (hdiv : next / pageSize = curr / pageSize + 2 ^ o)
    (hle : next ≤ limit) (hstop : limit ≤ stop) (hpool : limit ≤ pmmPoolStartPfn <<< pageShift)
    (harray : curr < arrayPhys → limit ≤ arrayPhys) (hout : ¬(arrayPhys ≤ curr ∧ curr < arrayEnd)) :
    region arrayPhys arrayEnd curr stop =
      (⟨curr / pageSize, o⟩ : Block).frames ∪ region arrayPhys arrayEnd next stop := by
  obtain ⟨a, rfl⟩ := hcurr
  obtain ⟨b, rfl⟩ := hnext
  have hsize : 0 < pageSize := by decide
  rw [Nat.mul_div_cancel_left _ hsize, Nat.mul_div_cancel_left _ hsize] at hdiv
  rw [Nat.mul_div_cancel_left _ hsize]
  have hpos := Nat.two_pow_pos o
  -- both sides as inequalities about page numbers: the block covers `curr` up to `next`
  ext f
  simp only [region, Set.mem_union, Block.mem_frames, Set.mem_ofPred_eq, ← hdiv]
  simp only [pageSize, pmmPoolStartPfn, pageShift, Nat.reduceShiftLeft] at *
  omega

/-- Every iteration of the loop of `pmm_init` advances by a page or more. -/
theorem pages_left_lt {curr next stop left : ℕ} (hcurr : pageSize ∣ curr) (hnext : pageSize ∣ next)
    (hstop : pageSize ∣ stop) (hlt : curr < stop) (hadvance : curr < next)
    (hleft : (stop - curr) / pageSize < left + 1) : (stop - next) / pageSize < left := by
  obtain ⟨a, rfl⟩ := hcurr
  obtain ⟨b, rfl⟩ := hnext
  obtain ⟨c, rfl⟩ := hstop
  simp only [pageSize] at *
  omega

/-- Seeding a region covers its frames. -/
theorem Seeded.of_seedRegion {arrayPhys arrayEnd stop : ℕ} (hphys : pageSize ∣ arrayPhys)
    (hend : pageSize ∣ arrayEnd) (hstop : pageSize ∣ stop) (left : ℕ) {s s' : Pmm} {curr : ℕ}
    (hcurr : pageSize ∣ curr) (hlow : lowMemory ≤ curr) (hleft : (stop - curr) / pageSize < left)
    (h : s.seedRegion arrayPhys arrayEnd stop left curr = some s') :
    s.Seeded s' (region arrayPhys arrayEnd curr stop) := by
  induction left generalizing s curr with
  | zero => exact absurd hleft (Nat.not_lt_zero _)
  | succ left ih =>
      rw [seedRegion] at h
      split at h
      next hlt =>
        split at h
        next hpool =>
          cases h
          rw [region_eq_empty (Or.inr hpool)]
          exact .refl _
        next hbelow =>
          split at h
          -- the page array is skipped as a whole
          next harray =>
            rw [region_skip harray.1 harray.2]
            exact ih hend (by omega) (pages_left_lt hcurr hend hstop hlt harray.2 hleft) h
          next hout =>
            rw [not_le] at hbelow
            -- one block is seeded, which ends at the limit at the latest
            obtain ⟨limit, hlimit⟩ : ∃ limit, limit =
                (if (if curr < arrayPhys ∧ stop > arrayPhys then arrayPhys else stop) >
                    pmmPoolStartPfn <<< pageShift then pmmPoolStartPfn <<< pageShift
                  else if curr < arrayPhys ∧ stop > arrayPhys then arrayPhys else stop) := ⟨_, rfl⟩
            obtain ⟨hdvd, hcl, hpool, hls, harray⟩ := limit_spec hphys hstop hlt hbelow hlimit
            obtain ⟨hplaced, hpfn, hdiv, hdvd', hle⟩ :=
              wellPlaced_target hcurr hdvd hlow hcl hpool
            simp only [← hlimit] at h
            generalize targetOrder (limit - curr) curr (maxBuddyOrder - 1) = o at *
            obtain ⟨s₁, hs₁, hrest⟩ := Option.bind_eq_some_iff.mp h
            obtain ⟨hcovered, hflagged, hmap, hmapSize, htotal⟩ := covered_seedBlock hs₁
            rw [region_block hcurr hdvd' hdiv hle hls hpool harray hout, ← hpfn]
            have hpos := Nat.two_pow_pos (pageShift + o)
            exact Seeded.trans ⟨hcovered, hflagged, hmap, hmapSize, htotal⟩
              (ih hdvd' (by omega) (pages_left_lt hcurr hdvd' hstop hlt (by omega) hleft) hrest)
      next hge =>
        cases h
        rw [region_eq_empty (Or.inl (not_lt.mp hge))]
        exact .refl _

/-- The start of what `pmm_init` looks at in a usable entry. -/
theorem entry_bounds {e : MmapEntry} (hstart : pageSize ∣ e.physStart.toNat)
    (hlen : pageSize ∣ e.length.toNat) (hend : e.physStart.toNat + e.length.toNat < 2 ^ 64) :
    alignUp e.physStart.toNat = e.physStart.toNat ∧
      alignDown (wrap64 (e.physStart.toNat + e.length.toNat)) =
        e.physStart.toNat + e.length.toNat := by
  refine ⟨alignUp_of_dvd hstart e.physStart.isLt, ?_⟩
  rw [wrap64, Nat.mod_eq_of_lt hend, alignDown]
  exact Nat.div_mul_cancel (Nat.dvd_add hstart hlen)

/-- The frames of a usable entry that `pmm_init` puts on the free lists. -/
theorem region_entry {arrayPhys arrayEnd : ℕ} (e : MmapEntry) :
    region arrayPhys arrayEnd
        (if e.physStart.toNat < lowMemory then lowMemory else e.physStart.toNat)
        (e.physStart.toNat + e.length.toNat) =
      {f | f ∈ e.frames ∧ lowMemory ≤ f * pageSize ∧ f < pmmPoolStartPfn ∧
        ¬(arrayPhys ≤ f * pageSize ∧ f * pageSize < arrayEnd)} := by
  ext f
  simp only [region, MmapEntry.frames, MmapEntry.bytes, Set.mem_ofPred_eq, Set.mem_Ico]
  -- an entry below one megabyte is cut there
  split
  · constructor
    · rintro ⟨hlow, hlt, hrest⟩
      exact ⟨⟨by omega, hlt⟩, hlow, hrest⟩
    · rintro ⟨⟨-, hlt⟩, hlow, hrest⟩
      exact ⟨hlow, hlt, hrest⟩
  · constructor
    · rintro ⟨hle, hlt, hrest⟩
      exact ⟨⟨hle, hlt⟩, by omega, hrest⟩
    · rintro ⟨⟨hle, hlt⟩, -, hrest⟩
      exact ⟨hle, hlt, hrest⟩

/-- The frames of the usable entries from 1 MiB on that are not in the page array. -/
def usableFrames (es : List MmapEntry) (arrayPhys arrayEnd : ℕ) : Set ℕ :=
  {f | (∃ e ∈ es, e.type = .usable ∧ f ∈ e.frames) ∧ lowMemory ≤ f * pageSize ∧
    ¬(arrayPhys ≤ f * pageSize ∧ f * pageSize < arrayEnd)}

/-- Seeding the usable entries covers their frames below the pool. -/
theorem Seeded.of_seedEntries {arrayPhys arrayEnd : ℕ} (hphys : pageSize ∣ arrayPhys)
    (hend : pageSize ∣ arrayEnd) (es : List MmapEntry)
    (haligned : ∀ e ∈ es, e.type = .usable →
      pageSize ∣ e.physStart.toNat ∧ pageSize ∣ e.length.toNat)
    (hbound : ∀ e ∈ es, e.type = .usable → e.physStart.toNat + e.length.toNat < 2 ^ 64)
    {s s' : Pmm} (h : s.seedEntries arrayPhys arrayEnd es = some s') :
    s.Seeded s' {f | f ∈ usableFrames es arrayPhys arrayEnd ∧ f < pmmPoolStartPfn} := by
  induction es generalizing s with
  | nil =>
      cases h
      have hempty : {f | f ∈ usableFrames [] arrayPhys arrayEnd ∧ f < pmmPoolStartPfn} = ∅ := by
        simp [usableFrames]
      rw [hempty]
      exact .refl _
  | cons e es ih =>
      have ih := @ih (fun e' he' => haligned e' (List.mem_cons_of_mem _ he'))
        (fun e' he' => hbound e' (List.mem_cons_of_mem _ he'))
      rw [seedEntries] at h
      split at h
      next husable =>
        obtain ⟨hstart, hlen⟩ := haligned e List.mem_cons_self husable
        obtain ⟨hup, hdown⟩ := entry_bounds hstart hlen (hbound e List.mem_cons_self husable)
        simp only [hup, hdown] at h
        obtain ⟨s₁, hs₁, hrest⟩ := Option.bind_eq_some_iff.mp h
        have hfirst := Seeded.of_seedRegion hphys hend (Nat.dvd_add hstart hlen) _ (by
          split
          · decide
          · exact hstart) (by split <;> omega) (Nat.lt_succ_self _) hs₁
        -- the frames of this entry and those of the entries that follow
        have hall := hfirst.trans (ih hrest)
        rw [region_entry] at hall
        convert hall using 1
        ext f
        simp only [usableFrames, List.mem_cons, Set.mem_union, Set.mem_ofPred_eq]
        constructor
        · rintro ⟨⟨⟨e', rfl | he', husable', hf⟩, hlow, hout⟩, hpool⟩
          · exact Or.inl ⟨hf, hlow, hpool, hout⟩
          · exact Or.inr ⟨⟨⟨e', he', husable', hf⟩, hlow, hout⟩, hpool⟩
        · rintro (⟨hf, hlow, hpool, hout⟩ | ⟨⟨⟨e', he', husable', hf⟩, hlow, hout⟩, hpool⟩)
          · exact ⟨⟨⟨e, Or.inl rfl, husable, hf⟩, hlow, hout⟩, hpool⟩
          · exact ⟨⟨⟨e', Or.inr he', husable', hf⟩, hlow, hout⟩, hpool⟩
      next husable =>
        have hall := ih h
        convert hall using 1
        ext f
        simp only [usableFrames, List.mem_cons, Set.mem_ofPred_eq]
        constructor
        · rintro ⟨⟨⟨e', rfl | he', husable', hf⟩, hrest⟩, hpool⟩
          · exact absurd husable' husable
          · exact ⟨⟨⟨e', he', husable', hf⟩, hrest⟩, hpool⟩
        · rintro ⟨⟨⟨e', he', husable', hf⟩, hrest⟩, hpool⟩
          exact ⟨⟨⟨e', Or.inr he', husable', hf⟩, hrest⟩, hpool⟩

/-! ### `pmm_init`

The frames on the lists are those of the usable entries above one megabyte, below the pool and
outside the page array. -/

/-- The page array lies inside a usable entry, from 1 MiB on. -/
theorem findArray_spec {arraySize : ℕ} (es : List MmapEntry)
    (haligned : ∀ e ∈ es, e.type = .usable →
      pageSize ∣ e.physStart.toNat ∧ pageSize ∣ e.length.toNat)
    (hbound : ∀ e ∈ es, e.type = .usable → e.physStart.toNat + e.length.toNat < 2 ^ 64)
    (hne : findArray arraySize es ≠ 0) : findArray arraySize es + arraySize < 2 ^ 64 := by
  induction es with
  | nil => exact absurd rfl hne
  | cons e es ih =>
      have ih := ih (fun e' he' => haligned e' (List.mem_cons_of_mem _ he'))
        (fun e' he' => hbound e' (List.mem_cons_of_mem _ he'))
      rw [findArray] at hne ⊢
      split at hne
      next husable =>
        rw [if_pos husable]
        obtain ⟨hstart, hlen⟩ := haligned e List.mem_cons_self husable
        have hend := hbound e List.mem_cons_self husable
        have hstop : alignUp (wrap64 (e.physStart.toNat + e.length.toNat)) =
            e.physStart.toNat + e.length.toNat := by
          rw [wrap64, Nat.mod_eq_of_lt hend]
          exact alignUp_of_dvd (Nat.dvd_add hstart hlen) hend
        simp only [hstop] at hne ⊢
        -- the entry is taken if the array fits behind its start
        generalize (if alignUp e.physStart.toNat < lowMemory then lowMemory
          else alignUp e.physStart.toNat) = start at hne ⊢
        split at hne
        next hfits =>
          rw [if_pos hfits]
          omega
        next hfits =>
          rw [if_neg hfits]
          exact ih hne
      next husable =>
        rw [if_neg husable]
        exact ih hne

/-- The frames on the free lists, and the flags, after `pmm_init`. -/
theorem covered_pmmInit {info : MmapInfo} (hwf : info.WellFormed)
    (hbound : ∀ e ∈ info.entries, e.type = .usable → e.physStart.toNat + e.length.toNat < 2 ^ 64)
    {beyond : ℕ → Bool} {s : Pmm} (hinit : pmmInit info beyond = some (some s)) :
    covered s.freeList = {f | f ∈ usableFrames info.entries s.memMapPhys
      (s.memMapPhys + s.memMapSize) ∧ f < pmmPoolStartPfn} ∧
    s.Flagged (s.memMapSize / sizeofPage) beyond ∧
    s.memMapPhys + s.memMapSize < 2 ^ 64 ∧ s.totalPages ≤ s.memMapSize / sizeofPage := by
  unfold pmmInit at hinit
  simp only at hinit
  split at hinit
  next => cases hinit
  next hne =>
    obtain ⟨s', hs', hret⟩ := Option.bind_eq_some_iff.mp hinit
    cases hret
    have hseeded := Seeded.of_seedEntries (dvd_findArray _ _)
      ((Nat.dvd_add_right (dvd_findArray _ _)).mpr (dvd_alignUp _)) info.entries hwf.aligned
      hbound hs'
    rw [hseeded.memMapPhys, hseeded.memMapSize, hseeded.totalPages]
    refine ⟨?_, ?_, ?_, ?_⟩
    · rw [hseeded.covered]
      simp [covered, blank, ListStore.empty]
    · refine hseeded.flagged _ _ fun f => ?_
      simp [blank, ListStore.empty]
    · exact findArray_spec info.entries hwf.aligned hbound hne
    -- a 64-bit address has a page number below `2 ^ 52`
    · have hpages : alignUp info.maxPhysAddr.toNat / pageSize ≤ 2 ^ 52 := by
        simp only [alignUp, wrap64, pageSize]
        omega
      show alignUp info.maxPhysAddr.toNat / pageSize ≤
        alignUp (alignUp info.maxPhysAddr.toNat / pageSize * sizeofPage) / sizeofPage
      generalize alignUp info.maxPhysAddr.toNat / pageSize = n at *
      simp only [alignUp, wrap64, pageSize, sizeofPage]
      omega

/-! ### The pool

What the test of the bitmap says, in the same terms. -/

/-- What `pmm_frame_in_pool` asks of an entry. The end of the page must not wrap. -/
theorem entryHolds_iff {e : MmapEntry} (halign : e.type = .usable →
      pageSize ∣ e.physStart.toNat ∧ pageSize ∣ e.length.toNat)
    (hbound : e.type = .usable → e.physStart.toNat + e.length.toNat < 2 ^ 64) {f : ℕ}
    (hf : f + 1 < 2 ^ 52) (hlow : lowMemory ≤ f * pageSize) :
    entryHolds (f * pageSize) e = true ↔ e.type = .usable ∧ f ∈ e.frames := by
  unfold entryHolds
  by_cases husable : e.type = .usable
  · obtain ⟨hstart, hlen⟩ := halign husable
    obtain ⟨hup, hdown⟩ := entry_bounds hstart hlen (hbound husable)
    obtain ⟨a, ha⟩ := hstart
    obtain ⟨b, hb⟩ := hlen
    -- the end of the frame does not wrap around
    have hwrap : wrap64 (f * pageSize + pageSize) = f * pageSize + pageSize := by
      rw [wrap64, Nat.mod_eq_of_lt]
      simp only [pageSize]
      omega
    simp only [hup, hdown, hwrap, husable, ne_eq, not_true_eq_false, if_false, true_and]
    simp only [MmapEntry.frames, MmapEntry.bytes, Set.mem_ofPred_eq, Set.mem_Ico, ha, hb]
    obtain ⟨start, hmax⟩ : ∃ start, start =
      (if pageSize * a < lowMemory then lowMemory else pageSize * a) := ⟨_, rfl⟩
    have hstart : pageSize * a ≤ f * pageSize ↔ start ≤ f * pageSize := by
      rw [hmax]
      split <;> omega
    rw [← hmax, hstart]
    -- an entry that ends below one megabyte holds no frame
    by_cases hempty : pageSize * a + pageSize * b ≤ start
    · rw [if_pos hempty]
      simp only [Bool.false_eq_true, false_iff]
      omega
    · rw [if_neg hempty, decide_eq_true_iff]
      simp only [pageSize]
      omega
  · simp [husable]

/-- The frames that `pmm_frame_in_pool` accepts. -/
theorem pmmFrameInPool_iff {info : MmapInfo} (hwf : info.WellFormed)
    (hbound : ∀ e ∈ info.entries, e.type = .usable → e.physStart.toNat + e.length.toNat < 2 ^ 64)
    {s : Pmm} (harray : s.memMapPhys + s.memMapSize < 2 ^ 64) {f : ℕ} (hf : f + 1 < 2 ^ 52) :
    s.pmmFrameInPool info f = true ↔
      f ∈ usableFrames info.entries s.memMapPhys (s.memMapPhys + s.memMapSize) ∧
        pmmPoolStartPfn ≤ f := by
  -- no address that is computed wraps around
  have hphys : wrap64 (pfnToPhys f) = f * pageSize := by
    rw [wrap64, pfnToPhys, Nat.shiftLeft_eq, Nat.mod_eq_of_lt]
    · rfl
    · simp only [pageShift]
      omega
  have hend : wrap64 (s.memMapPhys + s.memMapSize) = s.memMapPhys + s.memMapSize :=
    Nat.mod_eq_of_lt harray
  unfold pmmFrameInPool
  simp only [hphys, hend]
  split
  next hlt =>
    simp only [Bool.false_eq_true, false_iff]
    rintro ⟨-, hpool⟩
    omega
  next hpool =>
    split
    next hlow =>
      simp only [Bool.false_eq_true, false_iff]
      rintro ⟨⟨-, hlow', -⟩, -⟩
      omega
    next hlow =>
      split
      next hin =>
        simp only [Bool.false_eq_true, false_iff]
        rintro ⟨⟨-, -, hout⟩, -⟩
        exact hout hin
      next hout =>
        rw [List.any_eq_true]
        constructor
        · rintro ⟨e, he, hholds⟩
          rw [entryHolds_iff (hwf.aligned e he) (hbound e he) hf (not_lt.mp hlow)] at hholds
          exact ⟨⟨⟨e, he, hholds⟩, not_lt.mp hlow, hout⟩, not_lt.mp hpool⟩
        · rintro ⟨⟨⟨e, he, hholds⟩, -, -⟩, -⟩
          refine ⟨e, he, ?_⟩
          rwa [entryHolds_iff (hwf.aligned e he) (hbound e he) hf (not_lt.mp hlow)]

/-- The bits that the loop of `grant_pool_build` sets. -/
theorem getLsbD_markPool (inPool : ℕ → Bool) (frames : ℕ) (bits : Bitmap) (f : ℕ) :
    (markPool inPool frames bits (f / 8)).getLsbD (f % 8) =
      ((bits (f / 8)).getLsbD (f % 8) || (decide (f < frames) && inPool f)) := by
  induction frames with
  | zero => simp [markPool]
  | succ n ih =>
      have hstep : markPool inPool (n + 1) bits = (if inPool n then
          Function.update (markPool inPool n bits) (n / 8)
            (markPool inPool n bits (n / 8) ||| 1#8 <<< (n % 8))
          else markPool inPool n bits) := by
        rw [markPool, List.range_succ, List.foldl_append]
        rfl
      rw [hstep]
      by_cases hn : inPool n
      · rw [if_pos hn]
        by_cases hword : f / 8 = n / 8
        · rw [hword, Function.update_self, BitVec.getLsbD_or, ← hword, ih, Bool.or_assoc]
          congr 1
          -- the bit is the one that is set only for the frame itself
          by_cases hfn : f = n
          · subst hfn
            have hlt := Nat.mod_lt f (by decide : 0 < 8)
            simp [hn, hlt]
          · have hbit : f % 8 ≠ n % 8 := by omega
            have hone : (1#8 <<< (n % 8)).getLsbD (f % 8) = false := by
              simp only [BitVec.getLsbD_shiftLeft, BitVec.getLsbD_one]
              grind
            have hiff : f < n + 1 ↔ f < n := by omega
            simp [hone, hiff]
        · have hfn : f < n + 1 ↔ f < n := by
            constructor
            · intro h
              by_contra hge
              exact hword (by rw [show f = n by omega])
            · omega
          rw [Function.update_of_ne hword, ih]
          simp [hfn]
      · rw [if_neg hn, ih]
        by_cases hfn : f = n
        · subst hfn
          simp [hn]
        · have hiff : f < n + 1 ↔ f < n := by omega
          simp [hiff]

/-- `grant_pool_test` reads a bit. -/
theorem grantPoolTest_eq (info : MmapInfo) (bits : Bitmap) (f : ℕ) :
    grantPoolTest info bits f =
      (decide (f < grantFrames info) && (bits (f / 8)).getLsbD (f % 8)) := by
  rw [grantPoolTest]
  split
  next hge => simp [not_lt.mpr hge]
  next hlt =>
    rw [not_le] at hlt
    simp only [hlt, decide_true, Bool.true_and]
    rw [BitVec.and_one_eq_setWidth_ofBool_getLsbD, BitVec.getLsbD_ushiftRight, Nat.add_zero]
    cases (bits (f / 8)).getLsbD (f % 8) <;> rfl

/-- The bitmap fits into the block that is allocated for it. -/
theorem le_two_pow_allocOrderLoop (pages left order : ℕ) (h : pages ≤ 2 ^ (order + left)) :
    pages ≤ 2 ^ allocOrderLoop pages left order := by
  induction left generalizing order with
  | zero => exact h
  | succ left ih =>
      rw [allocOrderLoop]
      split
      next => exact ih (order + 1) (by rwa [show order + 1 + left = order + (left + 1) by omega])
      next hle => exact not_lt.mp hle

/-- The block of the order chosen for a size has room for it. -/
theorem lt_two_pow_allocOrder {bytes i : ℕ} (hbytes : bytes ≤ 2 ^ 50) (hi : i < bytes) :
    i < 2 ^ (allocOrder bytes + pageShift) := by
  have hwrap : wrap64 (bytes + pageSize - 1) >>> pageShift = (bytes + 4095) / 4096 := by
    rw [wrap64, Nat.shiftRight_eq_div_pow, Nat.mod_eq_of_lt]
    · rfl
    · simp only [pageSize]
      omega
  have hpages := le_two_pow_allocOrderLoop ((bytes + 4095) / 4096) 64 0 (by omega)
  rw [← hwrap] at hpages
  change wrap64 (bytes + pageSize - 1) >>> pageShift ≤ 2 ^ allocOrder bytes at hpages
  rw [hwrap] at hpages
  rw [pow_add]
  simp only [pageShift]
  omega

/-- The bitmap that `grant_pool_build` leaves. -/
theorem grantPoolTest_of_build {info : MmapInfo} {s s' : Pmm} {old bits : Bitmap}
    (h : s.grantPoolBuild info old = some (some bits, s')) (f : ℕ) :
    grantPoolTest info bits f =
      (decide (f < grantFrames info) && s'.pmmFrameInPool info f) := by
  unfold grantPoolBuild at h
  obtain ⟨⟨addr, s₁⟩, -, hret⟩ := Option.bind_eq_some_iff.mp h
  cases addr with
  | none => cases hret
  | some addr =>
      simp only [Option.pure_def, Option.some.injEq, Prod.mk.injEq] at hret
      obtain ⟨rfl, rfl⟩ := hret
      rw [grantPoolTest_eq, getLsbD_markPool]
      -- the buffer has a bit for every frame below the bound, and the test is false above
      by_cases hf : f < grantFrames info
      · have hframes : grantFrames info ≤ 2 ^ 52 := by
          have hlt := info.maxPhysAddr.isLt
          rw [grantFrames, Nat.shiftRight_eq_div_pow]
          simp only [pageShift]
          omega
        have hlt : f / 8 < 2 ^ (allocOrder ((grantFrames info + 7) / 8) + pageShift) :=
          lt_two_pow_allocOrder (by omega) (by omega)
        simp [hf, hlt]
      · simp [hf]

/-! ### Calls of the allocator

Building the bitmap calls the allocator, which does not move the page array. -/

/-- The allocator has the same page array. -/
def SameArray (s s' : Pmm) : Prop :=
  s'.memMapPhys = s.memMapPhys ∧ s'.memMapSize = s.memMapSize

/-- The array is the same after two steps when each keeps it. -/
theorem SameArray.trans {s s' s'' : Pmm} (h : s.SameArray s') (h' : s'.SameArray s'') :
    s.SameArray s'' :=
  ⟨h'.1.trans h.1, h'.2.trans h.2⟩

/-- Splitting a block keeps the array of frames. -/
theorem sameArray_splitLoop {s s' : Pmm} {pfn order : ℕ} (left : ℕ)
    (h : s.splitLoop pfn order left = some s') : s.SameArray s' := by
  induction left generalizing s with
  | zero =>
      cases h
      exact ⟨rfl, rfl⟩
  | succ left ih =>
      obtain ⟨lists, -, hrest⟩ := Option.bind_eq_some_iff.mp h
      have hsame := ih hrest
      exact ⟨hsame.1, hsame.2⟩

/-- So does the search for a block, by induction on the orders left. -/
theorem sameArray_allocScan {s s' : Pmm} {order : ℕ} {addr : Option ℕ} (left curr : ℕ)
    (h : s.allocScan order left curr = some (addr, s')) : s.SameArray s' := by
  induction left generalizing curr with
  | zero =>
      cases h
      exact ⟨rfl, rfl⟩
  | succ left ih =>
      rw [allocScan] at h
      split at h
      next => exact ih (curr + 1) h
      -- only the splitting touches the lists; the page array stays where it is
      next pfn _ _ =>
        obtain ⟨lists, -, htake⟩ := Option.bind_eq_some_iff.mp h
        obtain ⟨s₁, hs₁, hret⟩ := Option.bind_eq_some_iff.mp htake
        cases hret
        have hsame := sameArray_splitLoop _ hs₁
        exact ⟨hsame.1, hsame.2⟩

/-- So does `pmm_alloc_pages`. -/
theorem sameArray_pmmAllocPages {s s' : Pmm} {order : ℤ} {addr : Option ℕ}
    (h : s.pmmAllocPages order = some (addr, s')) : s.SameArray s' := by
  rw [pmmAllocPages] at h
  split at h
  · cases h
    exact ⟨rfl, rfl⟩
  · exact sameArray_allocScan _ _ h

/-- So does merging buddies. -/
theorem sameArray_coalesce {s s' : Pmm} {pfn curr pfn' curr' : ℕ} (left : ℕ)
    (h : s.coalesce pfn curr left = some (s', pfn', curr')) : s.SameArray s' := by
  induction left generalizing s pfn curr with
  | zero =>
      cases h
      exact ⟨rfl, rfl⟩
  | succ left ih =>
      rw [coalesce] at h
      split at h
      · cases h
        exact ⟨rfl, rfl⟩
      · obtain ⟨lists, -, hrest⟩ := Option.bind_eq_some_iff.mp h
        have hsame := ih hrest
        exact ⟨hsame.1, hsame.2⟩

/-- So does `pmm_free_pages`. -/
theorem sameArray_pmmFreePages {s s' : Pmm} {addr : ℕ} {order : ℤ}
    (h : s.pmmFreePages addr order = some s') : s.SameArray s' := by
  rw [pmmFreePages] at h
  split at h
  · cases h
    exact ⟨rfl, rfl⟩
  · obtain ⟨⟨s₁, pfn, curr⟩, hs₁, hrest⟩ := Option.bind_eq_some_iff.mp h
    obtain ⟨lists, -, hret⟩ := Option.bind_eq_some_iff.mp hrest
    cases hret
    exact SameArray.trans (sameArray_coalesce _ hs₁) ⟨rfl, rfl⟩

/-- No call changes the page array. -/
theorem sameArray_of_run {cond : Pmm → Block → Prop} {s₀ s : Pmm} {A : Finset Block}
    (h : Run cond s₀ s A) : s₀.SameArray s := by
  induction h with
  | init => exact ⟨rfl, rfl⟩
  | allocNull _ hcall ih => exact ih.trans (sameArray_pmmAllocPages hcall)
  | alloc _ hcall ih => exact ih.trans (sameArray_pmmAllocPages hcall)
  | free _ _ _ hcall ih => exact ih.trans (sameArray_pmmFreePages hcall)

/-- Nor does building the pool of the grants. -/
theorem sameArray_grantPoolBuild {info : MmapInfo} {s s' : Pmm} {old : Bitmap}
    {bits : Option Bitmap} (h : s.grantPoolBuild info old = some (bits, s')) : s.SameArray s' := by
  unfold grantPoolBuild at h
  obtain ⟨⟨addr, s₁⟩, hs₁, hret⟩ := Option.bind_eq_some_iff.mp h
  cases addr with
  | none =>
      cases hret
      exact sameArray_pmmAllocPages hs₁
  | some addr =>
      cases hret
      exact sameArray_pmmAllocPages hs₁

/-! ### The partition

The two halves put together, with the frames counted block by block. -/

/-- The blocks of a tiling are disjoint, so their frames can be counted block by block. -/
theorem ncard_covered {lists : ListStore ℕ ℕ} {count : ℕ → U64} (h : Tiling lists count ∅) :
    (covered lists).ncard = listed lists := by
  -- two blocks on lists share no frame
  have hdisj : ∀ {p o p' o'}, lists.home p = some o → lists.home p' = some o' → p ≠ p' →
      Disjoint (Finset.Ico p (p + 2 ^ o)) (Finset.Ico p' (p' + 2 ^ o')) := by
    intro p o p' o' hp hp' hne
    rw [Finset.disjoint_left]
    intro f hf hf'
    have heq := h.eq_of_mem_frames (x := (true, ⟨p, o⟩)) (y := (true, ⟨p', o'⟩)) (by simpa using hp)
      (by simpa using hp') (Finset.mem_Ico.mp hf) (Finset.mem_Ico.mp hf')
    simp only [Prod.mk.injEq, Block.mk.injEq, true_and] at heq
    exact hne heq.1
  have hhome : ∀ {p o}, p ∈ (lists.queue o).toFinset → lists.home p = some o :=
    fun hp => ListStore.home_of_mem (List.mem_toFinset.mp hp)
  have hcovered : covered lists = ((Finset.range maxBuddyOrder).biUnion fun o =>
      (lists.queue o).toFinset.biUnion fun p => Finset.Ico p (p + 2 ^ o) : Finset ℕ) := by
    ext f
    simp only [covered, Set.mem_ofPred_eq, Finset.coe_biUnion, Set.mem_iUnion, Finset.mem_coe,
      Finset.mem_range, List.mem_toFinset, Finset.coe_Ico, exists_prop]
    constructor
    · rintro ⟨b, hb, hf⟩
      have hplaced := h.placed (true, b) (by simpa using hb)
      exact ⟨b.order, hplaced.order_lt, b.base, (lists.mem_queue _ _).mpr hb, hf⟩
    · rintro ⟨o, -, p, hp, hf⟩
      exact ⟨⟨p, o⟩, ListStore.home_of_mem hp, hf⟩
  -- so the numbers of frames add up, over the orders and over each list
  rw [hcovered, Set.ncard_coe_finset, Finset.card_biUnion]
  · apply Finset.sum_congr rfl
    intro o _
    rw [Finset.card_biUnion fun p hp p' hp' hne => hdisj (hhome hp) (hhome hp') hne]
    simp [List.toFinset_card_of_nodup (lists.nodup o)]
  · intro o _ o' _ hne
    rw [Function.onFun, Finset.disjoint_biUnion_left]
    intro p hp
    rw [Finset.disjoint_biUnion_right]
    intro p' hp'
    apply hdisj (hhome hp) (hhome hp')
    rintro rfl
    exact hne (Option.some.inj ((hhome hp).symm.trans (hhome hp')))

/-- `pmm_init` and `pmm_frame_in_pool` divide the usable frames between them, and the bitmap of the
pool holds the frames of the latter. -/
theorem boot_partition {info : MmapInfo} (hwf : info.WellFormed)
    (hmax : ∀ e ∈ info.entries, e.type = .usable →
      e.physStart.toNat + e.length.toNat ≤ info.maxPhysAddr.toNat)
    {beyond : ℕ → Bool} {s : Pmm} (hinit : pmmInit info beyond = some (some s)) :
    let usable := usableFrames info.entries s.memMapPhys (s.memMapPhys + s.memMapSize)
    -- the frames below the pool are on the free lists, each in one block
    (∀ f, f ∈ usable → f < pmmPoolStartPfn → ∃! b, s.FreeBlock b ∧ f ∈ b.frames) ∧
    (∀ f b, s.FreeBlock b → f ∈ b.frames → f ∈ usable ∧ f < pmmPoolStartPfn) ∧
    -- the others are in the pool
    (∀ f, f + 1 < 2 ^ 52 →
      (s.pmmFrameInPool info f = true ↔ f ∈ usable ∧ pmmPoolStartPfn ≤ f)) ∧
    (∀ b, s.FreeBlock b → b.Aligned) ∧
    (∀ b, s.FreeBlock b → s.isFree b.base = true) ∧
    (∀ f < s.totalPages, s.isFree f = true → ∃ o, s.FreeBlock ⟨f, o⟩) ∧
    s.freePages.toNat = {f | ∃ b, s.FreeBlock b ∧ f ∈ b.frames}.ncard ∧
    ∀ cond s₁ A old bits s₂, Run cond s s₁ A →
      s₁.grantPoolBuild info old = some (some bits, s₂) →
      ∀ f, f + 1 < 2 ^ 52 →
        (grantPoolTest info bits f = true ↔ s.pmmFrameInPool info f = true) := by
  have hbound : ∀ e ∈ info.entries, e.type = .usable →
      e.physStart.toNat + e.length.toNat < 2 ^ 64 := fun e he husable =>
    lt_of_le_of_lt (hmax e he husable) info.maxPhysAddr.isLt
  obtain ⟨hcovered, hflagged, harray, hentries⟩ := covered_pmmInit hwf hbound hinit
  have hinv : s.Inv ∅ := by
    rcases pmmInit_spec hwf beyond with hnone | ⟨s', hs', hinv⟩
    · rw [hnone] at hinit
      cases hinit
    · rw [hs'] at hinit
      cases hinit
      exact hinv
  have hfree : ∀ b, s.FreeBlock b ↔ s.freeList.home b.base = some b.order := by
    intro b
    refine ⟨fun hb => ListStore.home_of_mem hb.2, fun hb => ⟨?_, ?_⟩⟩
    · exact (hinv.tiling.placed (true, b) (by simpa using hb)).order_lt
    · exact (s.freeList.mem_queue _ _).mpr hb
  have hmem : ∀ f, (∃ b, s.FreeBlock b ∧ f ∈ b.frames) ↔ f ∈ covered s.freeList := by
    intro f
    simp only [covered, hfree, Set.mem_ofPred_eq]
  have hpool : ∀ f, f + 1 < 2 ^ 52 → (s.pmmFrameInPool info f = true ↔
      f ∈ usableFrames info.entries s.memMapPhys (s.memMapPhys + s.memMapSize) ∧
        pmmPoolStartPfn ≤ f) := fun f hf => pmmFrameInPool_iff hwf hbound harray hf
  refine ⟨fun f hf hlt => ?_, fun f b hb hf => ?_, hpool, hinv.safe.free_aligned, fun b hb => ?_,
    fun f hf hflag => ?_, ?_, fun cond s₁ A old bits s₂ hrun hbuild f hf => ?_⟩
  · obtain ⟨b, hb, hfb⟩ := (hmem f).mpr (by rw [hcovered]; exact ⟨hf, hlt⟩)
    refine ⟨b, ⟨hb, hfb⟩, fun b' ⟨hb', hfb'⟩ => ?_⟩
    have heq := hinv.tiling.eq_of_mem_frames (x := (true, b')) (y := (true, b))
      (by simpa using (hfree b').mp hb') (by simpa using (hfree b).mp hb) hfb' hfb
    exact congrArg Prod.snd heq
  · have hin := (hmem f).mp ⟨b, hb, hf⟩
    rw [hcovered] at hin
    exact hin
  · rw [hflagged b.base, (hfree b).mp hb]
    rfl
  · rw [hflagged f, if_pos (lt_of_lt_of_le hf hentries), Bool.or_false] at hflag
    obtain ⟨o, ho⟩ := Option.isSome_iff_exists.mp hflag
    exact ⟨o, (hfree ⟨f, o⟩).mpr ho⟩
  · have hset : {f | ∃ b, s.FreeBlock b ∧ f ∈ b.frames} = covered s.freeList := Set.ext hmem
    rw [hset, ncard_covered hinv.tiling, hinv.pages_eq, BitVec.toNat_ofNat,
      Nat.mod_eq_of_lt hinv.tiling.listed_lt]
  · have hsame := (sameArray_of_run hrun).trans (sameArray_grantPoolBuild hbuild)
    have hsame' : s₂.pmmFrameInPool info f = s.pmmFrameInPool info f := by
      rw [pmmFrameInPool, hsame.1, hsame.2]
      rfl
    rw [grantPoolTest_of_build hbuild, hsame', Bool.and_eq_true, decide_eq_true_iff]
    apply and_iff_right_of_imp
    intro hin
    -- a frame of the pool is in an entry, and thus below `max_phys_addr`
    obtain ⟨⟨⟨e, he, husable, hfe⟩, -⟩, -⟩ := (hpool f hf).mp hin
    have hle := hmax e he husable
    have hlt : f * pageSize < e.physStart.toNat + e.length.toNat := hfe.2
    rw [grantFrames, Nat.shiftRight_eq_div_pow]
    simp only [pageSize, pageShift] at *
    omega

/-- The memory of the example ends where its map says. -/
theorem sixteenFrames_le_max : ∀ e ∈ sixteenFrames.entries, e.type = .usable →
    e.physStart.toNat + e.length.toNat ≤ sixteenFrames.maxPhysAddr.toNat := by
  decide

/-- The frame `0x105` is in one block of the free lists. -/
theorem boot_partition_sixteenFrames : ∃ s, pmmInit sixteenFrames (fun _ => false) = some (some s) ∧
    ∃! b, s.FreeBlock b ∧ 0x105 ∈ b.frames := by
  have hcheck : ((pmmInit sixteenFrames fun _ => false).any fun r => r.any fun s =>
      s.memMapPhys + s.memMapSize = 0x102000) = true := by
    decide +kernel
  obtain ⟨r, hr, hreturned⟩ := (Option.any_eq_true _ _).mp hcheck
  obtain ⟨s, rfl, hend⟩ := (Option.any_eq_true _ _).mp hreturned
  refine ⟨s, hr, (boot_partition sixteenFrames_wellFormed sixteenFrames_le_max hr).1 0x105 ?_
    (by decide)⟩
  refine ⟨⟨⟨0x100000, 0x10000, .usable⟩, List.mem_singleton_self _, rfl, ?_⟩, by decide, ?_⟩
  · exact ⟨by decide, by decide⟩
  · rw [of_decide_eq_true hend]
    exact fun hin => absurd hin.2 (by decide)

/-- The frame at the end of the address space is in no entry, but `pmm_frame_in_pool` accepts it. -/
theorem last_frame_in_pool : ∃ s, sixteenFrames.WellFormed ∧
    (∀ e ∈ sixteenFrames.entries, e.type = .usable →
      e.physStart.toNat + e.length.toNat ≤ sixteenFrames.maxPhysAddr.toNat) ∧
    pmmInit sixteenFrames (fun _ => false) = some (some s) ∧
    s.pmmFrameInPool sixteenFrames (2 ^ 52 - 1) = true ∧
    2 ^ 52 - 1 ∉ usableFrames sixteenFrames.entries s.memMapPhys (s.memMapPhys + s.memMapSize) := by
  have hcheck : ((pmmInit sixteenFrames fun _ => false).any fun r => r.any fun s =>
      s.pmmFrameInPool sixteenFrames (2 ^ 52 - 1)) = true := by
    decide +kernel
  obtain ⟨r, hr, hreturned⟩ := (Option.any_eq_true _ _).mp hcheck
  obtain ⟨s, rfl, hpool⟩ := (Option.any_eq_true _ _).mp hreturned
  refine ⟨s, sixteenFrames_wellFormed, sixteenFrames_le_max, hr, hpool, ?_⟩
  rintro ⟨⟨e, he, -, -, hlt⟩, -⟩
  rw [List.mem_singleton.mp he] at hlt
  exact absurd hlt (by decide)

end Pmm

end Koharu
