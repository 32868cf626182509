import Koharu.Mm.PmmInvariant
import Mathlib.Data.Fintype.Card

/-!
# Safety of the buddy allocator over whole runs

`Pmm.Run` is any sequence of allocations and releases from the state `pmm_init` builds, with the
set of blocks handed out and not given back; a release names one of them. `Pmm.Safe` is what the
allocator is for: no frame is in two blocks, whether allocated or free, and the counters are
right.

`safe_of_run` proves it for the runs in which every release is `Mergeable`.
`release_of_larger_neighbour` shows that the condition cannot be dropped: `pmm_free_pages` decides
from the buddy's flag alone, so a buddy that starts a smaller free block is absorbed as if it were
free as a whole, together with pages of it that are allocated.
-/

namespace Koharu

/-! ### The memory map

What the boot loader promises of the map; the allocator does not check it. -/

namespace MmapEntry

/-- The bytes of an entry. -/
def bytes (e : MmapEntry) : Set ℕ :=
  Set.Ico e.physStart.toNat (e.physStart.toNat + e.length.toNat)

/-- The frames that start inside an entry. -/
def frames (e : MmapEntry) : Set ℕ := {f | f * Pmm.pageSize ∈ e.bytes}

end MmapEntry

/-- The usable entries are page aligned and pairwise disjoint. -/
structure MmapInfo.WellFormed (info : MmapInfo) : Prop where
  aligned : ∀ e ∈ info.entries, e.type = .usable →
    Pmm.pageSize ∣ e.physStart.toNat ∧ Pmm.pageSize ∣ e.length.toNat
  disjoint : info.entries.Pairwise fun e e' =>
    e.type = .usable → e'.type = .usable → Disjoint e.bytes e'.bytes

namespace Pmm

/-! ### What the allocator is for

Safety in terms of blocks and frames, without the lists: what is allocated does not overlap, with
itself or with what is free. -/

/-- `b` is on the free list of its order. -/
def FreeBlock (s : Pmm) (b : Block) : Prop :=
  b.order < maxBuddyOrder ∧ b.base ∈ s.freeList.queue b.order

/-- Nothing is in two blocks, and the counters are right, when the blocks `A` are allocated. -/
structure Safe (s : Pmm) (A : Finset Block) : Prop where
  allocated_disjoint : (A : Set Block).PairwiseDisjoint Block.frames
  allocated_not_free : ∀ a ∈ A, ∀ b, s.FreeBlock b → Disjoint a.frames b.frames
  free_disjoint : {b | s.FreeBlock b}.PairwiseDisjoint Block.frames
  free_aligned : ∀ b, s.FreeBlock b → b.Aligned
  count_eq : ∀ o < maxBuddyOrder, (s.freeCount o).toNat = (s.freeList.queue o).length
  pages_eq : s.freePages.toNat =
    ∑ o ∈ Finset.range maxBuddyOrder, (s.freeList.queue o).length * 2 ^ o

/-- Runs of the allocator: the states reached from `s₀` by calls of `pmm_alloc_pages` with any
order and of `pmm_free_pages` on an allocated block with its order, and the blocks allocated
then. Every release satisfies `cond` in the state it starts from. -/
inductive Run (cond : Pmm → Block → Prop) (s₀ : Pmm) : Pmm → Finset Block → Prop
  | init : Run cond s₀ s₀ ∅
  | allocNull {s s' : Pmm} {A : Finset Block} {order : ℤ} (hrun : Run cond s₀ s A)
      (hcall : s.pmmAllocPages order = some (none, s')) : Run cond s₀ s' A
  | alloc {s s' : Pmm} {A : Finset Block} {order : ℤ} {addr : ℕ} (hrun : Run cond s₀ s A)
      (hcall : s.pmmAllocPages order = some (some addr, s')) :
      Run cond s₀ s' (insert ⟨physToPfn addr, order.toNat⟩ A)
  | free {s s' : Pmm} {A : Finset Block} {b : Block} (hrun : Run cond s₀ s A) (hb : b ∈ A)
      (hcond : cond s b) (hcall : s.pmmFreePages (pfnToPhys b.base) b.order = some s') :
      Run cond s₀ s' (A.erase b)

/-- The tiling together with the counter of free frames. -/
structure Inv (s : Pmm) (A : Finset Block) : Prop where
  tiling : Tiling s.freeList s.freeCount A
  pages_eq : s.freePages = BitVec.ofNat 64 (listed s.freeList)

/-! ### The invariant implies safety

The counters are exact because the lists are shorter than their range. -/

/-- No list is longer than there are frames below the pool. -/
theorem Tiling.length_le {lists : ListStore ℕ ℕ} {count : ℕ → U64} {A : Finset Block}
    (h : Tiling lists count A) (o : ℕ) : (lists.queue o).length ≤ pmmPoolStartPfn := by
  have hsub : (lists.queue o).toFinset ⊆ Finset.range pmmPoolStartPfn := by
    intro p hp
    have hplaced := h.placed (true, ⟨p, o⟩) (by
      simpa using ListStore.home_of_mem (List.mem_toFinset.mp hp))
    have := hplaced.end_le
    have := Nat.two_pow_pos o
    simp only [Finset.mem_range]
    simp only at *
    omega
  have := Finset.card_le_card hsub
  rwa [List.toFinset_card_of_nodup (lists.nodup o), Finset.card_range] at this

/-- The number of listed frames fits a 64-bit counter. -/
theorem Tiling.listed_lt {lists : ListStore ℕ ℕ} {count : ℕ → U64} {A : Finset Block}
    (h : Tiling lists count A) : listed lists < 2 ^ 64 := by
  have hle : listed lists ≤ ∑ _o ∈ Finset.range maxBuddyOrder, pmmPoolStartPfn * 2 ^ 11 := by
    apply Finset.sum_le_sum
    intro o ho
    have : o < 11 := Finset.mem_range.mp ho
    exact Nat.mul_le_mul (h.length_le o) (Nat.pow_le_pow_right (by omega) (by omega))
  apply lt_of_le_of_lt hle
  simp [maxBuddyOrder, pmmPoolStartPfn]

theorem Inv.safe {s : Pmm} {A : Finset Block} (h : s.Inv A) : s.Safe A where
  allocated_disjoint a ha b hb hab := by
    exact h.tiling.disjoint (x := (false, a)) (y := (false, b)) (by simpa using ha)
      (by simpa using hb) (by simpa using hab)
  allocated_not_free a ha b hb := by
    exact h.tiling.disjoint (x := (false, a)) (y := (true, b)) (by simpa using ha)
      (by simpa using ListStore.home_of_mem hb.2) (by simp)
  free_disjoint a ha b hb hab := by
    exact h.tiling.disjoint (x := (true, a)) (y := (true, b))
      (by simpa using ListStore.home_of_mem ha.2) (by simpa using ListStore.home_of_mem hb.2)
      (by simpa using hab)
  free_aligned b hb :=
    (h.tiling.placed (true, b) (by simpa using ListStore.home_of_mem hb.2)).aligned
  count_eq o _ := by
    -- the counter cannot wrap: no list is longer than there are frames
    have := h.tiling.length_le o
    have hbound : pmmPoolStartPfn < 2 ^ 64 := by decide
    rw [h.tiling.count_eq, BitVec.toNat_ofNat, Nat.mod_eq_of_lt (by omega)]
  pages_eq := by
    rw [h.pages_eq, BitVec.toNat_ofNat, Nat.mod_eq_of_lt h.tiling.listed_lt]
    rfl

/-! ### Steps keep the invariant

The specifications of the calls, put together over a run. -/

/-- An allocation keeps the invariant, with the block returned added to the allocated ones. -/
theorem Inv.alloc {s : Pmm} {A : Finset Block} (h : s.Inv A) (order : ℤ) :
    s.pmmAllocPages order = some (none, s) ∨
      ∃ p s', s.pmmAllocPages order = some (some (pfnToPhys p), s') ∧
        (⟨p, order.toNat⟩ : Block) ∉ A ∧ s'.Inv (insert ⟨p, order.toNat⟩ A) := by
  rcases pmmAllocPages_spec order h.tiling with
    hnull | ⟨p, s', hcall, htiling, hnot, hlisted, hpages⟩
  · exact Or.inl hnull
  · refine Or.inr ⟨p, s', hcall, hnot, htiling, ?_⟩
    rw [hpages, h.pages_eq, ← hlisted, BitVec.ofNat_add]
    exact BitVec.add_sub_cancel _ _

/-- A release that meets no buddy of the wrong order keeps the invariant. -/
theorem Inv.free {s : Pmm} {A : Finset Block} (h : s.Inv A) {b : Block} (hb : b ∈ A)
    (hmerge : s.Mergeable b.base b.order) :
    ∃ s', s.pmmFreePages (pfnToPhys b.base) b.order = some s' ∧ s'.Inv (A.erase b) := by
  obtain ⟨s', hcall, htiling, hlisted, hpages⟩ := pmmFreePages_spec h.tiling hb hmerge
  refine ⟨s', hcall, htiling, ?_⟩
  rw [hpages, h.pages_eq, hlisted, BitVec.ofNat_add]

/-- Along a run whose releases meet no buddy of the wrong order, the invariant holds. -/
theorem Run.inv {s₀ s : Pmm} {A : Finset Block} (h₀ : s₀.Inv ∅)
    (hrun : Run (fun s b => s.Mergeable b.base b.order) s₀ s A) : s.Inv A := by
  induction hrun with
  | init => exact h₀
  | @allocNull s s' A order _ hcall ih =>
      -- the call has one result, so it is the one that the specification speaks of
      rcases ih.alloc order with hnull | ⟨p, s'', hcall', -⟩
      · rw [hnull] at hcall
        cases hcall
        exact ih
      · rw [hcall'] at hcall
        cases hcall
  | @alloc s s' A order addr _ hcall ih =>
      rcases ih.alloc order with hnull | ⟨p, s'', hcall', -, hinv⟩
      · rw [hnull] at hcall
        cases hcall
      · rw [hcall'] at hcall
        cases hcall
        rwa [physToPfn_pfnToPhys]
  | free _ hb hcond hcall ih =>
      obtain ⟨s'', hcall', hinv⟩ := ih.free hb hcond
      rw [hcall'] at hcall
      cases hcall
      exact hinv

/-! ### `pmm_init` builds a tiling

The blocks are seeded from left to right, so that a new block lies behind those before it. The
invariant says up to where the region has been cut. -/

/-- All free blocks lie inside `P`. -/
def Within (lists : ListStore ℕ ℕ) (P : Set ℕ) : Prop :=
  ∀ b : Block, lists.home b.base = some b.order → b.frames ⊆ P

/-- A block disjoint from all others can be put on a free list. -/
theorem Inv.seedBlock {s : Pmm} {P : Set ℕ} (h : s.Inv ∅) (hP : Within s.freeList P) {curr o : ℕ}
    (hplaced : WellPlaced ⟨physToPfn curr, o⟩)
    (hdisj : Disjoint P (⟨physToPfn curr, o⟩ : Block).frames) :
    ∃ s', s.seedBlock curr o = some s' ∧ s'.Inv ∅ ∧
      Within s'.freeList (P ∪ (⟨physToPfn curr, o⟩ : Block).frames) := by
  obtain ⟨p, hp⟩ : ∃ p, physToPfn curr = p := ⟨_, rfl⟩
  rw [hp] at hplaced hdisj ⊢
  -- first adopt the block as allocated, then give it to its list
  have hadopt : Tiling s.freeList s.freeCount (insert ⟨p, o⟩ ∅) := by
    refine ⟨?_, ?_, h.tiling.count_eq⟩
    · have hsub : owned s.freeList (insert ⟨p, o⟩ ∅) ⊆
          insert (false, ⟨p, o⟩) (owned s.freeList ∅) := by
        rintro ⟨tag, b⟩ hx
        cases tag <;> simp_all
      refine Set.PairwiseDisjoint.subset ?_ hsub
      rw [Set.pairwiseDisjoint_insert]
      refine ⟨h.tiling.disjoint, fun x hx _ => ?_⟩
      obtain ⟨tag, b⟩ := x
      cases tag with
      | true => exact (hdisj.mono_left (hP b (by simpa using hx))).symm
      | false => simp at hx
    · rintro ⟨tag, b⟩ hx
      cases tag with
      | true => exact h.tiling.placed (true, b) (by simpa using hx)
      | false =>
          obtain rfl : b = ⟨p, o⟩ := by simpa using hx
          exact hplaced
  obtain ⟨hfree, htiling, hlisted⟩ := Tiling.give hadopt (by simp)
  refine ⟨{ s with
    isFree := Function.update s.isFree p true
    freeList := s.freeList.snocAt p o hfree
    freeCount := Function.update s.freeCount o (s.freeCount o + 1)
    freePages := s.freePages + BitVec.ofNat 64 (2 ^ o) }, ?_, ⟨htiling, ?_⟩, ?_⟩
  · rw [Pmm.seedBlock, hp, ListStore.pushBack_eq_some o hfree]
    rfl
  · simp only [h.pages_eq, hlisted, BitVec.ofNat_add]
  · intro b hb
    rw [ListStore.snocAt_home] at hb
    by_cases hbase : b.base = p
    · rw [hbase, Function.update_self] at hb
      rw [← hbase, Option.some.inj hb]
      exact Set.subset_union_right
    · rw [Function.update_of_ne hbase] at hb
      exact (hP b hb).trans Set.subset_union_left

/-- The order chosen for a block fits the space left and the alignment of its address. -/
theorem targetOrder_spec {remain curr : ℕ} (hremain : pageSize ≤ remain)
    (hcurr : pageSize ∣ curr) (n : ℕ) :
    targetOrder remain curr n ≤ n ∧ 2 ^ (pageShift + targetOrder remain curr n) ≤ remain ∧
      2 ^ (pageShift + targetOrder remain curr n) ∣ curr := by
  induction n with
  | zero => exact ⟨le_rfl, hremain, hcurr⟩
  | succ n ih =>
      rw [targetOrder]
      split
      next hfit =>
        refine ⟨le_rfl, hfit.1, ?_⟩
        exact Nat.dvd_of_mod_eq_zero ((Nat.and_two_pow_sub_one_eq_mod curr _).symm.trans hfit.2)
      next => exact ⟨by omega, ih.2⟩

/-- The block the loop of `pmm_init` seeds at `curr` lies between `curr` and the limit, and below
the pool. -/
theorem wellPlaced_target {curr limit : ℕ} (hcurr : pageSize ∣ curr) (hlimit : pageSize ∣ limit)
    (hlow : lowMemory ≤ curr) (hlt : curr < limit) (hpool : limit ≤ pmmPoolStartPfn <<< pageShift) :
    let o := targetOrder (limit - curr) curr (maxBuddyOrder - 1)
    WellPlaced ⟨physToPfn curr, o⟩ ∧ physToPfn curr = curr / pageSize ∧
      (curr + 2 ^ (pageShift + o)) / pageSize = curr / pageSize + 2 ^ o ∧
      pageSize ∣ curr + 2 ^ (pageShift + o) ∧ curr + 2 ^ (pageShift + o) ≤ limit := by
  intro o
  -- in units of pages
  obtain ⟨a, rfl⟩ := hcurr
  obtain ⟨l, rfl⟩ := hlimit
  have hsize : (0 : ℕ) < pageSize := by decide
  have hal : a < l := Nat.lt_of_mul_lt_mul_left hlt
  have hremain : pageSize ≤ pageSize * l - pageSize * a := by
    rw [← Nat.mul_sub]
    exact Nat.le_mul_of_pos_right _ (by omega)
  obtain ⟨hle, hfit, hdvd⟩ :=
    targetOrder_spec hremain (Dvd.intro a rfl) (maxBuddyOrder - 1)
  have hpow : 2 ^ (pageShift + o) = pageSize * 2 ^ o := pow_add 2 pageShift o
  have hfit' : a + 2 ^ o ≤ l := by
    have : pageSize * 2 ^ o ≤ pageSize * (l - a) := by
      rw [← hpow, Nat.mul_sub]
      exact hfit
    have := Nat.le_of_mul_le_mul_left this hsize
    omega
  have hpfn : physToPfn (pageSize * a) = a := by
    rw [physToPfn, Nat.shiftRight_eq_div_pow]
    exact Nat.mul_div_cancel_left a hsize
  have hpool' : l ≤ pmmPoolStartPfn := by
    rw [Nat.shiftLeft_eq, Nat.mul_comm pmmPoolStartPfn] at hpool
    exact Nat.le_of_mul_le_mul_left hpool hsize
  have hdvd' : 2 ^ o ∣ a := Nat.dvd_of_mul_dvd_mul_left hsize (hpow ▸ hdvd)
  have hpos : 0 < a := Nat.pos_of_ne_zero fun hzero => by
    rw [hzero] at hlow
    exact absurd hlow (by decide)
  refine ⟨?_, ?_, ?_, ?_, ?_⟩
  · rw [hpfn]
    exact ⟨hdvd', lt_of_le_of_lt hle (by decide), hpos, hfit'.trans hpool'⟩
  · rw [hpfn, Nat.mul_div_cancel_left a hsize]
  · rw [hpow, ← Nat.mul_add, Nat.mul_div_cancel_left _ hsize, Nat.mul_div_cancel_left _ hsize]
  · exact ⟨a + 2 ^ o, by rw [hpow, Nat.mul_add]⟩
  · rw [hpow, ← Nat.mul_add]
    exact Nat.mul_le_mul_left _ hfit'

/-- The end of what the loop of `pmm_init` may tile from `curr` on: the end of the region, the page
array or the pool. -/
theorem limit_spec {arrayPhys stop curr limit : ℕ} (hphys : pageSize ∣ arrayPhys)
    (hstop : pageSize ∣ stop) (hlt : curr < stop) (hbelow : curr < pmmPoolStartPfn <<< pageShift)
    (hlimit : limit =
      (if (if curr < arrayPhys ∧ stop > arrayPhys then arrayPhys else stop) >
          pmmPoolStartPfn <<< pageShift then pmmPoolStartPfn <<< pageShift
        else if curr < arrayPhys ∧ stop > arrayPhys then arrayPhys else stop)) :
    pageSize ∣ limit ∧ curr < limit ∧ limit ≤ pmmPoolStartPfn <<< pageShift ∧ limit ≤ stop ∧
      (curr < arrayPhys → limit ≤ arrayPhys) := by
  have hpooldvd : pageSize ∣ pmmPoolStartPfn <<< pageShift := by decide
  rw [hlimit]
  split_ifs <;> refine ⟨by assumption, ?_, ?_, ?_, ?_⟩ <;> omega

/-- Seeding one region keeps the invariant, and puts new blocks only between the start of the
region and its end. -/
theorem Inv.seedRegion {P : Set ℕ} {arrayPhys arrayEnd stop lo : ℕ} (hphys : pageSize ∣ arrayPhys)
    (hend : pageSize ∣ arrayEnd) (hstop : pageSize ∣ stop)
    (hP : Disjoint P (Set.Ico lo (stop / pageSize))) (left : ℕ) {s : Pmm} {curr : ℕ}
    (h : s.Inv ∅) (hcurr : pageSize ∣ curr) (hlow : lowMemory ≤ curr)
    (hlo : lo ≤ curr / pageSize)
    (hwithin : Within s.freeList (P ∪ Set.Ico lo (min (curr / pageSize) (stop / pageSize)))) :
    ∃ s', s.seedRegion arrayPhys arrayEnd stop left curr = some s' ∧ s'.Inv ∅ ∧
      Within s'.freeList (P ∪ Set.Ico lo (stop / pageSize)) := by
  have hgrow : ∀ {lists : ListStore ℕ ℕ} {n : ℕ},
      Within lists (P ∪ Set.Ico lo (min n (stop / pageSize))) →
        Within lists (P ∪ Set.Ico lo (stop / pageSize)) := fun hw b hb =>
    (hw b hb).trans (Set.union_subset_union_right _
      (Set.Ico_subset_Ico_right (Nat.min_le_right _ _)))
  induction left generalizing s curr with
  | zero => exact ⟨s, rfl, h, hgrow hwithin⟩
  | succ left ih =>
      rw [Pmm.seedRegion]
      split
      next hlt =>
        split
        next => exact ⟨s, rfl, h, hgrow hwithin⟩
        next hbelow =>
          split
          next harray =>
            -- inside the page array: skip to its end
            have hmono : curr / pageSize ≤ arrayEnd / pageSize :=
              Nat.div_le_div_right harray.2.le
            apply ih h hend (by omega) (hlo.trans hmono)
            intro b hb
            exact (hwithin b hb).trans (Set.union_subset_union_right _
              (Set.Ico_subset_Ico_right (by omega)))
          next =>
            rw [not_le] at hbelow
            obtain ⟨limit, hlimit⟩ : ∃ limit, limit =
                (if (if curr < arrayPhys ∧ stop > arrayPhys then arrayPhys else stop) >
                    pmmPoolStartPfn <<< pageShift then pmmPoolStartPfn <<< pageShift
                  else if curr < arrayPhys ∧ stop > arrayPhys then arrayPhys else stop) := ⟨_, rfl⟩
            obtain ⟨hdvd, hcl, hpool, hls, -⟩ := limit_spec hphys hstop hlt hbelow hlimit
            obtain ⟨hplaced, hpfn, hdiv, hdvd', hle⟩ :=
              wellPlaced_target hcurr hdvd hlow hcl hpool
            simp only [← hlimit]
            generalize targetOrder (limit - curr) curr (maxBuddyOrder - 1) = o at *
            have hstopdiv := Nat.div_le_div_right (c := pageSize) (hle.trans hls)
            rw [hdiv] at hstopdiv
            have hpos := Nat.two_pow_pos o
            have hstep := Nat.two_pow_pos (pageShift + o)
            have hdisj : Disjoint (P ∪ Set.Ico lo (min (curr / pageSize) (stop / pageSize)))
                (⟨physToPfn curr, o⟩ : Block).frames := by
              rw [Set.disjoint_union_left]
              constructor
              · apply hP.mono_right
                intro f hf
                simp only [Block.mem_frames, hpfn] at hf
                exact ⟨by omega, by omega⟩
              · rw [Set.disjoint_left]
                intro f hf hf'
                simp only [Block.mem_frames, hpfn] at hf'
                have := hf.2
                omega
            obtain ⟨s', hs', hinv, hwithin'⟩ := h.seedBlock hwithin hplaced hdisj
            obtain ⟨s'', hs'', hinv', hwithin''⟩ := ih hinv hdvd' (by omega) (by omega)
              (fun b hb => by
                apply (hwithin' b hb).trans
                rw [Set.union_assoc]
                refine Set.union_subset_union_right _ (Set.union_subset ?_ ?_)
                · exact Set.Ico_subset_Ico_right (by omega)
                · intro f hf
                  simp only [Block.mem_frames, hpfn] at hf
                  exact ⟨by omega, by omega⟩)
            refine ⟨s'', ?_, hinv', hwithin''⟩
            rw [hs', Option.bind_eq_bind, Option.bind_some]
            exact hs''
      next => exact ⟨s, rfl, h, hgrow hwithin⟩

/-- An aligned address is its own round-up. -/
theorem alignUp_of_dvd {a : ℕ} (hdvd : pageSize ∣ a) (hlt : a < 2 ^ 64) : alignUp a = a := by
  simp only [alignUp, wrap64, pageSize] at *
  omega

theorem dvd_alignUp (a : ℕ) : pageSize ∣ alignUp a := Dvd.intro_left _ rfl

/-- The page array starts at a page boundary. -/
theorem dvd_findArray (arraySize : ℕ) (es : List MmapEntry) :
    pageSize ∣ findArray arraySize es := by
  induction es with
  | nil => exact dvd_zero _
  | cons e es ih =>
      -- the candidate is a multiple of the page size, whichever of the two it is
      have hstart : pageSize ∣ (if alignUp e.physStart.toNat < lowMemory then lowMemory
          else alignUp e.physStart.toNat) := by
        split
        · decide
        · exact dvd_alignUp _
      simp only [findArray]
      by_cases husable : e.type = .usable
      · rw [if_pos husable]
        by_cases hfits : alignUp (wrap64 (e.physStart.toNat + e.length.toNat)) >
              (if alignUp e.physStart.toNat < lowMemory then lowMemory
                else alignUp e.physStart.toNat) ∧
            alignUp (wrap64 (e.physStart.toNat + e.length.toNat)) -
              (if alignUp e.physStart.toNat < lowMemory then lowMemory
                else alignUp e.physStart.toNat) ≥ arraySize
        · rw [if_pos hfits]
          exact hstart
        · rw [if_neg hfits]
          exact ih
      · rw [if_neg husable]
        exact ih

/-- Seeding the usable entries keeps the invariant. -/
theorem Inv.seedEntries {arrayPhys arrayEnd : ℕ} (hphys : pageSize ∣ arrayPhys)
    (hend : pageSize ∣ arrayEnd) (es : List MmapEntry)
    (haligned : ∀ e ∈ es, e.type = .usable →
      pageSize ∣ e.physStart.toNat ∧ pageSize ∣ e.length.toNat)
    (hdisj : es.Pairwise fun e e' =>
      e.type = .usable → e'.type = .usable → Disjoint e.bytes e'.bytes)
    {s : Pmm} {P : Set ℕ} (h : s.Inv ∅) (hwithin : Within s.freeList P)
    (hP : ∀ e ∈ es, e.type = .usable → Disjoint P e.frames) :
    ∃ s', s.seedEntries arrayPhys arrayEnd es = some s' ∧ s'.Inv ∅ := by
  induction es generalizing s P with
  | nil => exact ⟨s, rfl, h⟩
  | cons e es ih =>
      have haligned' := fun e' he' => haligned e' (List.mem_cons_of_mem _ he')
      rw [List.pairwise_cons] at hdisj
      rw [Pmm.seedEntries]
      split
      next husable =>
        obtain ⟨hstart, hlen⟩ := haligned e List.mem_cons_self husable
        have hlt := e.physStart.isLt
        simp only [alignUp_of_dvd hstart hlt]
        -- where the loop starts and stops, rounded and kept out of low memory
        obtain ⟨curr, hcurr⟩ : ∃ curr, curr = (if e.physStart.toNat < lowMemory then lowMemory
          else e.physStart.toNat) := ⟨_, rfl⟩
        obtain ⟨stop, hstop⟩ : ∃ stop, stop =
          alignDown (wrap64 (e.physStart.toNat + e.length.toNat)) := ⟨_, rfl⟩
        rw [← hcurr, ← hstop]
        have hcurrdvd : pageSize ∣ curr := by
          rw [hcurr]
          split
          · decide
          · exact hstart
        have hcurrle : lowMemory ≤ curr ∧ e.physStart.toNat ≤ curr := by
          rw [hcurr]
          split <;> omega
        have hstopdvd : pageSize ∣ stop := hstop ▸ Dvd.intro_left _ rfl
        have hstople : stop ≤ e.physStart.toNat + e.length.toNat := by
          rw [hstop, alignDown]
          exact (Nat.div_mul_le_self _ _).trans (Nat.mod_le _ _)
        -- the frames in between are frames of the entry, which no entry before has
        have hinside : Set.Ico (curr / pageSize) (stop / pageSize) ⊆ e.frames := by
          intro f hf
          have hlow := Nat.mul_le_mul_right pageSize hf.1
          have hhigh := Nat.mul_lt_mul_of_pos_right hf.2 (by decide : 0 < pageSize)
          rw [Nat.div_mul_cancel hcurrdvd] at hlow
          rw [Nat.div_mul_cancel hstopdvd] at hhigh
          exact ⟨by omega, by omega⟩
        obtain ⟨s', hs', hinv, hwithin'⟩ := Inv.seedRegion hphys hend hstopdvd
          ((hP e List.mem_cons_self husable).mono_right hinside)
          ((stop - curr) / pageSize + 1) h hcurrdvd hcurrle.1 le_rfl
          (fun b hb => (hwithin b hb).trans Set.subset_union_left)
        -- from here on the frames of this entry are taken as well
        obtain ⟨s'', hs'', hinv'⟩ := ih haligned' hdisj.2 hinv
          (P := P ∪ e.frames)
          (fun b hb => (hwithin' b hb).trans (Set.union_subset_union_right _ hinside))
          (fun e' he' husable' => by
            rw [Set.disjoint_union_left]
            refine ⟨hP e' (List.mem_cons_of_mem _ he') husable', ?_⟩
            exact (hdisj.1 e' he' husable husable').preimage (· * pageSize))
        refine ⟨s'', ?_, hinv'⟩
        rw [hs', Option.bind_eq_bind, Option.bind_some]
        exact hs''
      next =>
        exact ih haligned' hdisj.2 h hwithin
          fun e' he' => hP e' (List.mem_cons_of_mem _ he')

/-- `pmm_init` is defined on every well-formed memory map, and the state it builds when it returns
`0` satisfies the invariant with nothing allocated. -/
theorem pmmInit_spec {info : MmapInfo} (hwf : info.WellFormed) (beyond : ℕ → Bool) :
    pmmInit info beyond = some none ∨ ∃ s, pmmInit info beyond = some (some s) ∧ s.Inv ∅ := by
  unfold pmmInit
  simp only
  split
  next => exact Or.inl rfl
  next =>
    right
    -- before the entries are seeded nothing is listed and nothing allocated
    have hblank : Inv (blank (alignUp info.maxPhysAddr.toNat / pageSize)
        (findArray (alignUp (alignUp info.maxPhysAddr.toNat / pageSize * sizeofPage)) info.entries)
        (alignUp (alignUp info.maxPhysAddr.toNat / pageSize * sizeofPage)) beyond) ∅ := by
      refine ⟨⟨?_, ?_, fun o => rfl⟩, ?_⟩
      · rintro ⟨tag, b⟩ hx
        cases tag <;> simp [blank, ListStore.empty] at hx
      · rintro ⟨tag, b⟩ hx
        cases tag <;> simp [blank, ListStore.empty] at hx
      · simp [blank, listed, ListStore.empty]
    obtain ⟨s, hs, hinv⟩ := Inv.seedEntries (dvd_findArray _ _)
      ((Nat.dvd_add_right (dvd_findArray _ _)).mpr (dvd_alignUp _)) info.entries hwf.aligned
      hwf.disjoint (P := ∅) hblank (by intro b hb; simp [blank, ListStore.empty] at hb)
      (by simp)
    exact ⟨s, by rw [hs]; rfl, hinv⟩

/-! ### Executing calls

Runs for the examples are found by evaluating a list of calls. -/

/-- A call made by the rest of the kernel. -/
inductive Call
  | alloc (order : ℤ)
  | free (b : Block)

/-- Execute calls one after another, keeping the set of allocated blocks, as long as every release
names an allocated block and satisfies `cond`. -/
def exec (cond : Pmm → Block → Prop) [∀ s b, Decidable (cond s b)] (s : Pmm) (A : Finset Block) :
    List Call → Option (Pmm × Finset Block)
  | [] => some (s, A)
  | .alloc order :: calls =>
      match s.pmmAllocPages order with
      | some (some addr, s) => exec cond s (insert ⟨physToPfn addr, order.toNat⟩ A) calls
      | some (none, s) => exec cond s A calls
      | none => none
  | .free b :: calls =>
      if b ∈ A ∧ cond s b then
        match s.pmmFreePages (pfnToPhys b.base) b.order with
        | some s => exec cond s (A.erase b) calls
        | none => none
      else none

/-- What `exec` reaches, a run reaches. -/
theorem Run.of_exec {cond : Pmm → Block → Prop} [∀ s b, Decidable (cond s b)] {s₀ : Pmm}
    (calls : List Call) {s s' : Pmm} {A A' : Finset Block} (hrun : Run cond s₀ s A)
    (hexec : s.exec cond A calls = some (s', A')) : Run cond s₀ s' A' := by
  induction calls generalizing s A with
  | nil =>
      cases hexec
      exact hrun
  | cons call calls ih =>
      -- each call of the list that succeeds is one step of the run
      cases call with
      | alloc order =>
          rw [exec] at hexec
          split at hexec
          next hcall => exact ih (hrun.alloc hcall) hexec
          next hcall => exact ih (hrun.allocNull hcall) hexec
          next => cases hexec
      | free b =>
          rw [exec] at hexec
          split at hexec
          next hb =>
            split at hexec
            next hcall => exact ih (hrun.free hb.1 hb.2 hcall) hexec
            next => cases hexec
          next => cases hexec

/-- Only the orders below the largest matter for `Mergeable`, so it can be evaluated. -/
instance (s : Pmm) (pfn k : ℕ) : Decidable (s.Mergeable pfn k) :=
  decidable_of_iff (∀ j < maxBuddyOrder - 1, k ≤ j →
      (∀ i < j + 1, k ≤ i → s.isFree (buddyAt pfn i)) → s.freeList.home (buddyAt pfn j) = some j)
    ⟨fun h j hkj hj hflags => h j (by omega) hkj fun i hi hki => hflags i hki (by omega),
      fun h j hj hkj hflags => h j hkj (by omega) fun i hki hi => hflags i (by omega) hki⟩

/-- One usable region of sixteen frames from `0x100` on. The page array takes the first two. -/
def sixteenFrames : MmapInfo where
  maxPhysAddr := 0x110000
  entries := [⟨0x100000, 0x10000, .usable⟩]

theorem sixteenFrames_wellFormed : sixteenFrames.WellFormed where
  aligned e he _ := by
    obtain rfl : e = ⟨0x100000, 0x10000, .usable⟩ := by simpa [sixteenFrames] using he
    decide
  disjoint := List.pairwise_singleton _ _

/-- A run from `pmm_init` on the sixteen frames, found by execution. -/
theorem exists_run_of_exec (cond : Pmm → Block → Prop) [∀ s b, Decidable (cond s b)]
    (calls : List Call) (check : Pmm × Finset Block → Bool)
    (hcheck : ((pmmInit sixteenFrames fun _ => false).any fun r => r.any fun s =>
      (s.exec cond ∅ calls).any check) = true) :
    ∃ s₀ s A, pmmInit sixteenFrames (fun _ => false) = some (some s₀) ∧ Run cond s₀ s A ∧
      check (s, A) = true := by
  obtain ⟨r, hr, hreturned⟩ := (Option.any_eq_true _ _).mp hcheck
  obtain ⟨s₀, rfl, hexecuted⟩ := (Option.any_eq_true _ _).mp hreturned
  obtain ⟨⟨s, A⟩, hexec, hchecked⟩ := (Option.any_eq_true _ _).mp hexecuted
  exact ⟨s₀, s, A, hr, Run.init.of_exec calls hexec, hchecked⟩

/-! ### Runs whose releases meet no buddy of the wrong order

What holds over whole runs, and the run that shows what goes wrong otherwise. -/

/-- From the state `pmm_init` builds for a well-formed memory map, every run in which each release
is `Mergeable` keeps the allocator safe, and no further call finds the lists corrupt or hands out a
block that is still allocated. -/
theorem safe_of_run {info : MmapInfo} (hwf : info.WellFormed) {beyond : ℕ → Bool} {s₀ s : Pmm}
    {A : Finset Block} (hinit : pmmInit info beyond = some (some s₀))
    (hrun : Run (fun s b => s.Mergeable b.base b.order) s₀ s A) :
    s.Safe A ∧ (∀ order, (s.pmmAllocPages order).isSome) ∧
      (∀ b ∈ A, s.Mergeable b.base b.order →
        (s.pmmFreePages (pfnToPhys b.base) b.order).isSome) ∧
      ∀ order phys s', s.pmmAllocPages order = some (some phys, s') →
        (⟨physToPfn phys, order.toNat⟩ : Block) ∉ A := by
  -- the invariant holds after `pmm_init`, and along the run
  have hinv₀ : s₀.Inv ∅ := by
    rcases pmmInit_spec hwf beyond with hnone | ⟨s', hs', hinv⟩
    · rw [hnone] at hinit
      cases hinit
    · rw [hs'] at hinit
      cases hinit
      exact hinv
  have hinv : s.Inv A := hrun.inv hinv₀
  refine ⟨hinv.safe, fun order => ?_, fun b hb hmerge => ?_, fun order phys s' hcall => ?_⟩
  · rcases hinv.alloc order with hnull | ⟨p, s', hcall, -⟩
    · rw [hnull]
      rfl
    · rw [hcall]
      rfl
  · obtain ⟨s', hcall, -⟩ := hinv.free hb hmerge
    rw [hcall]
    rfl
  · rcases hinv.alloc order with hnull | ⟨p, s'', hcall', hnew, -⟩
    · rw [hnull] at hcall
      cases hcall
    · rw [hcall'] at hcall
      cases hcall
      rwa [physToPfn_pfnToPhys]

/-- Three frames are allocated and the last one is released, merging twice on the way. -/
theorem safe_of_run_sixteenFrames :
    ∃ s₀ s A, pmmInit sixteenFrames (fun _ => false) = some (some s₀) ∧
      Run (fun s b => s.Mergeable b.base b.order) s₀ s A ∧
      (A = {⟨0x102, 0⟩, ⟨0x103, 0⟩} ∧ s.FreeBlock ⟨0x104, 2⟩) ∧ s.Safe A := by
  obtain ⟨s₀, s, A, hinit, hrun, hcheck⟩ := exists_run_of_exec
    (fun s b => s.Mergeable b.base b.order)
    [.alloc 0, .alloc 0, .alloc 0, .free ⟨0x104, 0⟩]
    (fun x => decide (x.2 = {⟨0x102, 0⟩, ⟨0x103, 0⟩} ∧ 0x104 ∈ x.1.freeList.queue 2))
    (by decide +kernel)
  obtain ⟨hA, hfree⟩ := of_decide_eq_true hcheck
  exact ⟨s₀, s, A, hinit, hrun, ⟨hA, by decide, hfree⟩,
    (safe_of_run sixteenFrames_wellFormed hinit hrun).1⟩

/-- Six frames are allocated one by one, then `0x106`, `0x104` and `0x105` are released. The last
release merges `0x105` with `0x104`, and then with `0x106` as if the two frames there were free:
the frame `0x107` is allocated and inside a free block. -/
theorem release_of_larger_neighbour :
    ∃ s₀ s A, sixteenFrames.WellFormed ∧
      pmmInit sixteenFrames (fun _ => false) = some (some s₀) ∧
      Run (fun _ _ => True) s₀ s A ∧ ¬ s.Safe A := by
  obtain ⟨s₀, s, A, hinit, hrun, hcheck⟩ := exists_run_of_exec (fun _ _ => True)
    (List.replicate 6 (.alloc 0) ++ [.free ⟨0x106, 0⟩, .free ⟨0x104, 0⟩, .free ⟨0x105, 0⟩])
    (fun x => decide (0x104 ∈ x.1.freeList.queue 2 ∧ (⟨0x107, 0⟩ : Block) ∈ x.2))
    (by decide +kernel)
  obtain ⟨hfree, halloc⟩ := of_decide_eq_true hcheck
  refine ⟨s₀, s, A, sixteenFrames_wellFormed, hinit, hrun, fun hsafe => ?_⟩
  have hdisj := hsafe.allocated_not_free _ halloc ⟨0x104, 2⟩ ⟨by decide, hfree⟩
  have hmem : 0x107 ∈ (⟨0x107, 0⟩ : Block).frames := by simp [Block.mem_frames]
  exact Set.disjoint_left.mp hdisj hmem (by simp [Block.mem_frames])

end Pmm

end Koharu
