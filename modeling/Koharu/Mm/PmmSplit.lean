import Koharu.Mm.PmmSafety

/-!
# Allocation splits a free block

What one call of `pmm_alloc_pages` does to any state in which the free lists, the `is_free` flags
and the counters agree, however the state came about: `WellFormed` says no more than that, and
unlike `Tiling` it does not bound where the blocks are.

The proof follows the nested loops. `Carved s A free pages` is the state in between: the blocks `A`
are off the lists, but their first frames still have the flag, and together with the lists they make
up the frames `free`, which are `pages` many.

The result of the call is an address, and `NULL` is the address of frame 0. `splits_of_wellFormed`
is about the states in which that frame starts no free block; `pmm_init` leaves out all memory below
`0x100000`.
-/

namespace Koharu

namespace Pmm

/-- Free blocks are aligned, disjoint and in `mem_map`, the flags and the counters say which they
are and how many. -/
structure WellFormed (s : Pmm) : Prop where
  /-- There are `MAX_BUDDY_ORDER` lists. -/
  orders : ∀ o, maxBuddyOrder ≤ o → s.freeList.queue o = []
  aligned : ∀ b, s.FreeBlock b → b.Aligned
  disjoint : {b | s.FreeBlock b}.PairwiseDisjoint Block.frames
  inside : ∀ b, s.FreeBlock b → b.base + 2 ^ b.order ≤ s.totalPages
  flag : ∀ f < s.totalPages, s.isFree f = true ↔ ∃ o, s.FreeBlock ⟨f, o⟩
  count_eq : ∀ o < maxBuddyOrder, (s.freeCount o).toNat = (s.freeList.queue o).length
  pages_eq : s.freePages.toNat = listed s.freeList

/-- The frames in free blocks. -/
def freeFrames (s : Pmm) : Set ℕ := {f | ∃ b, s.FreeBlock b ∧ f ∈ b.frames}

/-- All lists of an order at least the requested one are empty. -/
def Exhausted (s : Pmm) (order : ℕ) : Prop :=
  ∀ o, order ≤ o → o < maxBuddyOrder → s.freeList.queue o = []

/-- `pmm_alloc_pages(order)` splits a free block: it returns `NULL` and changes nothing if and only
if there is no block, and otherwise takes exactly the frames of an aligned block off the free
ones. -/
structure Splits (s : Pmm) (order : ℕ) : Prop where
  null_iff : (∃ r, s.pmmAllocPages order = some (r, s) ∧ r.getD 0 = 0) ↔ s.Exhausted order
  block : ¬ s.Exhausted order → ∃ p s', s.pmmAllocPages order = some (some (pfnToPhys p), s') ∧
    pfnToPhys p ≠ 0 ∧ 2 ^ order ∣ p ∧ (⟨p, order⟩ : Block).frames ⊆ s.freeFrames ∧
    s'.freeFrames = s.freeFrames \ (⟨p, order⟩ : Block).frames ∧
    s'.freePages.toNat + 2 ^ order = s.freePages.toNat ∧ s'.WellFormed

/-! ### While a block is split

Between taking a block off its list and handing it out, its frames belong to neither side. `Carved`
counts them as held. -/

/-- The blocks on the lists and the blocks `A`, which are not, make up the frames `free`, which are
`pages` many. -/
structure Carved (s : Pmm) (A : Finset Block) (free : Set ℕ) (pages : ℕ) : Prop where
  disjoint : (owned s.freeList A).PairwiseDisjoint ownedFrames
  placed : ∀ x ∈ owned s.freeList A,
    x.2.Aligned ∧ x.2.order < maxBuddyOrder ∧ x.2.base + 2 ^ x.2.order ≤ s.totalPages
  covers : ∀ f, f ∈ free ↔ ∃ x ∈ owned s.freeList A, f ∈ x.2.frames
  flag : ∀ f < s.totalPages, s.isFree f = true ↔ ∃ x ∈ owned s.freeList A, x.2.base = f
  count_eq : ∀ o < maxBuddyOrder, (s.freeCount o).toNat = (s.freeList.queue o).length
  pages_eq : listed s.freeList + ∑ b ∈ A, 2 ^ b.order = pages
  pages_lt : pages < 2 ^ 64

section Carved

variable {s : Pmm} {A : Finset Block} {free : Set ℕ} {pages p o k : ℕ}

/-- A block on a list is a free block. -/
theorem WellFormed.freeBlock_iff (h : s.WellFormed) {b : Block} :
    s.FreeBlock b ↔ s.freeList.home b.base = some b.order := by
  rw [FreeBlock, s.freeList.mem_queue]
  refine and_iff_right_of_imp fun hhome => not_le.mp fun hle => ?_
  have hmem := (s.freeList.mem_queue b.order b.base).mpr hhome
  rw [h.orders b.order hle] at hmem
  exact List.not_mem_nil hmem

/-- Between two calls no block is off the lists. -/
theorem WellFormed.carved (h : s.WellFormed) : s.Carved ∅ s.freeFrames s.freePages.toNat := by
  -- with nothing allocated the blocks owned are the free ones
  have howned : ∀ x : Bool × Block, x ∈ owned s.freeList ∅ ↔ x.1 = true ∧ s.FreeBlock x.2 := by
    intro x
    simp [owned, h.freeBlock_iff]
  refine ⟨fun x hx y hy hne => ?_, fun x hx => ?_, fun f => ?_, fun f hf => ?_, h.count_eq, ?_,
    s.freePages.isLt⟩
  · have hx' := (howned x).mp hx
    have hy' := (howned y).mp hy
    exact h.disjoint hx'.2 hy'.2 fun heq => hne (Prod.ext (hx'.1.trans hy'.1.symm) heq)
  · have hx' := ((howned x).mp hx).2
    exact ⟨h.aligned _ hx', hx'.1, h.inside _ hx'⟩
  · constructor
    · rintro ⟨b, hb, hf⟩
      exact ⟨(true, b), (howned _).mpr ⟨rfl, hb⟩, hf⟩
    · rintro ⟨x, hx, hf⟩
      exact ⟨x.2, ((howned x).mp hx).2, hf⟩
  · rw [h.flag f hf]
    constructor
    · rintro ⟨o, ho⟩
      exact ⟨(true, ⟨f, o⟩), (howned _).mpr ⟨rfl, ho⟩, rfl⟩
    · rintro ⟨x, hx, rfl⟩
      exact ⟨x.2.order, ((howned x).mp hx).2⟩
  · rw [Finset.sum_empty, h.pages_eq, Nat.add_zero]

/-- Blocks are replaced by blocks with the same frames. -/
theorem Carved.replace {s' : Pmm} {A' : Finset Block} {R T : Set (Bool × Block)}
    (h : s.Carved A free pages) (hR : R ⊆ owned s.freeList A) (hT : T.PairwiseDisjoint ownedFrames)
    (hframes : ∀ f, (∃ t ∈ T, f ∈ t.2.frames) ↔ ∃ r ∈ R, f ∈ r.2.frames)
    (hplaced : ∀ t ∈ T,
      t.2.Aligned ∧ t.2.order < maxBuddyOrder ∧ t.2.base + 2 ^ t.2.order ≤ s.totalPages)
    (hiff : ∀ x, x ∈ owned s'.freeList A' ↔ x ∈ T ∨ x ∈ owned s.freeList A ∧ x ∉ R)
    (htotal : s'.totalPages = s.totalPages)
    (hflag : ∀ f < s.totalPages, s'.isFree f = true ↔ ∃ x ∈ owned s'.freeList A', x.2.base = f)
    (hcount : ∀ o < maxBuddyOrder, (s'.freeCount o).toNat = (s'.freeList.queue o).length)
    (hpages : listed s'.freeList + ∑ b ∈ A', 2 ^ b.order = pages) : s'.Carved A' free pages := by
  refine ⟨?_, fun x hx => ?_, fun f => ?_, htotal ▸ hflag, hcount, hpages, h.pages_lt⟩
  · refine (h.disjoint.replace hR hT fun t ht f hf => ?_).subset fun x hx => ?_
    · obtain ⟨r, hr, hfr⟩ := (hframes f).mp ⟨t, ht, hf⟩
      exact Set.mem_biUnion hr hfr
    · exact ((hiff x).mp hx).symm
  · rw [htotal]
    exact ((hiff x).mp hx).elim (hplaced x) fun hold => h.placed x hold.1
  -- a frame is in a block that goes, and then in one that comes, or in one that stays
  · rw [h.covers]
    constructor
    · rintro ⟨x, hx, hf⟩
      by_cases hxR : x ∈ R
      · obtain ⟨t, ht, hft⟩ := (hframes f).mpr ⟨x, hxR, hf⟩
        exact ⟨t, (hiff t).mpr (Or.inl ht), hft⟩
      · exact ⟨x, (hiff x).mpr (Or.inr ⟨hx, hxR⟩), hf⟩
    · rintro ⟨x, hx, hf⟩
      rcases (hiff x).mp hx with hxT | hold
      · obtain ⟨r, hr, hfr⟩ := (hframes f).mp ⟨x, hxT, hf⟩
        exact ⟨r, hR hr, hfr⟩
      · exact ⟨x, hold.1, hf⟩

/-- The first block of a list is taken off it. -/
theorem Carved.take (h : s.Carved ∅ free pages) (hp : s.freeList.home p = some o) :
    Carved { s with
      freeList := s.freeList.eraseAt p o hp
      freeCount := Function.update s.freeCount o (s.freeCount o - 1) } {⟨p, o⟩} free pages := by
  have hmem : (true, ⟨p, o⟩) ∈ owned s.freeList ∅ := by simpa using hp
  have ho : o < maxBuddyOrder := (h.placed _ hmem).2.1
  have hlength := ListStore.length_erase_add_one hp
  -- the blocks are those from before, but for the tag of this one
  have hiff : ∀ x : Bool × Block, x ∈ owned (s.freeList.eraseAt p o hp) {⟨p, o⟩} ↔
      x ∈ ({(false, ⟨p, o⟩)} : Set (Bool × Block)) ∨
        x ∈ owned s.freeList ∅ ∧ x ∉ ({(true, ⟨p, o⟩)} : Set (Bool × Block)) := by
    rintro ⟨tag, b⟩
    cases tag with
    | true =>
        rw [mem_owned_true, mem_owned_true, ListStore.eraseAt_home_apply]
        by_cases hbase : b.base = p
        · rw [if_pos hbase]
          apply iff_of_false (by simp)
          rintro (heq | ⟨hhome, hne⟩)
          · cases heq
          · rw [hbase, hp] at hhome
            refine hne (Set.mem_singleton_iff.mpr ?_)
            rw [← hbase, Option.some.inj hhome]
        · have hne : b ≠ ⟨p, o⟩ := fun heq => hbase (by rw [heq])
          simp [hbase, hne]
    | false => simp
  refine h.replace (R := {(true, ⟨p, o⟩)}) (T := {(false, ⟨p, o⟩)}) (by simpa using hp)
    (Set.pairwiseDisjoint_singleton _ _) (by simp) ?_ hiff rfl (fun f hf => ?_) (fun i hi => ?_) ?_
  · rintro t rfl
    exact h.placed (true, ⟨p, o⟩) hmem
  · apply (h.flag f hf).trans
    constructor
    · rintro ⟨x, hx, hxf⟩
      by_cases hxp : x = (true, ⟨p, o⟩)
      · exact ⟨(false, ⟨p, o⟩), (hiff _).mpr (Or.inl rfl), by rwa [hxp] at hxf⟩
      · exact ⟨x, (hiff x).mpr (Or.inr ⟨hx, hxp⟩), hxf⟩
    · rintro ⟨x, hx, hxf⟩
      rcases (hiff x).mp hx with rfl | hold
      · exact ⟨_, hmem, hxf⟩
      · exact ⟨x, hold.1, hxf⟩
  · by_cases hio : i = o
    · subst hio
      have hcount := h.count_eq i hi
      simp only [Function.update_self, ListStore.eraseAt_queue]
      rw [BitVec.toNat_sub_of_le (by rw [BitVec.le_def, hcount]; show 1 ≤ _; omega), hcount]
      show _ - 1 = _
      omega
    · simp only [Function.update_of_ne hio, ListStore.eraseAt_queue]
      exact h.count_eq i hi
  · have hlisted := listed_update ho (ListStore.eraseAt_queue s.freeList p o hp)
    have htotal := h.pages_eq
    rw [← hlength, Nat.add_mul, one_mul] at hlisted
    rw [Finset.sum_empty] at htotal
    rw [Finset.sum_singleton]
    show listed (s.freeList.eraseAt p o hp) + 2 ^ o = pages
    omega

/-- The upper half of the block that is held goes to the list below. -/
theorem Carved.split (h : s.Carved {⟨p, k + 1⟩} free pages) :
    ∃ hp : s.freeList.home (p ^^^ 2 ^ k) = none, Carved { s with
      isFree := Function.update s.isFree (p ^^^ 2 ^ k) true
      freeList := s.freeList.consAt (p ^^^ 2 ^ k) k hp
      freeCount := Function.update s.freeCount k (s.freeCount k + 1) } {⟨p, k⟩} free pages := by
  have hmem : (false, ⟨p, k + 1⟩) ∈ owned s.freeList {⟨p, k + 1⟩} := by simp
  obtain ⟨haligned, horder, hend⟩ := h.placed _ hmem
  have hxor : p ^^^ 2 ^ k = p + 2 ^ k := Block.xor_two_pow_of_dvd haligned
  have hk : k < maxBuddyOrder := Nat.lt_of_succ_lt horder
  have hdvd : 2 ^ k ∣ p := (pow_dvd_pow 2 (Nat.le_succ k)).trans haligned
  simp only [pow_succ] at hend
  rw [hxor]
  -- no block on a list starts inside the one that is held
  have hp : s.freeList.home (p + 2 ^ k) = none := by
    cases hhome : s.freeList.home (p + 2 ^ k) with
    | none => rfl
    | some o =>
        have hdisj := h.disjoint (x := (true, ⟨p + 2 ^ k, o⟩)) (by simpa using hhome) hmem (by simp)
        exact absurd (Block.frames_upper_subset p k (Block.base_mem_frames ⟨p + 2 ^ k, k⟩))
          (Set.disjoint_left.mp hdisj (Block.base_mem_frames ⟨p + 2 ^ k, o⟩))
  have hiff : ∀ x : Bool × Block, x ∈ owned (s.freeList.consAt (p + 2 ^ k) k hp) {⟨p, k⟩} ↔
      x ∈ ({(false, ⟨p, k⟩), (true, ⟨p + 2 ^ k, k⟩)} : Set (Bool × Block)) ∨
        x ∈ owned s.freeList {⟨p, k + 1⟩} ∧ x ∉ ({(false, ⟨p, k + 1⟩)} : Set (Bool × Block)) := by
    rintro ⟨tag, b⟩
    cases tag with
    | true =>
        rw [mem_owned_true, mem_owned_true, ListStore.consAt_home]
        by_cases hbase : b.base = p + 2 ^ k
        · rw [hbase, Function.update_self, hp]
          constructor
          · intro heq
            left; right
            rw [Set.mem_singleton_iff, ← hbase, Option.some.inj heq]
          · rintro ((heq | heq) | ⟨heq, -⟩)
            · cases heq
            · cases heq
              rfl
            · cases heq
        · have hne : b ≠ ⟨p + 2 ^ k, k⟩ := fun heq => hbase (by rw [heq])
          simp [Function.update_of_ne hbase, hne]
    | false => simp
  refine ⟨hp, h.replace (R := {(false, ⟨p, k + 1⟩)})
    (T := {(false, ⟨p, k⟩), (true, ⟨p + 2 ^ k, k⟩)}) (by simp) ?_ (fun f => ?_) ?_ hiff rfl
    (fun f hf => ?_) (fun i hi => ?_) ?_⟩
  · rw [Set.pairwiseDisjoint_insert]
    refine ⟨Set.pairwiseDisjoint_singleton _ _, ?_⟩
    rintro x rfl -
    exact Block.disjoint_halves p k
  · simp only [Set.mem_insert_iff, Set.mem_singleton_iff, exists_eq_or_imp, exists_eq_left,
      Block.mem_frames, pow_succ]
    omega
  · rintro t (rfl | rfl)
    · exact ⟨hdvd, hk, by simp only; omega⟩
    · exact ⟨(Nat.dvd_add_right hdvd).mpr dvd_rfl, hk, by simp only; omega⟩
  · -- the flag of the upper half is set, and that of the lower half is still
    by_cases hbase : f = p + 2 ^ k
    · subst hbase
      refine iff_of_true (Function.update_self ..) ⟨(true, ⟨p + 2 ^ k, k⟩), ?_, rfl⟩
      exact (hiff _).mpr (Or.inl (Or.inr rfl))
    · show Function.update s.isFree (p + 2 ^ k) true f = true ↔ _
      rw [Function.update_of_ne hbase, h.flag f hf]
      constructor
      · rintro ⟨x, hx, hxf⟩
        by_cases hxp : x = (false, ⟨p, k + 1⟩)
        · exact ⟨(false, ⟨p, k⟩), (hiff _).mpr (Or.inl (Or.inl rfl)), by rwa [hxp] at hxf⟩
        · exact ⟨x, (hiff x).mpr (Or.inr ⟨hx, hxp⟩), hxf⟩
      · rintro ⟨x, hx, hxf⟩
        rcases (hiff x).mp hx with (rfl | rfl) | hold
        · exact ⟨_, hmem, hxf⟩
        · exact absurd hxf.symm hbase
        · exact ⟨x, hold.1, hxf⟩
  · by_cases hik : i = k
    · subst hik
      have hcount := h.count_eq i hi
      have hle : (s.freeList.queue i).length * 2 ^ i ≤ listed s.freeList :=
        Finset.single_le_sum (f := fun o => (s.freeList.queue o).length * 2 ^ o)
          (fun _ _ => Nat.zero_le _) (Finset.mem_range.mpr hi)
      have hlength : (s.freeList.queue i).length + 1 < 2 ^ 64 := by
        have hmul := Nat.le_mul_of_pos_right (s.freeList.queue i).length (Nat.two_pow_pos i)
        have htotal : listed s.freeList + 2 ^ (i + 1) = pages := by
          rw [← h.pages_eq, Finset.sum_singleton]
        have hlt := h.pages_lt
        have hpos := Nat.two_pow_pos (i + 1)
        omega
      simp only [Function.update_self, ListStore.consAt_queue, List.length_cons]
      rw [BitVec.toNat_add_of_lt (by rw [hcount]; exact hlength), hcount]
      rfl
    · simp only [Function.update_of_ne hik, ListStore.consAt_queue]
      exact h.count_eq i hi
  · have hlisted := listed_update hk (ListStore.consAt_queue s.freeList (p + 2 ^ k) k hp)
    have htotal := h.pages_eq
    rw [List.length_cons, Nat.add_mul, one_mul] at hlisted
    rw [Finset.sum_singleton, pow_succ] at htotal
    rw [Finset.sum_singleton]
    show listed (s.freeList.consAt (p + 2 ^ k) k hp) + 2 ^ k = pages
    omega

end Carved

/-! ### The loops

The state before the call is any one in which lists, flags and counters agree; it need not come from
a run. -/

/-- The splitting loop gives back the upper halves, down to the requested order. -/
theorem Carved.splitLoop {free : Set ℕ} {pages p order : ℕ} (left : ℕ) {s : Pmm}
    (h : s.Carved {⟨p, order + left⟩} free pages) : ∃ s', s.splitLoop p order left = some s' ∧
      s'.Carved {⟨p, order⟩} free pages ∧ s'.freePages = s.freePages := by
  induction left generalizing s with
  | zero => exact ⟨s, rfl, h, rfl⟩
  | succ left ih =>
      obtain ⟨hfree, hsplit⟩ := Carved.split (k := order + left) h
      obtain ⟨s', hs', hcarved, hpages⟩ := ih hsplit
      refine ⟨s', ?_, hcarved, hpages⟩
      rw [Pmm.splitLoop, ListStore.pushFront_eq_some _ hfree]
      exact hs'

/-- The block that is held is handed out. -/
theorem Carved.handOut {s : Pmm} {b : Block} {free : Set ℕ} {freePages : U64}
    (h : s.Carved {b} free s.freePages.toNat)
    (hpages : freePages = s.freePages - BitVec.ofNat 64 (2 ^ b.order)) :
    let s' : Pmm := { s with isFree := Function.update s.isFree b.base false, freePages }
    b.frames ⊆ free ∧ s'.freeFrames = free \ b.frames ∧
      s'.freePages.toNat + 2 ^ b.order = s.freePages.toNat ∧ s'.WellFormed := by
  intro s'
  have hmem : (false, b) ∈ owned s.freeList {b} := by simp
  have hlisted : listed s.freeList + 2 ^ b.order = s.freePages.toNat := by
    rw [← h.pages_eq, Finset.sum_singleton]
  have hfree : ∀ c, s'.FreeBlock c ↔ (true, c) ∈ owned s.freeList {b} := by
    intro c
    rw [mem_owned_true, FreeBlock, s.freeList.mem_queue]
    exact and_iff_right_of_imp fun hhome => (h.placed (true, c) (by simpa using hhome)).2.1
  have hdisj : ∀ c, s'.FreeBlock c → Disjoint b.frames c.frames := fun c hc =>
    h.disjoint hmem ((hfree c).mp hc) (by simp)
  have hsub : freePages.toNat = listed s.freeList := by
    have hlt : 2 ^ b.order < 2 ^ 64 := by
      have := h.pages_lt
      have := hlisted.symm.le
      omega
    have hofNat : (BitVec.ofNat 64 (2 ^ b.order)).toNat = 2 ^ b.order := by
      rw [BitVec.toNat_ofNat, Nat.mod_eq_of_lt hlt]
    rw [hpages, BitVec.toNat_sub_of_le (by rw [BitVec.le_def, hofNat]; omega), hofNat]
    omega
  refine ⟨fun f hf => (h.covers f).mpr ⟨_, hmem, hf⟩, ?_, ?_, ?_⟩
  · ext f
    rw [Set.mem_sdiff, h.covers]
    constructor
    · rintro ⟨c, hc, hf⟩
      exact ⟨⟨_, (hfree c).mp hc, hf⟩, fun hfb => Set.disjoint_left.mp (hdisj c hc) hfb hf⟩
    · rintro ⟨⟨⟨tag, c⟩, hx, hf⟩, hnot⟩
      cases tag with
      | true => exact ⟨c, (hfree c).mpr hx, hf⟩
      | false =>
          rw [mem_owned_false, Finset.mem_singleton] at hx
          exact absurd (hx ▸ hf) hnot
  · show freePages.toNat + _ = _
    rw [hsub, hlisted]
  · refine ⟨fun o ho => ?_, fun c hc => (h.placed _ ((hfree c).mp hc)).1, fun c hc d hd hne => ?_,
      fun c hc => (h.placed _ ((hfree c).mp hc)).2.2, fun f hf => ?_, h.count_eq, hsub⟩
    · apply List.eq_nil_iff_forall_not_mem.mpr
      intro q hq
      have hplaced := h.placed (true, ⟨q, o⟩) (by simpa using ListStore.home_of_mem hq)
      exact absurd hplaced.2.1 (not_lt.mpr ho)
    · exact h.disjoint ((hfree c).mp hc) ((hfree d).mp hd) (by simpa using hne)
    · -- the flag that is taken away is that of the one block that is on no list
      by_cases hfb : f = b.base
      · subst hfb
        apply iff_of_false (by simp [s'])
        rintro ⟨o, ho⟩
        exact Set.disjoint_left.mp (hdisj _ ho) (Block.base_mem_frames b)
          (Block.base_mem_frames ⟨b.base, o⟩)
      · show Function.update s.isFree b.base false f = true ↔ _
        rw [Function.update_of_ne hfb, h.flag f hf]
        constructor
        · rintro ⟨⟨tag, c⟩, hx, rfl⟩
          cases tag with
          | true => exact ⟨c.order, (hfree c).mpr hx⟩
          | false =>
              rw [mem_owned_false, Finset.mem_singleton] at hx
              exact absurd (by rw [hx]) hfb
        · rintro ⟨o, ho⟩
          exact ⟨_, (hfree _).mp ho, rfl⟩

/-- What `pmm_alloc_pages` does with the first block it finds. -/
theorem WellFormed.takeBlock {s : Pmm} (h : s.WellFormed) {order curr p : ℕ} (hle : order ≤ curr)
    (hp : s.freeList.home p = some curr) :
    ∃ s', s.takeBlock order curr p = some (some (pfnToPhys p), s') ∧ 2 ^ order ∣ p ∧
      (⟨p, order⟩ : Block).frames ⊆ s.freeFrames ∧
      s'.freeFrames = s.freeFrames \ (⟨p, order⟩ : Block).frames ∧
      s'.freePages.toNat + 2 ^ order = s.freePages.toNat ∧ s'.WellFormed := by
  obtain ⟨left, rfl⟩ := Nat.exists_eq_add_of_le hle
  obtain ⟨s₁, hs₁, hcarved, hpages⟩ := (h.carved.take hp).splitLoop left
  have hpages : s₁.freePages = s.freePages := hpages
  rw [← hpages] at hcarved
  -- carving `order` out of the block leaves the rest free; what is handed out is then dropped
  obtain ⟨hsub, hframes, hdrop, hwf⟩ := hcarved.handOut rfl
  refine ⟨_, ?_, (hcarved.placed (false, ⟨p, order⟩) (by simp)).1, hsub, hframes, ?_, hwf⟩
  · rw [Pmm.takeBlock, ListStore.unlink_eq_some hp, Option.bind_eq_bind, Option.bind_some,
      Nat.add_sub_cancel_left, hs₁]
    rfl
  · rw [← hpages]
    exact hdrop

/-- The search finds a block of the first list that is not empty. -/
theorem allocScan_eq (s : Pmm) (order left curr : ℕ) :
    ((∀ o, curr ≤ o → o < curr + left → s.freeList.queue o = []) ∧
      s.allocScan order left curr = some (none, s)) ∨
    ∃ o p, curr ≤ o ∧ o < curr + left ∧ s.freeList.home p = some o ∧
      s.allocScan order left curr = s.takeBlock order o p := by
  induction left generalizing curr with
  | zero => exact Or.inl ⟨fun o hle hlt => absurd hlt (not_lt.mpr hle), rfl⟩
  | succ left ih =>
      unfold allocScan
      -- the first list from `curr` on that has a block is where the scan stops
      cases hq : s.freeList.queue curr with
      | cons p rest =>
          refine Or.inr ⟨curr, p, le_rfl, by omega, ListStore.home_of_mem (h := curr) ?_, rfl⟩
          rw [hq]
          exact List.mem_cons_self
      | nil =>
          rcases ih (curr + 1) with ⟨hempty, hscan⟩ | ⟨o, p, hle, hlt, hhome, hscan⟩
          · refine Or.inl ⟨fun o hle hlt => ?_, hscan⟩
            rcases hle.eq_or_lt with rfl | hlt'
            · exact hq
            · exact hempty o hlt' (by omega)
          · exact Or.inr ⟨o, p, by omega, by omega, hhome, hscan⟩

/-- In a state in which free blocks, flags and counters agree, and frame 0 starts no free block,
`pmm_alloc_pages` splits a free block. -/
theorem splits_of_wellFormed {s : Pmm} (h : s.WellFormed) (hzero : s.freeList.home 0 = none)
    {order : ℕ} (horder : order < maxBuddyOrder) : s.Splits order := by
  have halloc : s.pmmAllocPages order = s.allocScan order (maxBuddyOrder - order) order := by
    rw [pmmAllocPages, if_neg (by omega), Int.toNat_natCast]
  have hlast : order + (maxBuddyOrder - order) = maxBuddyOrder := Nat.add_sub_cancel' horder.le
  -- all lists from this order on are empty, or a block is taken from the first that is not
  rcases allocScan_eq s order (maxBuddyOrder - order) order with
    ⟨hempty, hscan⟩ | ⟨o, p, hle, hlt, hhome, hscan⟩
  · rw [hlast] at hempty
    refine ⟨iff_of_true ⟨none, halloc.trans hscan, rfl⟩ hempty, fun hnot => absurd hempty hnot⟩
  · obtain ⟨s', htake, hdvd, hsub, hframes, hpages, hwf⟩ := h.takeBlock hle hhome
    have hcall := (halloc.trans hscan).trans htake
    have hne : pfnToPhys p ≠ 0 := by
      have hp : p ≠ 0 := by
        rintro rfl
        rw [hzero] at hhome
        cases hhome
      rw [pfnToPhys, Nat.shiftLeft_eq]
      exact Nat.mul_ne_zero hp (by decide)
    have hnot : ¬ s.Exhausted order := by
      intro hempty
      have hmem := (s.freeList.mem_queue o p).mpr hhome
      rw [hempty o hle (by omega)] at hmem
      exact List.not_mem_nil hmem
    refine ⟨iff_of_false ?_ hnot, fun _ => ⟨p, s', hcall, hne, hdvd, hsub, hframes, hpages, hwf⟩⟩
    rintro ⟨r, hr, hr0⟩
    rw [hcall] at hr
    obtain ⟨rfl, -⟩ := Prod.mk.inj (Option.some.inj hr)
    exact hne hr0

/-! ### One free block

The smallest state to split in, and frame zero, whose address cannot be told from `NULL`. -/

/-- A single block is free, in memory that ends with it. -/
def single (p o : ℕ) : Pmm where
  freeList := ListStore.empty.consAt p o rfl
  freeCount i := if i = o then 1 else 0
  isFree f := f = p
  memMapPhys := 0
  memMapSize := 0
  totalPages := p + 2 ^ o
  freePages := BitVec.ofNat 64 (2 ^ o)

theorem wellFormed_single {p o : ℕ} (hp : 2 ^ o ∣ p) (ho : o < maxBuddyOrder) :
    (single p o).WellFormed := by
  have hqueue : ∀ i, (single p o).freeList.queue i = if i = o then [p] else [] := by
    intro i
    by_cases hi : i = o <;> simp [single, ListStore.empty, hi]
  -- there is one free block
  have hfree : ∀ b, (single p o).FreeBlock b ↔ b = ⟨p, o⟩ := by
    rintro ⟨q, i⟩
    rw [FreeBlock, hqueue]
    by_cases hi : i = o
    · subst hi
      simp [ho]
    · simp [hi]
  refine ⟨fun i hi => ?_, fun b hb => ?_, fun b hb c hc hne => ?_, fun b hb => ?_, fun f _ => ?_,
    fun i _ => ?_, ?_⟩
  · rw [hqueue, if_neg (by omega)]
  · rw [(hfree b).mp hb]
    exact hp
  · exact absurd (((hfree b).mp hb).trans ((hfree c).mp hc).symm) hne
  · rw [(hfree b).mp hb]
    rfl
  · simp only [hfree]
    simp [single]
  · rw [hqueue]
    by_cases hi : i = o <;> simp [single, hi]
  · have hlt : 2 ^ o < 2 ^ 64 := Nat.pow_lt_pow_right (by decide) (ho.trans (by decide))
    rw [listed, Finset.sum_eq_single_of_mem o (Finset.mem_range.mpr ho), hqueue]
    · simpa [single] using hlt
    · intro i _ hi
      simp [hqueue, hi]

/-- A block of one page is taken out of the four pages from 4 on. -/
theorem splits_of_wellFormed_single : (single 4 2).WellFormed ∧
    (single 4 2).freeList.home 0 = none ∧ ¬ (single 4 2).Exhausted 0 ∧ (single 4 2).Splits 0 := by
  have hwf : (single 4 2).WellFormed := wellFormed_single (by decide) (by decide)
  refine ⟨hwf, by decide, fun h => ?_, splits_of_wellFormed hwf (by decide) (by decide)⟩
  exact absurd (h 2 (by decide) (by decide)) (by decide)

/-- Frame 0 is free, and its address is `NULL`. -/
theorem not_splits_frame_zero : (single 0 0).WellFormed ∧ ¬ (single 0 0).Splits 0 := by
  refine ⟨wellFormed_single (by decide) (by decide), fun h => ?_⟩
  have hnot : ¬ (single 0 0).Exhausted 0 := by
    intro hempty
    exact absurd (hempty 0 (by decide) (by decide)) (by decide)
  obtain ⟨p, s', hcall, hne, -⟩ := h.block hnot
  have hzero : ((single 0 0).pmmAllocPages 0).map Prod.fst = some (some 0) := by decide
  rw [show ((0 : ℕ) : ℤ) = 0 from rfl] at hcall
  rw [hcall] at hzero
  exact hne (Option.some.inj (Option.some.inj hzero))

end Pmm

end Koharu
