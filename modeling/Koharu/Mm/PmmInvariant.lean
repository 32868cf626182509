import Koharu.Mm.Pmm
import Mathlib.Data.Finset.Basic
import Mathlib.Algebra.Order.BigOperators.Group.Finset

/-!
# The buddy allocator's blocks tile memory

`Tiling lists count A` is the invariant the allocator's safety rests on: the free blocks (read off
the free lists) and the allocated blocks `A` are together pairwise disjoint, each is aligned to
its order and lies below the pool, and the counters are the lengths of the lists. The allocator
moves between such states by four elementary steps, each a replacement of blocks by others with
the same frames:

* `Tiling.take`: a free block becomes allocated;
* `Tiling.split`: an allocated block gives its upper half back to the free list below;
* `Tiling.merge`: an allocated block absorbs its buddy, if the buddy is free *and of the same
  order*;
* `Tiling.give`: an allocated block becomes free.

The loops of `pmm_alloc_pages` and `pmm_free_pages` are chains of these. The loop of
`pmm_free_pages` looks at the buddy's flag alone; that it only ever absorbs buddies of the right
order is the hypothesis `Pmm.Mergeable` of `coalesce_spec`.
-/

namespace Koharu

namespace Pmm

/-- The blocks that exist: the free ones, tagged `true`, and the allocated ones. -/
def owned (lists : ListStore ℕ ℕ) (A : Finset Block) : Set (Bool × Block) :=
  {x | (x.1 = true ∧ lists.home x.2.base = some x.2.order) ∨ (x.1 = false ∧ x.2 ∈ A)}

/-- The frames of a tagged block. -/
def ownedFrames (x : Bool × Block) : Set ℕ := x.2.frames

/-- A block is aligned, of a known order, and inside the memory the allocator manages. -/
structure WellPlaced (b : Block) : Prop where
  aligned : b.Aligned
  order_lt : b.order < maxBuddyOrder
  base_pos : 0 < b.base
  end_le : b.base + 2 ^ b.order ≤ pmmPoolStartPfn

/-- Free and allocated blocks tile part of the memory, and the counters are right. -/
structure Tiling (lists : ListStore ℕ ℕ) (count : ℕ → U64) (A : Finset Block) : Prop where
  disjoint : (owned lists A).PairwiseDisjoint ownedFrames
  placed : ∀ x ∈ owned lists A, WellPlaced x.2
  count_eq : ∀ o, count o = BitVec.ofNat 64 (lists.queue o).length

/-- The number of frames on the free lists. -/
def listed (lists : ListStore ℕ ℕ) : ℕ :=
  ∑ o ∈ Finset.range maxBuddyOrder, (lists.queue o).length * 2 ^ o

section Tiling

variable {lists : ListStore ℕ ℕ} {count : ℕ → U64} {A : Finset Block} {p o k : ℕ}

/-- The free blocks are those in the lists. -/
@[simp]
theorem mem_owned_true {b : Block} :
    (true, b) ∈ owned lists A ↔ lists.home b.base = some b.order := by
  simp [owned]

/-- The other blocks are those handed out. -/
@[simp]
theorem mem_owned_false {b : Block} : (false, b) ∈ owned lists A ↔ b ∈ A := by
  simp [owned]

/-- Two existing blocks that share a frame are the same. -/
theorem Tiling.eq_of_mem_frames (h : Tiling lists count A) {x y : Bool × Block} {f : ℕ}
    (hx : x ∈ owned lists A) (hy : y ∈ owned lists A) (hfx : f ∈ x.2.frames)
    (hfy : f ∈ y.2.frames) : x = y := by
  by_contra hne
  exact Set.disjoint_left.mp (h.disjoint hx hy hne) hfx hfy

/-- A page inside an allocated block is on no free list. -/
theorem Tiling.home_eq_none (h : Tiling lists count A) {b : Block} (hb : b ∈ A) {f : ℕ}
    (hf : f ∈ b.frames) : lists.home f = none := by
  cases hhome : lists.home f with
  | none => rfl
  | some o =>
      have := h.eq_of_mem_frames (x := (true, ⟨f, o⟩)) (y := (false, b)) (by simpa using hhome)
        (by simpa using hb) (Block.base_mem_frames _) hf
      cases this

/-- Replacing existing blocks by blocks inside their union keeps a tiling. -/
theorem Tiling.replace {lists' : ListStore ℕ ℕ} {count' : ℕ → U64} {A' : Finset Block}
    {R T : Set (Bool × Block)} (h : Tiling lists count A) (hR : R ⊆ owned lists A)
    (hT : T.PairwiseDisjoint ownedFrames) (hsub : ∀ t ∈ T, t.2.frames ⊆ ⋃ r ∈ R, r.2.frames)
    (hplaced : ∀ t ∈ T, WellPlaced t.2)
    (hnew : ∀ x ∈ owned lists' A', x ∈ T ∨ (x ∈ owned lists A ∧ x ∉ R))
    (hcount : ∀ o, count' o = BitVec.ofNat 64 (lists'.queue o).length) :
    Tiling lists' count' A' where
  disjoint := (h.disjoint.replace hR hT hsub).subset fun x hx => (hnew x hx).symm
  placed x hx := (hnew x hx).elim (hplaced x) fun hold => h.placed x hold.1
  count_eq := hcount

/-! ### Counters

The counters of the lists have 64 bits, and no list is that long. -/

/-- Counters stay right when a node is linked. -/
theorem count_link (hcount : ∀ o, count o = BitVec.ofNat 64 (lists.queue o).length)
    {q : List ℕ} (hq : q.length = (lists.queue o).length + 1) (i : ℕ) :
    Function.update count o (count o + 1) i =
      BitVec.ofNat 64 (Function.update lists.queue o q i).length := by
  by_cases hi : i = o
  · subst hi
    rw [Function.update_self, Function.update_self, hcount, hq, BitVec.ofNat_add]
    rfl
  · rw [Function.update_of_ne hi, Function.update_of_ne hi, hcount]

/-- Counters stay right when a node is unlinked from the list they count. -/
theorem count_unlink (hcount : ∀ o, count o = BitVec.ofNat 64 (lists.queue o).length)
    {q : List ℕ} (hq : q.length + 1 = (lists.queue o).length) (i : ℕ) :
    Function.update count o (count o - 1) i =
      BitVec.ofNat 64 (Function.update lists.queue o q i).length := by
  by_cases hi : i = o
  · subst hi
    rw [Function.update_self, Function.update_self, hcount, ← hq, BitVec.ofNat_add]
    exact BitVec.add_sub_cancel _ _
  · rw [Function.update_of_ne hi, Function.update_of_ne hi, hcount]

/-- Changing one list changes the number of listed frames by the difference of its lengths. -/
theorem listed_update {lists' : ListStore ℕ ℕ} {q : List ℕ} (ho : o < maxBuddyOrder)
    (hq : lists'.queue = Function.update lists.queue o q) :
    listed lists' + (lists.queue o).length * 2 ^ o = listed lists + q.length * 2 ^ o := by
  have hmem : o ∈ Finset.range maxBuddyOrder := Finset.mem_range.mpr ho
  rw [listed, listed, ← Finset.add_sum_erase _ _ hmem, ← Finset.add_sum_erase _ _ hmem, hq,
    Function.update_self]
  have hrest : ∑ i ∈ (Finset.range maxBuddyOrder).erase o,
      (Function.update lists.queue o q i).length * 2 ^ i =
        ∑ i ∈ (Finset.range maxBuddyOrder).erase o, (lists.queue i).length * 2 ^ i := by
    apply Finset.sum_congr rfl
    intro i hi
    rw [Function.update_of_ne (Finset.ne_of_mem_erase hi)]
  rw [hrest]
  ring

/-! ### The four elementary steps

Allocation is `take` and then `split` as often as needed; a release is `merge` as often as possible
and then `give`. Each step replaces blocks by blocks with the same frames. -/

/-- A free block becomes allocated. -/
theorem Tiling.take (h : Tiling lists count A) (hp : lists.home p = some o) :
    Tiling (lists.eraseAt p o hp) (Function.update count o (count o - 1)) (insert ⟨p, o⟩ A) ∧
      (⟨p, o⟩ : Block) ∉ A ∧ listed (lists.eraseAt p o hp) + 2 ^ o = listed lists := by
  have hmem : (true, ⟨p, o⟩) ∈ owned lists A := by simpa using hp
  have hplaced := h.placed _ hmem
  have hnot : (⟨p, o⟩ : Block) ∉ A := fun hA => by
    have := h.home_eq_none hA (Block.base_mem_frames _)
    rw [hp] at this
    cases this
  have hlen := ListStore.length_erase_add_one hp
  refine ⟨?_, hnot, ?_⟩
  -- the free block is replaced by the same block, allocated
  · refine h.replace (R := {(true, ⟨p, o⟩)}) (T := {(false, ⟨p, o⟩)}) (by simpa using hp)
      (Set.pairwiseDisjoint_singleton _ _) (by simp) (by simpa using hplaced) ?_
      (count_unlink h.count_eq hlen)
    rintro ⟨tag, b⟩ hx
    cases tag with
    | true =>
        rw [mem_owned_true, ListStore.eraseAt_home] at hx
        have hbase : b.base ≠ p := by
          rintro rfl
          rw [Function.update_self] at hx
          cases hx
        rw [Function.update_of_ne hbase] at hx
        refine Or.inr ⟨by simpa using hx, ?_⟩
        rw [Set.mem_singleton_iff]
        rintro heq
        exact hbase (congrArg (fun x => x.2.base) heq)
    | false =>
        rw [mem_owned_false, Finset.mem_insert] at hx
        rcases hx with rfl | hA
        · exact Or.inl rfl
        · exact Or.inr ⟨by simpa using hA, by simp⟩
  -- one block less of this order
  · have := listed_update (o := o) hplaced.order_lt
      (ListStore.eraseAt_queue lists p o hp)
    rw [← hlen, Nat.add_mul, one_mul] at this
    omega

/-- An allocated block becomes free. -/
theorem Tiling.give (h : Tiling lists count (insert ⟨p, o⟩ A)) (hnot : (⟨p, o⟩ : Block) ∉ A) :
    ∃ hp : lists.home p = none,
      Tiling (lists.snocAt p o hp) (Function.update count o (count o + 1)) A ∧
        listed (lists.snocAt p o hp) = listed lists + 2 ^ o := by
  have hmem : (false, ⟨p, o⟩) ∈ owned lists (insert ⟨p, o⟩ A) := by simp
  have hplaced := h.placed _ hmem
  have hp : lists.home p = none :=
    h.home_eq_none (Finset.mem_insert_self _ _) (Block.base_mem_frames _)
  refine ⟨hp, ?_, ?_⟩
  -- the allocated block is replaced by the same block, free
  · refine h.replace (R := {(false, ⟨p, o⟩)}) (T := {(true, ⟨p, o⟩)}) (by simp)
      (Set.pairwiseDisjoint_singleton _ _) (by simp) (by simpa using hplaced) ?_
      (count_link h.count_eq (by simp))
    rintro ⟨tag, b⟩ hx
    cases tag with
    | true =>
        rw [mem_owned_true, ListStore.snocAt_home] at hx
        by_cases hbase : b.base = p
        · left
          rw [hbase, Function.update_self] at hx
          rw [Set.mem_singleton_iff, ← hbase, Option.some.inj hx]
        · rw [Function.update_of_ne hbase] at hx
          exact Or.inr ⟨by simpa using hx, by simp⟩
    | false =>
        rw [mem_owned_false] at hx
        refine Or.inr ⟨by simp [hx], ?_⟩
        rw [Set.mem_singleton_iff]
        rintro heq
        cases heq
        exact hnot hx
  · have := listed_update (o := o) hplaced.order_lt
      (ListStore.snocAt_queue lists p o hp)
    rw [List.length_append, List.length_singleton, Nat.add_mul, one_mul] at this
    omega

/-- An allocated block keeps its lower half and gives the upper half back. -/
theorem Tiling.split (h : Tiling lists count (insert ⟨p, k + 1⟩ A))
    (hnot : (⟨p, k + 1⟩ : Block) ∉ A) :
    ∃ hp : lists.home (p ^^^ 2 ^ k) = none,
      Tiling (lists.consAt (p ^^^ 2 ^ k) k hp) (Function.update count k (count k + 1))
          (insert ⟨p, k⟩ A) ∧ (⟨p, k⟩ : Block) ∉ A ∧
        listed (lists.consAt (p ^^^ 2 ^ k) k hp) = listed lists + 2 ^ k := by
  have hmem : (false, ⟨p, k + 1⟩) ∈ owned lists (insert ⟨p, k + 1⟩ A) := by simp
  have hplaced := h.placed _ hmem
  -- the block begins at a multiple of its size, so its second half has the bit of the first set
  have hxor : p ^^^ 2 ^ k = p + 2 ^ k := Block.xor_two_pow_of_dvd hplaced.aligned
  -- the second half is inside of an allocated block, so it is on no list
  have hp : lists.home (p ^^^ 2 ^ k) = none := by
    refine h.home_eq_none (Finset.mem_insert_self _ _)
      (Block.frames_upper_subset p k (hxor ▸ Block.base_mem_frames ⟨p + 2 ^ k, k⟩))
  have hk : k < maxBuddyOrder := Nat.lt_of_succ_lt hplaced.order_lt
  have hend := hplaced.end_le
  have hdvd : 2 ^ k ∣ p := (pow_dvd_pow 2 (Nat.le_succ k)).trans hplaced.aligned
  simp only [pow_succ] at hend
  have hlow : WellPlaced ⟨p, k⟩ := ⟨hdvd, hk, hplaced.base_pos, by simp only; omega⟩
  have hhigh : WellPlaced ⟨p ^^^ 2 ^ k, k⟩ := by
    rw [hxor]
    exact ⟨(Nat.dvd_add_right hdvd).mpr dvd_rfl, hk, by simp only; omega, by simp only; omega⟩
  have hnot' : (⟨p, k⟩ : Block) ∉ A := fun hA => by
    have := h.eq_of_mem_frames (x := (false, ⟨p, k⟩)) (y := (false, ⟨p, k + 1⟩)) (f := p)
      (by simp [hA]) hmem (Block.base_mem_frames _) (Block.base_mem_frames _)
    simp at this
  refine ⟨hp, ?_, hnot', ?_⟩
  · refine h.replace (R := {(false, ⟨p, k + 1⟩)})
      (T := {(false, ⟨p, k⟩), (true, ⟨p ^^^ 2 ^ k, k⟩)}) (by simp) ?_ ?_ ?_ ?_
      (count_link h.count_eq (by simp))
    · rw [Set.pairwiseDisjoint_insert]
      refine ⟨Set.pairwiseDisjoint_singleton _ _, ?_⟩
      rintro x rfl -
      exact hxor ▸ Block.disjoint_halves p k
    · rintro t (rfl | rfl)
      · simpa using Block.frames_lower_subset p k
      · simpa [hxor] using Block.frames_upper_subset p k
    · rintro t (rfl | rfl)
      · exact hlow
      · exact hhigh
    · rintro ⟨tag, b⟩ hx
      cases tag with
      | true =>
          rw [mem_owned_true, ListStore.consAt_home] at hx
          by_cases hbase : b.base = p ^^^ 2 ^ k
          · left
            rw [hbase, Function.update_self] at hx
            rw [← hbase, Option.some.inj hx]
            exact Or.inr rfl
          · rw [Function.update_of_ne hbase] at hx
            exact Or.inr ⟨by simpa using hx, by simp⟩
      | false =>
          rw [mem_owned_false, Finset.mem_insert] at hx
          rcases hx with rfl | hA
          · exact Or.inl (Or.inl rfl)
          · refine Or.inr ⟨by simp [hA], ?_⟩
            rw [Set.mem_singleton_iff]
            rintro heq
            cases heq
            exact hnot hA
  · have := listed_update hk (ListStore.consAt_queue lists (p ^^^ 2 ^ k) k hp)
    rw [List.length_cons, Nat.add_mul, one_mul] at this
    omega

/-- An allocated block absorbs its buddy, a free block of the same order. -/
theorem Tiling.merge (h : Tiling lists count (insert ⟨p, k⟩ A)) (hnot : (⟨p, k⟩ : Block) ∉ A)
    (hk : k + 1 < maxBuddyOrder) (hp : lists.home (p ^^^ 2 ^ k) = some k) :
    Tiling (lists.eraseAt (p ^^^ 2 ^ k) k hp) (Function.update count k (count k - 1))
        (insert ⟨p &&& (p ^^^ 2 ^ k), k + 1⟩ A) ∧
      (⟨p &&& (p ^^^ 2 ^ k), k + 1⟩ : Block) ∉ A ∧
      listed (lists.eraseAt (p ^^^ 2 ^ k) k hp) + 2 ^ k = listed lists := by
  have hmem : (false, ⟨p, k⟩) ∈ owned lists (insert ⟨p, k⟩ A) := by simp
  have hmem' : (true, ⟨p ^^^ 2 ^ k, k⟩) ∈ owned lists (insert ⟨p, k⟩ A) := by simpa using hp
  have hplaced := h.placed _ hmem
  have hplaced' := h.placed _ hmem'
  obtain ⟨hdvd, hhalves⟩ := Block.and_xor_two_pow hplaced.aligned
  have hend := hplaced.end_le
  have hend' := hplaced'.end_le
  have hpos := hplaced.base_pos
  have hpos' := hplaced'.base_pos
  simp only at hend hend' hpos hpos' hhalves hdvd
  -- the lower of the two buddies begins at a multiple of the doubled size
  have hunion : WellPlaced ⟨p &&& (p ^^^ 2 ^ k), k + 1⟩ := by
    refine ⟨hdvd, hk, ?_, ?_⟩ <;> simp only [pow_succ] <;>
      rcases hhalves with ⟨h₁, h₂⟩ | ⟨h₁, h₂⟩ <;> omega
  -- a block that was allocated before cannot have the frames of this one
  have hnot' : (⟨p &&& (p ^^^ 2 ^ k), k + 1⟩ : Block) ∉ A := fun hA => by
    have hf : p ∈ (⟨p &&& (p ^^^ 2 ^ k), k + 1⟩ : Block).frames := by
      simp only [Block.mem_frames, pow_succ]
      rcases hhalves with ⟨h₁, h₂⟩ | ⟨h₁, h₂⟩ <;> omega
    have := h.eq_of_mem_frames (x := (false, ⟨p &&& (p ^^^ 2 ^ k), k + 1⟩))
      (y := (false, ⟨p, k⟩)) (by simp [hA]) hmem hf (Block.base_mem_frames _)
    simp at this
  have hlen := ListStore.length_erase_add_one hp
  refine ⟨?_, hnot', ?_⟩
  · refine h.replace (R := {(false, ⟨p, k⟩), (true, ⟨p ^^^ 2 ^ k, k⟩)})
      (T := {(false, ⟨p &&& (p ^^^ 2 ^ k), k + 1⟩)}) ?_ (Set.pairwiseDisjoint_singleton _ _) ?_
      (by simpa using hunion) ?_ (count_unlink h.count_eq hlen)
    · rintro x (rfl | rfl)
      · exact hmem
      · exact hmem'
    · rintro t rfl
      simpa using Block.frames_merge_subset hplaced.aligned
    -- whatever is owned now was owned before, or is the new block
    · rintro ⟨tag, b⟩ hx
      cases tag with
      | true =>
          rw [mem_owned_true, ListStore.eraseAt_home] at hx
          have hbase : b.base ≠ p ^^^ 2 ^ k := by
            intro hbase
            rw [hbase, Function.update_self] at hx
            cases hx
          rw [Function.update_of_ne hbase] at hx
          refine Or.inr ⟨by simpa using hx, ?_⟩
          rintro (heq | heq)
          · cases heq
          · exact hbase (congrArg (fun x => x.2.base) heq)
      | false =>
          rw [mem_owned_false, Finset.mem_insert] at hx
          rcases hx with rfl | hA
          · exact Or.inl rfl
          · refine Or.inr ⟨by simp [hA], ?_⟩
            rintro (heq | heq)
            · cases heq
              exact hnot hA
            · cases heq
  · have := listed_update (o := k) hplaced.order_lt
      (ListStore.eraseAt_queue lists (p ^^^ 2 ^ k) k hp)
    rw [← hlen, Nat.add_mul, one_mul] at this
    omega

end Tiling

/-! ### Allocation

The loops in terms of the elementary steps, by induction on the orders that are left. -/

/-- The splitting loop gives back the upper halves, down to the requested order. -/
theorem splitLoop_spec {A : Finset Block} {p order : ℕ} (left : ℕ) (s : Pmm)
    (h : Tiling s.freeList s.freeCount (insert ⟨p, order + left⟩ A))
    (hnot : (⟨p, order + left⟩ : Block) ∉ A) :
    ∃ s', s.splitLoop p order left = some s' ∧
      Tiling s'.freeList s'.freeCount (insert ⟨p, order⟩ A) ∧ (⟨p, order⟩ : Block) ∉ A ∧
      listed s'.freeList + 2 ^ order = listed s.freeList + 2 ^ (order + left) ∧
      s'.freePages = s.freePages := by
  induction left generalizing s with
  | zero => exact ⟨s, rfl, h, hnot, rfl, rfl⟩
  | succ left ih =>
      rw [← Nat.add_assoc] at h hnot
      obtain ⟨hfree, htiling, hnot', hlisted⟩ := Tiling.split h hnot
      obtain ⟨s', hs', htiling', hnot'', hlisted', hpages⟩ := ih { s with
        isFree := Function.update s.isFree (p ^^^ 2 ^ (order + left)) true
        freeList := s.freeList.consAt (p ^^^ 2 ^ (order + left)) (order + left) hfree
        freeCount := Function.update s.freeCount (order + left)
          (s.freeCount (order + left) + 1) } htiling hnot'
      -- the half put on the list adds its pages to what is listed
      refine ⟨s', ?_, htiling', hnot'', ?_, hpages⟩
      · rw [splitLoop, ListStore.pushFront_eq_some _ hfree]
        exact hs'
      · simp only at hlisted'
        rw [hlisted', hlisted, ← Nat.add_assoc order left 1, pow_succ]
        ring

/-- Taking a free block of an order at least the requested one. -/
theorem takeBlock_spec {A : Finset Block} {s : Pmm} {order curr p : ℕ}
    (h : Tiling s.freeList s.freeCount A) (hle : order ≤ curr)
    (hp : s.freeList.home p = some curr) :
    ∃ s', s.takeBlock order curr p = some (some (pfnToPhys p), s') ∧
      Tiling s'.freeList s'.freeCount (insert ⟨p, order⟩ A) ∧ (⟨p, order⟩ : Block) ∉ A ∧
      listed s'.freeList + 2 ^ order = listed s.freeList ∧
      s'.freePages = s.freePages - BitVec.ofNat 64 (2 ^ order) := by
  obtain ⟨htiling, hnot, hlisted⟩ := Tiling.take h hp
  have hcurr : order + (curr - order) = curr := Nat.add_sub_cancel' hle
  -- the block taken off its list is of order `curr`, which is `order` and what is split off
  obtain ⟨s', hs', htiling', hnot', hlisted', hpages⟩ := splitLoop_spec (curr - order)
    { s with
      freeList := s.freeList.eraseAt p curr hp
      freeCount := Function.update s.freeCount curr (s.freeCount curr - 1) }
    (hcurr.symm ▸ htiling) (hcurr.symm ▸ hnot)
  rw [hcurr] at hlisted'
  refine ⟨{ s' with
    isFree := Function.update s'.isFree p false
    freePages := s'.freePages - BitVec.ofNat 64 (2 ^ order) }, ?_, htiling', hnot', ?_, ?_⟩
  · rw [takeBlock, ListStore.unlink_eq_some hp, Option.bind_eq_bind, Option.bind_some, hs']
    rfl
  · simp only at hlisted' ⊢
    omega
  · rw [hpages]

/-- The search for a nonempty list returns `NULL` with nothing changed, or a block. -/
theorem allocScan_spec {A : Finset Block} {s : Pmm} {order : ℕ} (left curr : ℕ)
    (h : Tiling s.freeList s.freeCount A) (hle : order ≤ curr) :
    s.allocScan order left curr = some (none, s) ∨
      ∃ p s', s.allocScan order left curr = some (some (pfnToPhys p), s') ∧
        Tiling s'.freeList s'.freeCount (insert ⟨p, order⟩ A) ∧ (⟨p, order⟩ : Block) ∉ A ∧
        listed s'.freeList + 2 ^ order = listed s.freeList ∧
        s'.freePages = s.freePages - BitVec.ofNat 64 (2 ^ order) := by
  induction left generalizing curr with
  | zero => exact Or.inl rfl
  | succ left ih =>
      unfold allocScan
      -- an empty list is passed over; the first block of a list that has one is taken
      cases hq : s.freeList.queue curr with
      | nil => exact ih (curr + 1) (by omega)
      | cons p rest =>
          obtain ⟨s', hs'⟩ := takeBlock_spec h hle
            (ListStore.home_of_mem (n := p) (h := curr) (by simp [hq]))
          exact Or.inr ⟨p, s', hs'⟩

/-- `pmm_alloc_pages` is defined on every tiling. It returns `NULL` and changes nothing, or takes
a block of the requested order, which was not allocated, out of the free frames. -/
theorem pmmAllocPages_spec {A : Finset Block} {s : Pmm} (order : ℤ)
    (h : Tiling s.freeList s.freeCount A) :
    s.pmmAllocPages order = some (none, s) ∨
      ∃ p s', s.pmmAllocPages order = some (some (pfnToPhys p), s') ∧
        Tiling s'.freeList s'.freeCount (insert ⟨p, order.toNat⟩ A) ∧
        (⟨p, order.toNat⟩ : Block) ∉ A ∧
        listed s'.freeList + 2 ^ order.toNat = listed s.freeList ∧
        s'.freePages = s.freePages - BitVec.ofNat 64 (2 ^ order.toNat) := by
  unfold pmmAllocPages
  split
  · exact Or.inl rfl
  · exact allocScan_spec _ _ h le_rfl

/-! ### Release

`Mergeable` is the condition under which the loop meets only buddies of the right order. It is a
condition on the state before the call, and is handed on from one merge to the next. -/

/-- The start of the buddy of the block of order `j` around `pfn`. -/
def buddyAt (pfn j : ℕ) : ℕ := pfn / 2 ^ j * 2 ^ j ^^^ 2 ^ j

/-- Freeing the block at `pfn` of order `k` meets no buddy of the wrong order: whenever the loop
gets to an order `j` (the buddies below it are all flagged) and the buddy there is flagged, that
buddy is on the free list of order `j`. -/
def Mergeable (s : Pmm) (pfn k : ℕ) : Prop :=
  ∀ j, k ≤ j → j + 1 < maxBuddyOrder → (∀ i, k ≤ i → i ≤ j → s.isFree (buddyAt pfn i)) →
    s.freeList.home (buddyAt pfn j) = some j

/-- The buddy of an aligned block, by its address. -/
theorem buddyAt_of_dvd {p k : ℕ} (h : 2 ^ k ∣ p) : buddyAt p k = p ^^^ 2 ^ k := by
  rw [buddyAt, Nat.div_mul_cancel h]

/-- A block and its buddy lie in the same blocks of every larger order. -/
theorem xor_div_two_pow {k j : ℕ} (p : ℕ) (h : k < j) : (p ^^^ 2 ^ k) / 2 ^ j = p / 2 ^ j := by
  have hzero : 2 ^ k / 2 ^ j = 0 := Nat.div_eq_of_lt (Nat.pow_lt_pow_right (by omega) h)
  rw [← Nat.shiftRight_eq_div_pow, Nat.shiftRight_xor_distrib, Nat.shiftRight_eq_div_pow,
    Nat.shiftRight_eq_div_pow, hzero, Nat.xor_zero]

/-- So does their union. -/
theorem and_div_two_pow {k j : ℕ} (p : ℕ) (h : k < j) :
    (p &&& (p ^^^ 2 ^ k)) / 2 ^ j = p / 2 ^ j := by
  rw [← Nat.shiftRight_eq_div_pow, Nat.shiftRight_and_distrib, Nat.shiftRight_eq_div_pow,
    Nat.shiftRight_eq_div_pow, xor_div_two_pow p h, Nat.and_self]

/-- The buddy of a larger block around `p` is outside it. -/
theorem buddyAt_ne_xor {k j : ℕ} (p : ℕ) (h : k < j) : buddyAt p j ≠ p ^^^ 2 ^ k := by
  intro heq
  have hdiv := congrArg (· / 2 ^ j) heq
  simp only [xor_div_two_pow p h, buddyAt] at hdiv
  have hself : 2 ^ j / 2 ^ j = 1 := Nat.div_self (Nat.two_pow_pos j)
  rw [← Nat.shiftRight_eq_div_pow, Nat.shiftRight_xor_distrib, Nat.shiftRight_eq_div_pow,
    Nat.shiftRight_eq_div_pow, hself, Nat.mul_div_cancel _ (Nat.two_pow_pos j)] at hdiv
  have hxor : p / 2 ^ j ^^^ (p / 2 ^ j ^^^ 1) = 0 := by rw [hdiv, Nat.xor_self]
  rw [← Nat.xor_assoc, Nat.xor_self, Nat.zero_xor] at hxor
  cases hxor

/-- After one merge the larger block meets no buddy of the wrong order either. -/
theorem Mergeable.step {s : Pmm} {p k : ℕ} (h : s.Mergeable p k) (hdvd : 2 ^ k ∣ p)
    (hfree : s.isFree (p ^^^ 2 ^ k)) (hp : s.freeList.home (p ^^^ 2 ^ k) = some k) :
    Mergeable { s with
      freeList := s.freeList.eraseAt (p ^^^ 2 ^ k) k hp
      isFree := Function.update s.isFree (p ^^^ 2 ^ k) false
      freeCount := Function.update s.freeCount k (s.freeCount k - 1) }
      (p &&& (p ^^^ 2 ^ k)) (k + 1) := by
  intro j hkj hj hflags
  -- from the next order on, the buddies of the merged block are those of `p`
  have hsame : ∀ i, k + 1 ≤ i → buddyAt (p &&& (p ^^^ 2 ^ k)) i = buddyAt p i := by
    intro i hi
    rw [buddyAt, buddyAt, and_div_two_pow p hi]
  simp only [hsame j hkj, ListStore.eraseAt_home,
    Function.update_of_ne (buddyAt_ne_xor p hkj)]
  apply h j (by omega) hj
  intro i hki hij
  rcases Nat.eq_or_lt_of_le hki with rfl | hlt
  · rwa [buddyAt_of_dvd hdvd]
  · have := hflags i hlt hij
    simpa only [hsame i hlt, Function.update_of_ne (buddyAt_ne_xor p hlt)] using this

/-- The merging loop, when it meets no buddy of the wrong order, ends with one larger block made
of the freed one and buddies that were free. -/
theorem coalesce_spec {A : Finset Block} (left : ℕ) (s : Pmm) {p k : ℕ}
    (h : Tiling s.freeList s.freeCount (insert ⟨p, k⟩ A)) (hnot : (⟨p, k⟩ : Block) ∉ A)
    (hleft : k + left < maxBuddyOrder) (hmerge : s.Mergeable p k) :
    ∃ s' p' k', s.coalesce p k left = some (s', p', k') ∧
      Tiling s'.freeList s'.freeCount (insert ⟨p', k'⟩ A) ∧ (⟨p', k'⟩ : Block) ∉ A ∧
      listed s'.freeList + 2 ^ k' = listed s.freeList + 2 ^ k ∧ s'.freePages = s.freePages := by
  induction left generalizing s p k with
  | zero => exact ⟨s, p, k, rfl, h, hnot, rfl, rfl⟩
  | succ left ih =>
      have hdvd : 2 ^ k ∣ p := (h.placed (false, ⟨p, k⟩) (by simp)).aligned
      unfold coalesce
      by_cases hfree : s.isFree (p ^^^ 2 ^ k)
      -- this is what the condition says of the first buddy; `hmerge.step` is the rest of it
      · have hp : s.freeList.home (p ^^^ 2 ^ k) = some k := by
          have := hmerge k le_rfl (by omega) fun i hki hik => by
            obtain rfl : i = k := by omega
            rwa [buddyAt_of_dvd hdvd]
          rwa [buddyAt_of_dvd hdvd] at this
        obtain ⟨htiling, hnot', hlisted⟩ := Tiling.merge h hnot (by omega) hp
        obtain ⟨s', p', k', hs', htiling', hnot'', hlisted', hpages⟩ :=
          ih { s with
            freeList := s.freeList.eraseAt (p ^^^ 2 ^ k) k hp
            isFree := Function.update s.isFree (p ^^^ 2 ^ k) false
            freeCount := Function.update s.freeCount k (s.freeCount k - 1) } htiling hnot'
            (by omega) (hmerge.step hdvd hfree hp)
        refine ⟨s', p', k', ?_, htiling', hnot'', ?_, hpages⟩
        · simp only [hfree, Bool.not_true, Bool.false_eq_true, if_false,
            ListStore.unlink_eq_some hp]
          exact hs'
        · simp only at hlisted'
          rw [pow_succ] at hlisted'
          omega
      -- a buddy that is not free ends the loop
      · exact ⟨s, p, k, by simp [hfree], h, hnot, rfl, rfl⟩

/-- A frame number is that of its address. -/
theorem physToPfn_pfnToPhys (p : ℕ) : physToPfn (pfnToPhys p) = p := by
  simp [physToPfn, pfnToPhys]

/-- `pmm_free_pages` of an allocated block is defined and keeps the tiling, provided it meets no
buddy of the wrong order. -/
theorem pmmFreePages_spec {A : Finset Block} {s : Pmm} {b : Block}
    (h : Tiling s.freeList s.freeCount A) (hb : b ∈ A) (hmerge : s.Mergeable b.base b.order) :
    ∃ s', s.pmmFreePages (pfnToPhys b.base) b.order = some s' ∧
      Tiling s'.freeList s'.freeCount (A.erase b) ∧
      listed s'.freeList = listed s.freeList + 2 ^ b.order ∧
      s'.freePages = s.freePages + BitVec.ofNat 64 (2 ^ b.order) := by
  obtain ⟨p, k⟩ := b
  have hplaced := h.placed (false, ⟨p, k⟩) (by simpa using hb)
  have hk : k < maxBuddyOrder := hplaced.order_lt
  have hpos : pfnToPhys p ≠ 0 := by
    have : 0 < p := hplaced.base_pos
    rw [pfnToPhys, Nat.shiftLeft_eq]
    exact Nat.mul_ne_zero (by omega) (Nat.two_pow_pos _).ne'
  obtain ⟨s', p', k', hs', htiling, hnot, hlisted, hpages⟩ := coalesce_spec
    (maxBuddyOrder - 1 - k) s (p := p) (k := k) ((Finset.insert_erase hb).symm ▸ h)
    (Finset.notMem_erase _ _) (by omega) hmerge
  obtain ⟨hfree, htiling', hlisted'⟩ := Tiling.give htiling hnot
  refine ⟨{ s' with
    isFree := Function.update s'.isFree p' true
    freeList := s'.freeList.snocAt p' k' hfree
    freeCount := Function.update s'.freeCount k' (s'.freeCount k' + 1)
    freePages := s'.freePages + BitVec.ofNat 64 (2 ^ k) }, ?_, htiling', ?_, ?_⟩
  -- none of the tests at the head refuses the block
  · have hguard : ¬ (pfnToPhys p = 0 ∨ (k : ℤ) < 0 ∨ (k : ℤ) ≥ maxBuddyOrder) := by
      push Not
      exact ⟨hpos, by omega, by exact_mod_cast hk⟩
    rw [pmmFreePages, if_neg hguard, physToPfn_pfnToPhys, Int.toNat_natCast, hs',
      Option.bind_eq_bind, Option.bind_some]
    simp only [ListStore.pushBack_eq_some k' hfree]
    rfl
  · simp only
    omega
  · rw [hpages]

end Pmm

end Koharu
