import Koharu.Mm.TlsfCalls

/-!
# Blocks get another size

`tlsf_realloc` in memory, and stores into blocks that are in use, as its `memcpy` makes them.

The call has three ways to go. The block has enough bytes for the new size, and what is too much is
cut off. It has not, but with the free block behind it it has, so that it takes this block and is
cut then. Or another block is allocated, what is in the old one is copied, and the old one is freed.
`Moves` says what becomes of the blocks in use, and `Keeps` what becomes of their bytes; each of the
ways has a lemma of its own. A request that `adjust_request_size` takes to zero goes the first way,
and the block is cut to nothing: its header is then the last one of a pool, and a new pool begins
behind it.

* `Good.of_agree`: what is not in the heap does not matter to it;
* `Good.store`, `Good.byte`: nor does what is in a block in use, which the heap leaves alone;
* `memcpy_apply`: what `memcpy` leaves;
* `Good.expand`, `Good.trimUsed`: a block in use takes the free block behind it, and is cut;
* `Good.tlsfRealloc`: the call.
-/

namespace Koharu

open Tlsf WordMemory Tiling

namespace TlsfMem

variable {control : Addr} {m m' : TlsfMem} {c : Control} {pools pools' : List Pool} {C : Ctx}
  {r : List Tile} {x y : ℕ × ℕ} {d s S n z : ℕ} {f : Bool} {mem mem' : Addr → BitVec 8}
  {size : Size}

/-! ### Stores into blocks

The contents of blocks in use are none of the words that the heap reads. -/

/-- What is not in the heap, or is in a block in use, does not matter to the heap. -/
theorem Good.of_agree {S : Set ℕ} (h : Good control m c pools) (hagree : Agree S m.mem mem')
    (hS : ∀ w ∈ S, w ∉ Spare control pools) : Good control { m with mem := mem' } c pools := by
  have hlinks := (h.layout.linkWords (Rep.sub h)).2
  refine ⟨h.layout, fun e he => ?_, ?_, Rep.sub h⟩
  · have hok := h.layout.headerOk he
    have ha := hok.addr_dvd
    have hs := hok.size_dvd
    have hle := hok.le
    have hmin := hok.min
    obtain ⟨htag, hback⟩ := Rep.tagged h e he
    -- the words that the heap keeps for itself are outside `S`
    have hsame : ∀ w, 8 ∣ w → w + 8 ≤ 2 ^ 64 → w ∈ Spare control pools →
      wordAt mem' w = wordAt m.mem w :=
      fun w hw hwn hspare => hagree w hw hwn fun hin => hS w hin hspare
    refine ⟨?_, fun hfree => ?_⟩
    · rw [hsame _ (by omega) (by omega) (h.layout.spare he (by omega) (.inl rfl)), htag]
    · have hpos : e.size ≠ 0 := fun hzero => by
        cases (hok.last hzero).symm.trans hfree
      have hspare := h.layout.spare he (w := e.addr + 8 + e.size) (by omega)
        (.inr ⟨hfree, by omega, le_rfl⟩)
      rw [hsame _ (by omega) (by omega) hspare, hback hfree]
  -- and so are the link words of its free blocks
  · refine (Rep.lists h).congr (Rep.nodes h) rfl rfl rfl hagree fun y hy =>
      ⟨fun hin => hS _ hin ?_, fun hin =>
      hS _ hin ?_⟩
    · exact hlinks ⟨y.1, .inr ⟨y, hy, rfl⟩, .inl rfl⟩
    · exact hlinks ⟨y.1, .inr ⟨y, hy, rfl⟩, .inr rfl⟩

/-- The words of a block handed out are not spare. -/
theorem notMem_spare (hx : x ∈ blocksOf false pools) (hz : x.1 + 16 ≤ z ∧ z < x.1 + 16 + x.2)
    (hd : 8 ∣ z) (hxd : 8 ∣ x.1) : z ∉ Spare control pools := by
  obtain ⟨p, hp⟩ := hx
  intro hin
  have := hin.2 _ hp rfl
  simp only at this
  omega

/-- What is in a block in use may be stored to. -/
theorem Good.store (h : Good control m c pools) (hx : x ∈ blocksOf false pools)
    (hsame : ∀ b : Addr, b.toNat < x.1 + 16 ∨ x.1 + 16 + x.2 ≤ b.toNat → mem' b = m.mem b) :
    Good control { m with mem := mem' } c pools := by
  obtain ⟨p, hp⟩ := id hx
  have hok := h.layout.headerOk hp
  have hxd := hok.addr_dvd
  have hxs := hok.size_dvd
  have hxle := hok.le
  simp only at hxd hxs hxle
  -- the bytes of a block in use are none of the words that the heap reads
  have hagree : Agree {w | 8 ∣ w ∧ x.1 + 16 ≤ w ∧ w < x.1 + 16 + x.2} m.mem mem' := by
    intro w hw hwn hout
    rw [Set.mem_ofPred_eq] at hout
    apply load_eq_iff.mpr
    intro i hi
    rw [← BitVec.ofNat_add]
    apply hsame _
    rw [BitVec.toNat_ofNat, Nat.mod_eq_of_lt (by omega)]
    omega
  exact h.of_agree hagree fun w hw => notMem_spare hx hw.2 hw.1 hxd

/-- A byte of a block in use is not among what the heap stores to. -/
theorem Good.byte (h : Good control m c pools) (hx : x ∈ blocksOf false pools)
    (hz : x.1 + 16 ≤ z ∧ z < x.1 + 16 + x.2) (hagree : Agree (Spare control pools) mem mem') :
    mem' (BitVec.ofNat 64 z) = mem (BitVec.ofNat 64 z) := by
  obtain ⟨p, hp⟩ := hx
  have hok := h.layout.headerOk hp
  have hxd := hok.addr_dvd
  have hxs := hok.size_dvd
  have hxle := hok.le
  simp only at hxd hxs hxle
  refine hagree.byte (by omega) (by decide) (notMem_spare ⟨p, hp⟩ ?_ (Nat.dvd_mul_left ..) hxd)
  omega

/-- What `memcpy` leaves, where it writes no byte that it reads later. -/
theorem memcpy_apply (count : ℕ) (mem : Addr → BitVec 8) (hd : d + count ≤ 2 ^ 64)
    (hs : s + count ≤ 2 ^ 64) (hapart : d ≤ s ∨ s + count ≤ d) (b : Addr) :
    memcpy (BitVec.ofNat 64 d) (BitVec.ofNat 64 s) count mem b =
      if d ≤ b.toNat ∧ b.toNat <
      d + count then mem (BitVec.ofNat 64 (s + (b.toNat - d))) else mem b := by
  have hb := b.isLt
  induction count generalizing d s mem with
  | zero =>
      rw [memcpy, if_neg (by omega)]
  | succ count ih =>
      have hnext : ∀ v : ℕ, BitVec.ofNat 64 v + 1#64 = BitVec.ofNat 64 (v + 1) :=
        fun v => ofNat_add_ofNat v 1
      rw [memcpy, hnext, hnext, ih _ (by omega) (by omega) (by omega)]
      -- a byte behind the first comes from the rest of the copy, which does not reach the first one
      by_cases hin : d + 1 ≤ b.toNat ∧ b.toNat < d + 1 + count
      · rw [if_pos hin, if_pos (by omega),
          show s + 1 + (b.toNat - (d + 1)) = s + (b.toNat - d) by omega]
        refine Function.update_of_ne (fun heq => ?_) _ _
        have := (ofNat_inj (by omega) (by omega)).mp heq
        omega
      rw [if_neg hin]
      -- the first byte is stored before the rest, whose source starts behind it
      by_cases hfirst : b.toNat = d
      · obtain rfl : b = BitVec.ofNat 64 d := by
          rw [← hfirst, BitVec.ofNat_toNat, BitVec.setWidth_eq]
        rw [if_pos (by omega), hfirst, Nat.sub_self, Nat.add_zero, Function.update_self]
      · rw [if_neg (by omega)]
        refine Function.update_of_ne (fun heq => hfirst ?_) _ _
        rw [heq, BitVec.toNat_ofNat, Nat.mod_eq_of_lt (by omega)]

/-! ### Blocks in use grow and shrink

Both keep the block's address; only what is behind it changes. -/

/-- `block_trim_used`. -/
theorem Good.trimUsed (h : Good control m c (C.fill [⟨S, false⟩])) (hs : 24 ≤ s ∧ 8 ∣ s)
    (hle : s ≤ S) :
    ∃ m' c' pools' s', m.blockTrimUsed control (BitVec.ofNat 64 (C.addr 8))
      (BitVec.ofNat 64 s) = some m' ∧
      Good control m' c' pools' ∧ s ≤ s' ∧ (32 + s ≤ S → s' = s) ∧
      blocksOf false pools' = insert (C.addr 8, s') (blocksOf false (C.fill [⟨S, true⟩])) ∧
      extents pools' = extents (C.fill [⟨S, true⟩]) ∧
        Stores (Spare control pools') m.mem m'.mem := by
  obtain ⟨hmin, hd, hlt, ha, hend⟩ := h.layout.bounds
  have hused := blockIsFree_eq (Rep.focus h) hd
  have hcan := blockCanSplit_eq (Rep.focus h) hd hlt (show s < 2 ^ 32 by omega)
  rw [blockTrimUsed, tlsfAssert_bind hused]
  by_cases hroom : 32 + s ≤ S
  · obtain ⟨n, rfl⟩ : ∃ n, S = s + 8 + n := ⟨S - (s + 8), by omega⟩
    rw [if_pos (hcan.trans (decide_eq_true hroom))]
    obtain ⟨m₁, hsplit, hrep, hstores⟩ :=
      Rep.splitUsed h (h.layout.notMem_blocksOf true) hs (n := n) ⟨by omega, by omega⟩
    -- the block that is cut off, as one that is on no list yet
    have hfill : ∀ f, C.fill [⟨s, false⟩, ⟨n, f⟩] =
        Ctx.fill { C with left := C.left ++ [⟨s, false⟩] } [⟨n, f⟩] := fun f => fill_cons C _ _
    have haddr : Ctx.addr { C with left := C.left ++ [⟨s, false⟩] } 8 = C.addr 8 + 8 + s :=
      addr_cons C _
    have hwidth : ∀ f g : Bool, C.addr 8 + width 8 [⟨s + 8 + n, f⟩] =
        C.addr 8 + width 8 [⟨s, false⟩, ⟨n, g⟩] := fun f g => by
      simp only [width]
      omega
    have hlists : blocksOf true (C.fill [⟨s + 8 + n, false⟩]) =
        blocksOf true (C.fill [⟨s, false⟩, ⟨n, false⟩]) := by
      rw [blocksOf_fill [⟨s, false⟩, ⟨n, false⟩] rfl,
        blocksOf_fill [⟨s + 8 + n, false⟩] (hwidth false false)]
      simp [place]
    rw [hlists, hfill, hfill] at hrep
    have hopen : Open control _ c { C with left := C.left ++ [⟨s, false⟩] } n := hrep
    obtain ⟨c₂, C₂, s₂, haddr₂, hsame, hstep₂⟩ :=
      Open.mergeNext control c { C with left := C.left ++ [⟨s, false⟩] } n
    obtain ⟨m₂, hm₂, hopen₂, hstores₂⟩ := hstep₂ _ hopen
    obtain ⟨m₃, hm₃, hgood, hstores₃⟩ := hopen₂.insert
    rw [haddr] at hm₂ haddr₂
    rw [haddr₂] at hm₃
    rw [← hfill] at hsame hstores₂
    have hblocks : blocksOf false (C.fill [⟨s, false⟩, ⟨n, true⟩]) =
        insert (C.addr 8, s) (blocksOf false (C.fill [⟨s + 8 + n, true⟩])) := by
      rw [blocksOf_fill [⟨s, false⟩, ⟨n, true⟩] rfl,
        blocksOf_fill [⟨s + 8 + n, true⟩] (hwidth true true)]
      ext x
      simp [place]
    refine ⟨m₃, _, _, s, ?_, hgood, le_rfl, fun _ => rfl, hsame.1.trans hblocks, ?_, ?_⟩
    · rw [hsplit, Option.bind_eq_bind, Option.bind_some]
      exact (congrArg (· >>= _) hm₂).trans hm₃
    · exact hsame.2.trans (extents_fill (Nat.add_left_cancel (hwidth true true)).symm)
    · rw [hsame.spare] at hstores₃ ⊢
      apply (hstores.trans (hstores₂.trans hstores₃)).mono
      simp only [Set.union_self, subset_refl]
  · rw [if_neg fun heq => hroom (of_decide_eq_true (hcan.symm.trans heq))]
    exact ⟨m, c, _, S, rfl, h, hle, fun hroom' => absurd hroom' hroom, blocksOf_insert C S false,
      extents_fill rfl, Writes.refl _ _ _⟩

/-- A block in use takes the free block behind it, by `block_merge_next` and
`block_mark_as_used`. -/
theorem Good.expand (h : Good control m c (C.fill [⟨s, false⟩]))
    (hright : C.right = [⟨n, true⟩] ++ r) :
    ∃ m₁ m' c', m.blockMergeNext control (BitVec.ofNat 64 (C.addr 8)) = some m₁ ∧
      m₁.blockMarkAsUsed (BitVec.ofNat 64 (C.addr 8)) = some m' ∧
      Good control m' c' (Ctx.fill { C with right := r } [⟨s + (n + 8), false⟩]) ∧
      Alike (C.fill [⟨s, true⟩]) (Ctx.fill { C with right := r } [⟨s + (n + 8), true⟩]) ∧
      Stores (Spare control (C.fill [⟨s, false⟩])) m.mem m'.mem := by
  have hf : (C.next (C.addr 8 + 8 + s) false).free = true := by
    rw [Ctx.next, first, hright]
    rfl
  have hwidth : width 8 [⟨s + (n + 8), true⟩] = width 8 [⟨s, true⟩, ⟨n, true⟩] := by
    simp only [width]
    omega
  have hrep := h
  rw [Good, fill_right C r hright, List.singleton_append, blocksOf_second] at hrep
  obtain ⟨hnot₁, hnot₂⟩ := hrep.layout.notMem_joined
  obtain ⟨m₁, hm₁, hrep₁, hstores₁⟩ := hrep.blockRemove (Set.mem_insert _ _)
  rw [Set.insert_sdiff_self_of_notMem hnot₂] at hrep₁
  obtain ⟨m₂, m', hm₂, hm', hrep', hstores'⟩ := hrep₁.absorbUsed hnot₁ hnot₂
  -- the free block behind leaves its list and is absorbed
  refine ⟨m₂, m', _, ?_, hm', hrep', ⟨?_, ?_⟩, ?_⟩
  · rw [Rep.blockMergeNext_eq h, if_pos hf]
    exact (congrArg (· >>= _) hm₁).trans hm₂
  · rw [fill_right C r hright, List.singleton_append, blocksOf_fill [⟨s, true⟩, ⟨n, true⟩] rfl,
      blocksOf_fill [⟨s + (n + 8), true⟩] (congrArg (_ + ·) hwidth)]
    simp [place]
  · rw [fill_right C r hright, List.singleton_append]
    exact extents_fill hwidth
  · rw [fill_right C r hright, List.singleton_append]
    exact (hstores₁.trans hstores').mono (Set.union_self _).le

/-! ### Blocks are cut to nothing

A size that `adjust_request_size` turns into zero makes the block's header look like the end of a
pool. The heap goes on to work with two pools in the place of one. -/

/-- The header of the block in the place becomes the last one of its pool, and another pool begins
behind it. -/
def emptied (C : Ctx) : Ctx := ⟨C.before ++ [⟨C.start, C.left⟩], C.addr 8 + 8, [], C.right, C.after⟩

/-- The place behind a header without bytes. -/
theorem emptied_addr (C : Ctx) : (emptied C).addr 8 = C.addr 8 + 8 := rfl

/-- The block behind it is the one from before. -/
theorem next_emptied (C : Ctx) (n : ℕ) (p : Bool) : (emptied C).next n p = C.next n p := rfl

/-- Its header is one more of those outside. -/
theorem outer_emptied : (emptied C).Outer 8 n e ↔
    C.Outer 8 n e ∨ e = ⟨C.addr 8, 0, false, C.prevFree⟩ := by
  -- taking the tiles out leaves a pool that ends where they began, with its sentinel there
  have hfirst : ∀ e, e ∈ Pool.headers 8 ⟨C.start, C.left⟩ ↔
      e ∈ place 8 C.start false C.left ∨ e = ⟨C.addr 8, 0, false, C.prevFree⟩ := fun e => by
    rw [Pool.headers, List.mem_append, List.mem_singleton]
    rfl
  rw [Ctx.Outer, Ctx.Outer, emptied]
  simp only [List.mem_append, List.mem_singleton, place, List.not_mem_nil, false_or]
  constructor
  · rintro (⟨P, (hP | rfl) | hP, he⟩ | he)
    · exact .inl (.inl ⟨P, .inl hP, he⟩)
    · exact ((hfirst e).mp he).imp_left fun he => .inr (.inl he)
    · exact .inl (.inl ⟨P, .inr hP, he⟩)
    · exact .inl (.inr (.inr he))
  · rintro ((⟨P, hP | hP, he⟩ | he | he) | he)
    · exact .inl ⟨P, .inl (.inl hP), he⟩
    · exact .inl ⟨P, .inr hP, he⟩
    · exact .inl ⟨_, .inl (.inr rfl), (hfirst e).mpr (.inl he)⟩
    · exact .inr he
    · exact .inl ⟨_, .inl (.inr rfl), (hfirst e).mpr (.inr he)⟩

/-- Both pools are where the one was. -/
theorem Layout.emptied (h : Layout control (C.fill [⟨S, f⟩])) (hS : S = 8 + n)
    (hn : 24 ≤ n ∧ 8 ∣ n) :
    Layout control ((emptied C).fill [⟨n, g⟩]) := by
  subst hS
  have hmid := h.ok ⟨C.start, C.left ++ [⟨8 + n, f⟩] ++ C.right⟩
    (List.mem_append_right _ List.mem_cons_self)
  have hstart := hmid.start_dvd
  have hpos := hmid.start_pos
  have hle := hmid.stop_le
  have hlt := hmid.stop_lt
  have hcontrol := hmid.control
  have hleft : 8 ∣ width 8 C.left := width_dvd fun t ht =>
    hmid.tiles t (List.mem_append_left _ (List.mem_append_left _ ht))
  have haddr : C.addr 8 = C.start + width 8 C.left := rfl
  have hstop : (⟨C.start, C.left⟩ : Pool).stop 8 = C.addr 8 := rfl
  -- the second of the two pools ends where the whole one did
  have hstop' : (⟨C.addr 8 + 8, [⟨n, g⟩] ++ C.right⟩ : Pool).stop 8 =
      (⟨C.start, C.left ++ [⟨8 + n, f⟩] ++ C.right⟩ : Pool).stop 8 := by
    rw [Ctx.stop_middle, Pool.stop, width_append]
    simp only [width]
    omega
  have hend : (⟨C.start, C.left ++ [⟨8 + n, f⟩] ++ C.right⟩ : Pool).stop 8 =
      C.addr 8 + (8 + (8 + n)) + width 8 C.right := Ctx.stop_middle
  have hpairs := h.apart
  rw [Apart, Ctx.fill, List.pairwise_append, List.pairwise_cons] at hpairs
  obtain ⟨hbefore, ⟨hafter, hrest⟩, hcross⟩ := hpairs
  -- the pool is cut in two at the header of the block that is cut to nothing
  have hfill : (TlsfMem.emptied C).fill [⟨n, g⟩] =
      C.before ++ ⟨C.start, C.left⟩ :: ⟨C.addr 8 + 8, [⟨n, g⟩] ++ C.right⟩ :: C.after := by
    rw [Ctx.fill, TlsfMem.emptied, List.append_assoc, List.nil_append]
    rfl
  rw [hfill]
  simp only at hstart hpos hlt hcontrol hafter hcross
  refine ⟨h.control_dvd, h.control_pos, h.control_le, fun P hP => ?_, ?_⟩
  · rcases List.mem_append.mp hP with hP | hP
    · exact h.ok P (List.mem_append_left _ hP)
    rcases List.mem_cons.mp hP with rfl | hP
    · refine ⟨hstart, hpos, by rw [hstop]; omega, by rw [hstop]; simp only; omega, ?_, fun t ht =>
        hmid.tiles t (List.mem_append_left _ (List.mem_append_left _ ht))⟩
      rw [hstop]
      simp only
      omega
    rcases List.mem_cons.mp hP with rfl | hP
    · refine ⟨?_, ?_, hstop' ▸ hle, ?_, ?_, fun t ht => ?_⟩
      · simp only
        omega
      · simp only
        omega
      · rw [hstop']
        simp only
        omega
      · rw [hstop']
        simp only
        omega
      · rcases List.mem_append.mp ht with ht | ht
        · obtain rfl := List.mem_singleton.mp ht
          exact hn
        · exact hmid.tiles t (List.mem_append_right _ ht)
    · exact h.ok P (List.mem_append_right _ (List.mem_cons_of_mem _ hP))
  -- both are inside of what was apart from all other pools
  · rw [Apart, List.pairwise_append, List.pairwise_cons, List.pairwise_cons]
    refine ⟨hbefore, ⟨fun Q hQ => ?_, fun Q hQ => ?_, hrest⟩, fun P hP Q hQ => ?_⟩
    · rcases List.mem_cons.mp hQ with rfl | hQ
      · exact .inl (by rw [hstop])
      · have := hafter Q hQ
        rw [hstop]
        simp only
        omega
    · have := hafter Q hQ
      rw [hstop']
      simp only
      omega
    · have hout := hcross P hP _ List.mem_cons_self
      simp only at hout
      rcases List.mem_cons.mp hQ with rfl | hQ
      · rw [hstop]
        simp only
        omega
      rcases List.mem_cons.mp hQ with rfl | hQ
      · rw [hstop']
        simp only
        omega
      · exact hcross P hP Q (List.mem_cons_of_mem _ hQ)

/-- `block_split` of a block in use, where nothing is left of it. -/
theorem Rep.splitToZero (h : Rep control m c (C.fill [⟨0 + 8 + n, false⟩]) F)
    (hF : (C.addr 8, 0 + 8 + n) ∉ F) (hn : 24 ≤ n ∧ 8 ∣ n) :
    ∃ m₁, m.blockSplit (BitVec.ofNat 64 (C.addr 8)) (BitVec.ofNat 64 0) =
        some (BitVec.ofNat 64 (C.addr 8 + 8), m₁) ∧
      Rep control (m₁.blockSetPrevUsed (BitVec.ofNat 64 (C.addr 8 + 8))) c
        ((emptied C).fill [⟨n, true⟩]) F := by
  have ha := (h.layout.headerOk Ctx.head_mem_fill).addr_dvd
  have hle : C.addr 8 + 8 + (0 + 8 + n) + 16 + _ ≤ 2 ^ 64 := h.layout.next_ok.le
  have hnode := h.nodes
  simp only at ha
  obtain ⟨g, m₁, hm₁, hsplit⟩ := h.blockSplit (dvd_zero 8) hn
  refine ⟨m₁, hm₁, ?_⟩
  rw [show C.addr 8 + 8 = C.addr 8 + 8 + 0 from rfl, blockSetPrevUsed_eq hsplit.second hn.2]
  have hagree : Agree {w | C.addr 8 < w ∧ w ≤ C.addr 8 + 8 + 8 + n + 8} m.mem
      (m₁.setWord (BitVec.ofNat 64 (C.addr 8 + 8 + 0 + 8)) (tag n true false)).mem := by
    refine (hsplit.stores.agree.trans (stores_setWord m₁ (by omega) (by omega)
      (tag_mem_headerWords hn.2 _ _)).agree).mono ?_
    rintro w ((rfl | rfl | rfl | rfl) | rfl) <;> rw [Set.mem_ofPred_eq] <;> omega
  have hsame : ∀ w, 8 ∣ w → w + 8 ≤ 2 ^ 64 → w ≠ C.addr 8 + 8 + 0 + 8 →
      wordAt (m₁.setWord (BitVec.ofNat 64 (C.addr 8 + 8 + 0 + 8)) (tag n true false)).mem w =
        wordAt m₁.mem w := fun w hw hwn hne =>
        wordAt_setWord_of_ne _ _ (by omega) hw (by omega) hwn hne
  have hwidth : (emptied C).addr 8 + width 8 [⟨n, true⟩] =
    C.addr 8 + width 8 [⟨0 + 8 + n, false⟩] := by
    rw [emptied_addr]
    simp only [width]
    omega
  have hlayout : Layout control ((emptied C).fill [⟨n, true⟩]) := h.layout.emptied (by omega) hn
  have hout := h.outside (by simpa [place] using hF)
  simp only [width] at hout
  refine ⟨hlayout, fun e he => ?_, ?_, fun x hx => ?_⟩
  · rw [Ctx.mem_fill, outer_emptied, hwidth] at he
    rcases he with (hout | rfl) | he | rfl
    · -- a block somewhere else
      have hmem : e ∈ headers 8 (C.fill [⟨0 + 8 + n, false⟩]) := Ctx.mem_fill.mpr (.inl hout)
      have hok := h.layout.headerOk hmem
      have hea := hok.addr_dvd
      have hes := hok.size_dvd
      have hele := hok.le
      have hapart := Ctx.outer_apart false h.layout.apart hout
      simp only [width] at hapart
      obtain ⟨htag, hfoot⟩ := h.tagged e hmem
      refine ⟨?_, fun hfree => ?_⟩
      · rw [hagree _ (by omega) (by omega) (by rw [Set.mem_ofPred_eq]; omega), htag]
      · rw [hagree _ (by omega) (by omega) (by rw [Set.mem_ofPred_eq]; omega), hfoot hfree]
    · -- what is left of the block
      refine ⟨?_, fun hfree => by cases hfree⟩
      exact (hsame _ (by simp only; omega) (by simp only; omega) (by simp only; omega)).trans
        hsplit.first
    · -- the new block
      obtain rfl := List.mem_singleton.mp he
      refine ⟨wordAt_setWord_self _ _, fun _ => ?_⟩
      exact (hsame (C.addr 8 + 8 + 8 + n) (by omega) (by omega) (by omega)).trans hsplit.back
    · -- the header behind it
      have hmem := Ctx.next_mem_fill (C := C) (o := 8) [⟨0 + 8 + n, false⟩]
      have hok := h.layout.headerOk hmem
      obtain ⟨-, hfoot⟩ := h.tagged _ hmem
      have hes := hok.size_dvd
      have hele := hok.le
      have hmin := hok.min
      have hlast := hok.last
      have hend : C.addr 8 + width 8 [⟨0 + 8 + n, false⟩] = C.addr 8 + 8 + 8 + n := by
        simp only [width]
        omega
      rw [hend] at hfoot hes hele hmin hlast ⊢
      simp only [Ctx.next, first] at hfoot hes hele hmin hlast
      refine ⟨(hsame _ ?_ ?_ ?_).trans hsplit.next, fun hfree => ?_⟩
      · change 8 ∣ C.addr 8 + 8 + 8 + n + 8
        omega
      · change C.addr 8 + 8 + 8 + n + 8 + 8 ≤ _
        omega
      · change C.addr 8 + 8 + 8 + n + 8 ≠ _
        omega
      · have hpos : C.right.head?.elim 0 Tile.size ≠ 0 := fun hzero => by
          cases (hlast hzero).symm.trans hfree
        change wordAt _ (C.addr 8 + 8 + 8 + n + 8 + C.right.head?.elim 0 Tile.size) = _
        rw [hagree _ (by omega) (by omega) (by rw [Set.mem_ofPred_eq]; omega)]
        exact hfoot hfree
  · have heq := hsplit.eq
    refine h.lists.congr hnode ?_ ?_ ?_ hagree fun x hx => ?_
    · exact (congrArg TlsfMem.flBitmap heq :)
    · exact (congrArg TlsfMem.slBitmap heq :)
    · exact (congrArg TlsfMem.blocks heq :)
    have hmin := hnode.min x hx
    have hx' := hout x hx
    constructor
    · rw [Set.mem_ofPred_eq]
      omega
    · rw [Set.mem_ofPred_eq]
      omega
  · obtain ⟨q, hq⟩ := h.sub x hx
    have hx' := hout x hx
    rcases Ctx.mem_fill.mp hq with hin | he | heq
    · exact ⟨q, Ctx.mem_fill.mpr (.inl (by rw [hwidth, outer_emptied]; exact .inl hin))⟩
    · have hb := bounds_of_mem_place he
      simp only [width] at hb
      omega
    · refine ⟨lastFree false [⟨n, true⟩], Ctx.mem_fill.mpr (.inr (.inr ?_))⟩
      rw [hwidth]
      rw [Ctx.next, first, Header.mk.injEq] at heq ⊢
      exact ⟨heq.1, heq.2.1, heq.2.2.1, rfl⟩

/-- `block_trim_used` to no bytes. The header of the block looks like the last one of a pool. -/
theorem Good.trimToZero (h : Good control m c (C.fill [⟨S, false⟩])) (hS : 32 ≤ S) :
    ∃ m' c' pools', m.blockTrimUsed control (BitVec.ofNat 64 (C.addr 8))
      (BitVec.ofNat 64 0) = some m' ∧
      Good control m' c' pools' ∧ (C.addr 8, 0) ∈ blocksOf false pools' := by
  obtain ⟨hmin, hd, hlt, ha, hend⟩ := h.layout.bounds
  obtain ⟨n, rfl⟩ : ∃ n, S = 0 + 8 + n := ⟨S - 8, by omega⟩
  have hused := blockIsFree_eq (Rep.focus h) hd
  have hcan := blockCanSplit_eq (s := 0) (Rep.focus h) hd hlt (by decide)
  obtain ⟨m₁, hsplit, hrep⟩ :=
    Rep.splitToZero h (h.layout.notMem_blocksOf true) (n := n) ⟨by omega, by omega⟩
  have hwidth : (emptied C).addr 8 + width 8 [⟨n, false⟩] =
    C.addr 8 + width 8 [⟨0 + 8 + n, false⟩] := by
    rw [emptied_addr]
    simp only [width]
    omega
  -- no free block has come or gone
  have hfree : blocksOf true (C.fill [⟨0 + 8 + n, false⟩]) =
    blocksOf true ((emptied C).fill [⟨n, false⟩]) := by
    rw [blocksOf_fill [⟨0 + 8 + n, false⟩] rfl, blocksOf_fill [⟨n, false⟩] hwidth]
    ext x
    simp [others, outer_emptied, place, next_emptied]
  have hzero : (C.addr 8, 0) ∈ blocksOf false ((emptied C).fill [⟨n, true⟩]) :=
    ⟨_, Ctx.mem_fill.mpr (.inl (outer_emptied.mpr (.inr rfl)))⟩
  rw [hfree] at hrep
  have hopen : Open control _ c (emptied C) n := hrep
  obtain ⟨c₂, C₂, s₂, haddr₂, hsame, hstep₂⟩ := Open.mergeNext control c (emptied C) n
  obtain ⟨m₂, hm₂, hopen₂, -⟩ := hstep₂ _ hopen
  obtain ⟨m₃, hm₃, hgood, -⟩ := hopen₂.insert
  rw [emptied_addr] at hm₂ haddr₂
  rw [haddr₂] at hm₃
  refine ⟨m₃, _, _, ?_, hgood, ?_⟩
  · rw [blockTrimUsed, tlsfAssert_bind hused, if_pos (hcan.trans (decide_eq_true (by omega))),
      hsplit, Option.bind_eq_bind, Option.bind_some]
    exact (congrArg (· >>= _) hm₂).trans hm₃
  · rw [hsame.1]
    exact hzero

/-! ### The call

All ways through `tlsf_realloc`, as one relation between the heaps before and after. -/

/-- The block `x` in use is replaced by `y`. -/
def Moves (pools pools' : List Pool) (x y : ℕ × ℕ) : Prop :=
  y ∉ blocksOf false pools \ {x} ∧ blocksOf false pools' = insert y (blocksOf false pools \ {x}) ∧
    extents pools' = extents pools

/-- What is in the block comes along, and what is in the other blocks or not in the heap is left
alone. -/
structure Keeps (control : Addr) (m m' : TlsfMem) (pools' : List Pool) (x y : ℕ × ℕ) (size : Size) :
    Prop where
  agree : Agree (HeapWords control pools') m.mem m'.mem
  place : y.1 = x.1 ∨ y.1 + 8 + y.2 ≤ x.1 ∨ x.1 + 8 + x.2 ≤ y.1
  moved : ∀ i, i < x.2 → i < y.2 → y.1 = x.1 ∨ i < size.toNat →
    m'.mem (BitVec.ofNat 64 (y.1 + 16 + i)) = m.mem (BitVec.ofNat 64 (x.1 + 16 + i))
  other : ∀ w ∈ blocksOf false pools', w ≠ y → ∀ z, w.1 + 16 ≤ z ∧ z < w.1 + 16 + w.2 →
    m'.mem (BitVec.ofNat 64 z) = m.mem (BitVec.ofNat 64 z)

/-- Without the block in the place the blocks handed out are the others. -/
theorem blocksOf_sdiff (h : Layout control (C.fill [⟨s, f⟩])) :
    blocksOf false (C.fill [⟨s, false⟩]) \ {(C.addr 8, s)} =
      blocksOf false (C.fill [⟨s, true⟩]) := by
  rw [blocksOf_insert]
  exact Set.insert_sdiff_self_of_notMem (h.notMem_blocksOf false)

/-- A block that has room, or was given room, is cut. -/
theorem Good.trimInPlace {c₁ : Control} {m₁ : TlsfMem} {C₁ : Ctx}
    (h : Good control m c (C.fill [⟨s, false⟩])) (h₁ : Good control m₁ c₁ (C₁.fill [⟨S, false⟩]))
    (haddr : C₁.addr 8 = C.addr 8) (hsame : Alike (C.fill [⟨s, true⟩]) (C₁.fill [⟨S, true⟩]))
    (hagree : Stores (Spare control (C.fill [⟨s, false⟩])) m.mem m₁.mem) (hn : 24 ≤ n ∧ 8 ∣ n)
    (hle : n ≤ S) :
    ∃ y m' c' pools', m₁.blockTrimUsed control (BitVec.ofNat 64 (C.addr 8))
      (BitVec.ofNat 64 n) = some m' ∧
      y.1 = C.addr 8 ∧ Good control m' c' pools' ∧
      Moves (C.fill [⟨s, false⟩]) pools' (C.addr 8, s) y ∧ n ≤ y.2 ∧
      Keeps control m m' pools' (C.addr 8, s) y size := by
  obtain ⟨m', c', pools', s', hm', hgood, hle', -, hused, hext, hagree'⟩ := h₁.trimUsed hn hle
  rw [haddr] at hm' hused
  rw [hsame.1] at hused
  have hrest := blocksOf_sdiff h.layout
  have hx : (C.addr 8, s) ∈ blocksOf false (C.fill [⟨s, false⟩]) := ⟨_, Ctx.head_mem_fill⟩
  have hy : (C.addr 8, s') ∈ blocksOf false pools' := by
    rw [hused]
    exact Set.mem_insert _ _
  have hext' : extents pools' = extents (C.fill [⟨s, false⟩]) := by
    rw [hext, hsame.2]
    exact extents_fill rfl
  refine ⟨(C.addr 8, s'), m', c', pools', hm', rfl, hgood, ⟨?_, ?_, hext'⟩, hle',
    ⟨?_, .inl rfl, fun i hi hi' _ => ?_, fun w hw hne z hz => ?_⟩⟩
  · -- no other block is there
    rw [hrest, blocksOf_fill [⟨s, true⟩] rfl]
    rintro (hin | ⟨e, he, hfree, -⟩)
    · have hout := h.layout.outside_of_others hin
      have hmin := (h.layout.tile_ok (List.mem_singleton.mpr rfl)).1
      simp only [width] at hout hmin
      omega
    · obtain rfl := List.mem_singleton.mp he
      cases hfree
  · rw [hused, hrest]
  · -- all that was stored is in the pools
    refine ((hagree.mono ?_).trans (hagree'.mono fun w hw => hw.1)).agree.mono (Set.union_self _).le
    rw [HeapWords, hext']
    exact fun w hw => hw.1
  · simp only at hi hi' ⊢
    rw [hgood.byte hy ⟨Nat.le_add_right .., by simp only; omega⟩ hagree'.agree,
      h.byte hx ⟨Nat.le_add_right .., by simp only; omega⟩ hagree.agree]
  · have hold : w ∈ blocksOf false (C.fill [⟨s, false⟩]) := by
      rw [hused] at hw
      rw [blocksOf_insert]
      exact .inr (hw.resolve_left hne)
    rw [hgood.byte hw hz hagree'.agree, h.byte hold hz hagree.agree]

/-- A block is taken, what is in the old one is copied, and that one is given back. -/
theorem Good.copyAndFree (h : Good control m c pools) (hx : x ∈ blocksOf false pools)
    (hsize : x.2 ≠ 0) {m₁ : TlsfMem} {c₁ : Control} {pools₁ : List Pool}
    (h₁ : Good control m₁ c₁ pools₁) (hy : y ∈ blocksOf false pools₁) (hysize : y.2 ≠ 0)
    (htakes : Takes pools pools₁ y) (hagree : Stores (Spare control pools) m.mem m₁.mem) {count : ℕ}
    (hcx : count ≤ x.2) (hcy : count ≤ y.2) (hc : ∀ i, i < x.2 → i < size.toNat → i < count) :
    ∃ m' c' pools', TlsfMem.tlsfFree control
        { m₁ with
          mem := memcpy (BitVec.ofNat 64 (y.1 + 16)) (BitVec.ofNat 64 (x.1 + 16)) count m₁.mem }
        (BitVec.ofNat 64 (x.1 + 16)) = some m' ∧ Good control m' c' pools' ∧
      Moves pools pools' x y ∧ Keeps control m m' pools' x y size := by
  obtain ⟨hnew, hused, hext⟩ := htakes
  have hne : y ≠ x := fun heq => hnew (heq ▸ hx)
  have hx₁ : x ∈ blocksOf false pools₁ := by
    rw [hused]
    exact .inr hx
  obtain ⟨p, hp⟩ := hx₁
  obtain ⟨q, hq⟩ := hy
  have hxle := (h₁.layout.headerOk hp).le
  have hyle := (h₁.layout.headerOk hq).le
  simp only at hxle hyle
  have hapart : x.1 + 8 + x.2 ≤ y.1 ∨ y.1 + 8 + y.2 ≤ x.1 := by
    refine (h₁.layout.eq_or_apart hp hsize hq).resolve_left fun heq => hne ?_
    rw [Header.mk.injEq] at heq
    exact Prod.ext heq.1 heq.2.1
  have hcopy := memcpy_apply (d := y.1 + 16) (s := x.1 + 16) count m₁.mem (by omega) (by omega)
    (by omega)
  have h₂ : Good control
      { m₁ with
        mem := memcpy (BitVec.ofNat 64 (y.1 + 16)) (BitVec.ofNat 64 (x.1 + 16)) count m₁.mem }
      c₁ pools₁ := by
    apply h₁.store ⟨q, hq⟩
    intro b hb
    rw [hcopy, if_neg (by omega)]
  obtain ⟨c', pools', ⟨hnew', hused', hext'⟩, hfree⟩ := h₂.tlsfFree ⟨p, hp⟩ hsize
  obtain ⟨m', hm', hgood, hagree'⟩ := hfree _ h₂
  have hblocks : blocksOf false pools' = insert y (blocksOf false pools \ {x}) := by
    rw [← Set.insert_sdiff_self_of_notMem hnew', ← hused', hused]
    exact (Set.insert_sdiff_singleton_comm hne _).symm
  have hy' : y ∈ blocksOf false pools' := by
    rw [hblocks]
    exact Set.mem_insert _ _
  refine ⟨m', c', pools', hm', hgood, ⟨fun hin => hnew hin.1, hblocks, hext'.symm.trans hext⟩,
    ⟨?_, .inr hapart.symm, fun i hi hi' hor => ?_, fun w hw hne' z hz => ?_⟩⟩
  · -- what was copied is in a block of the pools
    have hsub : ∀ w, w ∈ HeapWords control pools₁ → w ∈ HeapWords control pools' := by
      rw [HeapWords, HeapWords, hext']
      exact fun w hw => hw
    have hcopied : Agree (HeapWords control pools') m₁.mem
        (memcpy (BitVec.ofNat 64 (y.1 + 16)) (BitVec.ofNat 64 (x.1 + 16)) count m₁.mem) := by
      intro w hw hwn hnot
      apply load_eq_iff.mpr
      intro i hi
      rw [← BitVec.ofNat_add, hcopy, BitVec.toNat_ofNat, Nat.mod_eq_of_lt (by omega)]
      refine if_neg fun hin => hnot (hsub w (mem_heapWords control hq ?_))
      have hyd := (h₁.layout.headerOk hq).addr_dvd
      have hys := (h₁.layout.headerOk hq).size_dvd
      simp only at hyd hys ⊢
      omega
    have htaken : Agree (HeapWords control pools') m.mem m₁.mem := by
      refine hagree.agree.mono fun w hw => hsub w ?_
      rw [HeapWords, hext]
      exact hw.1
    apply ((htaken.trans hcopied).trans (hagree'.agree.mono fun w hw => hw.1)).mono
    rw [Set.union_self, Set.union_self]
  · have hlt : i < count := hc i hi (hor.resolve_left (by omega))
    rw [hgood.byte hy' ⟨Nat.le_add_right .., by omega⟩ hagree'.agree]
    simp only
    rw [hcopy, BitVec.toNat_ofNat, Nat.mod_eq_of_lt (by omega), if_pos (by omega),
      Nat.add_sub_cancel_left, h.byte hx ⟨Nat.le_add_right .., by omega⟩ hagree.agree]
  · rw [hgood.byte hw hz hagree'.agree]
    simp only
    obtain ⟨q', hq'⟩ := hw
    have hwle := (hgood.layout.headerOk hq').le
    obtain ⟨q'', hq''⟩ := hy'
    simp only at hwle
    rcases hgood.layout.eq_or_apart hq'' hysize hq' with heq | hout
    · rw [Header.mk.injEq] at heq
      exact absurd (Prod.ext heq.1 heq.2.1) hne'
    · have hold : w ∈ blocksOf false pools := by
        have hin : w ∈ blocksOf false pools' := ⟨q', hq'⟩
        rw [hblocks] at hin
        exact (hin.resolve_left hne').1
      simp only at hout
      rw [hcopy, BitVec.toNat_ofNat, Nat.mod_eq_of_lt (by omega), if_neg (by omega),
        h.byte hold hz hagree.agree]

/-- What `tlsf_realloc` reads off the header of the block and the one behind it. -/
theorem Good.tlsfRealloc_eq (h : Good control m c (C.fill [⟨s, false⟩])) (hzero : size ≠ 0) :
    m.tlsfRealloc control (BitVec.ofNat 64 (C.addr 8 + 16)) size =
      if adjustRequestSize size > BitVec.ofNat 64 s ∧
          ((C.next (C.addr 8 + 8 + s) false).free = false ∨ adjustRequestSize size >
            BitVec.ofNat 64 s + BitVec.ofNat 64
            (C.next (C.addr 8 + 8 + s) false).size + blockHeaderOverhead) then
        m.tlsfMalloc control size >>= fun r => if r.1 = 0 then some r else
          (TlsfMem.tlsfFree control
            { r.2 with mem := (memcpy r.1 (BitVec.ofNat 64 (C.addr 8 + 16))
              (if BitVec.ofNat 64 s < size then BitVec.ofNat 64 s else size).toNat r.2.mem) }
            (BitVec.ofNat 64 (C.addr 8 + 16))).map fun m => (r.1, m)
      else if adjustRequestSize size > BitVec.ofNat 64 s then
        m.blockMergeNext control (BitVec.ofNat 64 (C.addr 8)) >>= fun m =>
          m.blockMarkAsUsed (BitVec.ofNat 64 (C.addr 8)) >>= fun m =>
            (m.blockTrimUsed control (BitVec.ofNat 64 (C.addr 8)) (adjustRequestSize size)).map
              fun m =>
              (BitVec.ofNat 64 (C.addr 8 + 16), m)
      else (m.blockTrimUsed control (BitVec.ofNat 64 (C.addr 8)) (adjustRequestSize size)).map
        fun m =>
        (BitVec.ofNat 64 (C.addr 8 + 16), m) := by
  obtain ⟨hsmin, hsd, hslt, ha, hend⟩ := Layout.bounds h.layout
  -- the header of the block, and the one behind it, as the representation has them
  have hptr := ofNat_ne_zero (show 0 < C.addr 8 + 16 by omega) (by omega)
  have hblock : blockFromPtr (BitVec.ofNat 64 (C.addr 8 + 16)) = BitVec.ofNat 64 (C.addr 8) :=
    sub_ofNat (by omega) (by omega)
  have hused := blockIsFree_eq (Rep.focus h) hsd
  have hcur := blockSize_eq (Rep.focus h) hsd
  have hnext := blockNext_eq (Rep.focus h) hsd (by omega) (by omega)
  have hnd := h.layout.next_ok.size_dvd
  have hnfree := blockIsFree_eq (Rep.behind h) hnd
  have hnsize := blockSize_eq (Rep.behind h) hnd
  rw [TlsfMem.tlsfRealloc, if_neg (fun hand => hzero hand.2), if_neg hptr]
  simp only [hblock, hcur]
  rw [hnext, Option.bind_eq_bind, Option.bind_some, tlsfAssert_bind hused, hnsize, hnfree]

/-- The block is large enough. -/
theorem Good.tlsfRealloc_of_le (h : Good control m c (C.fill [⟨s, false⟩])) (hzero : size ≠ 0)
    (hle : (adjustRequestSize size).toNat ≤ s) :
    m.tlsfRealloc control (BitVec.ofNat 64 (C.addr 8 + 16)) size =
      (m.blockTrimUsed control (BitVec.ofNat 64 (C.addr 8)) (adjustRequestSize size)).map fun m =>
        (BitVec.ofNat 64 (C.addr 8 + 16), m) := by
  obtain ⟨-, -, hslt, -⟩ := Layout.bounds h.layout
  have hno : ¬ adjustRequestSize size > BitVec.ofNat 64 s := by
    rw [gt_iff_lt, BitVec.lt_def, toNat_ofNat_of_lt (by omega), not_lt]
    exact hle
  rw [h.tlsfRealloc_eq hzero, if_neg (fun hand => hno hand.1), if_neg hno]

/-- `tlsf_realloc` of a block that is large enough and too small to be split. -/
theorem Good.tlsfRealloc_stays (h : Good control m c pools) (hx : x ∈ blocksOf false pools)
    (hsize : x.2 ≠ 0) (hzero : size ≠ 0) (hle : (adjustRequestSize size).toNat ≤ x.2)
    (hlt : x.2 < 32 + (adjustRequestSize size).toNat) :
    m.tlsfRealloc control (BitVec.ofNat 64 (x.1 + 16)) size = some (BitVec.ofNat 64 (x.1 + 16),
      m) := by
  obtain ⟨C, rfl, haddr⟩ := exists_fill_of_mem hx hsize
  obtain ⟨a, s⟩ := x
  obtain rfl : a = C.addr 8 := haddr
  obtain ⟨-, hsd, hslt, -⟩ := Layout.bounds h.layout
  have hused := blockIsFree_eq (Rep.focus h) hsd
  simp only at hle hlt
  -- the rest would be smaller than a block, so nothing is trimmed
  have hcan := blockCanSplit_eq (s := (adjustRequestSize size).toNat)
    (Rep.focus h) hsd hslt (by omega)
  rw [BitVec.ofNat_toNat, BitVec.setWidth_eq] at hcan
  rw [Good.tlsfRealloc_of_le h hzero hle, blockTrimUsed, tlsfAssert_bind hused,
    if_neg fun heq => absurd (of_decide_eq_true (hcan.symm.trans heq)) (by omega)]
  rfl

/-- `tlsf_realloc` of a block that is split. It has as many bytes then as `adjust_request_size`
says, and these may be none. -/
theorem Good.tlsfRealloc_trims (h : Good control m c pools) (hx : x ∈ blocksOf false pools)
    (hzero : size ≠ 0) (hroom : 32 + (adjustRequestSize size).toNat ≤ x.2) :
    ∃ m' c' pools', m.tlsfRealloc control (BitVec.ofNat 64 (x.1 + 16)) size =
        some (BitVec.ofNat 64 (x.1 + 16), m') ∧ Good control m' c' pools' ∧
      (x.1, (adjustRequestSize size).toNat) ∈ blocksOf false pools' := by
  obtain ⟨C, rfl, haddr⟩ := exists_fill_of_mem hx (by omega)
  obtain ⟨a, s⟩ := x
  obtain rfl : a = C.addr 8 := haddr
  simp only at hroom ⊢
  have hadd : BitVec.ofNat 64 (adjustRequestSize size).toNat = adjustRequestSize size := by
    rw [BitVec.ofNat_toNat, BitVec.setWidth_eq]
  rw [Good.tlsfRealloc_of_le h hzero (by simp only; omega)]
  -- a request that `adjust_request_size` takes to zero leaves nothing of the block
  by_cases hadjust : adjustRequestSize size = 0
  · obtain ⟨m', c', pools', hm', hgood, hin⟩ := Good.trimToZero h (by simp only; omega)
    refine ⟨m', c', pools', ?_, hgood, ?_⟩
    · rw [hadjust]
      exact congrArg (Option.map _) hm'
    · rw [hadjust]
      exact hin
  · obtain ⟨hmin, hd, -⟩ := adjust_spec hadjust
    obtain ⟨m', c', pools', s', hm', hgood, -, hexact, hused, -⟩ :=
      Good.trimUsed h ⟨hmin, hd⟩ (show _ ≤ s by omega)
    refine ⟨m', c', pools', ?_, hgood, ?_⟩
    · rw [← hadd, hm']
      rfl
    · rw [hused, hexact hroom]
      exact Set.mem_insert _ _

/-- `tlsf_realloc` of a block in use, to a size that no block is too small for. If it returns
`NULL`, nothing has changed. -/
theorem Good.tlsfRealloc (h : Good control m c pools) (hx : x ∈ blocksOf false pools)
    (hsize : x.2 ≠ 0) (hadjust : adjustRequestSize size ≠ 0) :
    m.tlsfRealloc control (BitVec.ofNat 64 (x.1 + 16)) size = some (0, m) ∨
    ∃ y m' c' pools', m.tlsfRealloc control (BitVec.ofNat 64 (x.1 + 16)) size =
        some (BitVec.ofNat 64 (y.1 + 16), m') ∧ Good control m' c' pools' ∧ Moves pools pools' x y ∧
      (adjustRequestSize size).toNat ≤ y.2 ∧ Keeps control m m' pools' x y size := by
  obtain ⟨hmin, hd, hlt, hup⟩ := adjust_spec hadjust
  obtain ⟨C, rfl, haddr⟩ := exists_fill_of_mem hx hsize
  obtain ⟨a, s⟩ := x
  obtain rfl : a = C.addr 8 := haddr
  simp only at hsize ⊢
  obtain ⟨hsmin, hsd, hslt, ha, hend⟩ := Layout.bounds h.layout
  have hzero : size ≠ 0 := fun heq => hadjust (by rw [heq]; rfl)
  have hnle : C.addr 8 + 8 + s + 16 + _ ≤ 2 ^ 64 := h.layout.next_ok.le
  have hcurlt : (BitVec.ofNat 64 s).toNat = s := toNat_ofNat_of_lt (by omega)
  rw [Good.tlsfRealloc_eq h hzero]
  by_cases hfar : adjustRequestSize size > BitVec.ofNat 64 s ∧
      ((C.next (C.addr 8 + 8 + s) false).free = false ∨ adjustRequestSize size >
        BitVec.ofNat 64 s + BitVec.ofNat 64
        (C.next (C.addr 8 + 8 + s) false).size + blockHeaderOverhead)
  · rw [if_pos hfar]
    have hgrow : s < (adjustRequestSize size).toNat := by
      have := BitVec.lt_def.mp hfar.1
      rwa [hcurlt] at this
    rcases h.tlsfMalloc size with ⟨-, hm⟩ | ⟨y, pools₁, -, htakes, hle, hymin, -, hm⟩
    · left
      rw [hm m h, Option.bind_eq_bind, Option.bind_some]
      rfl
    right
    obtain ⟨m₁, hm, hgood, hagree⟩ := hm m h
    have hyne := hgood.ptr_ne_zero htakes.mem (by omega)
    have hcount : (if BitVec.ofNat 64 s < size then BitVec.ofNat 64 s else size).toNat =
        min s size.toNat := by
      split
      case isTrue hlt =>
        have hle := (BitVec.lt_def.mp hlt).le
        rw [hcurlt] at hle ⊢
        exact (min_eq_left hle).symm
      case isFalse hnot =>
        have hle := BitVec.le_def.mp (BitVec.not_lt.mp hnot)
        rw [hcurlt] at hle
        exact (min_eq_right hle).symm
    have hcx : min s size.toNat ≤ s := min_le_left _ _
    have hcy : min s size.toNat ≤ y.2 := by omega
    have hc : ∀ i, i < s → i < size.toNat → i < min s size.toNat := fun i hi hi' => lt_min hi hi'
    obtain ⟨m', c', pools', hm', hgood', hmoves, hkeeps⟩ :=
      h.copyAndFree hx hsize hgood htakes.mem (by omega) htakes hagree hcx hcy hc
    refine ⟨y, m', c', pools', ?_, hgood', hmoves, hle, hkeeps⟩
    rw [hm, Option.bind_eq_bind, Option.bind_some, if_neg hyne, hcount, hm']
    rfl
  rw [if_neg hfar]
  right
  have hadd : BitVec.ofNat 64 (adjustRequestSize size).toNat = adjustRequestSize size := by
    rw [BitVec.ofNat_toNat, BitVec.setWidth_eq]
  by_cases hgrow : adjustRequestSize size > BitVec.ofNat 64 s
  · -- into the free block behind
    rw [not_and, not_or] at hfar
    obtain ⟨hfree, hroom⟩ := hfar hgrow
    obtain ⟨n, r, hright⟩ := exists_right_of_free (Bool.eq_true_of_not_eq_false hfree)
    obtain ⟨m₁, m₂, c₂, hm₁, hm₂, hgood₂, hsame, hagree⟩ := h.expand hright
    have hn : (C.next (C.addr 8 + 8 + s) false).size = n := by
      rw [Ctx.next, first, hright]
      rfl
    rw [hn] at hroom hnle
    have hsum : BitVec.ofNat 64 s + BitVec.ofNat 64 n + blockHeaderOverhead =
      BitVec.ofNat 64 (s + n + 8) := by
      rw [ofNat_add_ofNat]
      exact ofNat_add_ofNat (s + n) 8
    rw [hsum, gt_iff_lt, BitVec.lt_def, toNat_ofNat_of_lt (by omega), not_lt] at hroom
    obtain ⟨y, m', c', pools', hm', haddr, hgood', hmoves, hle, hkeeps⟩ :=
      h.trimInPlace hgood₂ rfl hsame hagree ⟨hmin, hd⟩ (by omega)
    refine ⟨y, m', c', pools', ?_, hgood', hmoves, hle, hkeeps⟩
    rw [if_pos hgrow, hm₁, Option.bind_eq_bind, Option.bind_some, hm₂, Option.bind_some, ← hadd,
      hm', haddr]
    rfl
  · rw [gt_iff_lt, BitVec.lt_def, hcurlt, not_lt] at hgrow
    obtain ⟨y, m', c', pools', hm', haddr, hgood', hmoves, hle, hkeeps⟩ :=
      h.trimInPlace h rfl ⟨rfl, rfl⟩ (Writes.refl _ _ _) ⟨hmin, hd⟩ hgrow
    refine ⟨y, m', c', pools', ?_, hgood', hmoves, hle, hkeeps⟩
    rw [if_neg (by rw [gt_iff_lt, BitVec.lt_def, hcurlt]; omega), ← hadd, hm', haddr]
    rfl

end TlsfMem

end Koharu
