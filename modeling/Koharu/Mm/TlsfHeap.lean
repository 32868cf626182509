import Koharu.Mm.TlsfLists

/-!
# The heap as a whole

`Rep control m c pools F` says what is in memory: the headers of the blocks in the pools `pools`,
and the lists of `c` with the free blocks `F`. A block that is free but not in `F` has been taken
off its list, or is not on one yet; in between the calls of the interface there are none.

* `Layout`: where pools can be, and what blocks can be in them;
* `Rep.insert`, `Rep.remove`: `block_insert` and `remove_free_block`;
* `Rep.retile`: some blocks after each other are replaced by others. What has to be known of the
  stores is only that they are to headers there;
* `HeapWords control pools`: the words that the heap is made of;
* `Spare control pools`: those that no block in use has. All others are left alone.
-/

namespace Koharu

open Tlsf WordMemory Tiling

namespace TlsfMem

variable {control : Addr} {m m' : TlsfMem} {c : Control} {F : Set (ℕ × ℕ)} {x : ℕ × ℕ}
  {pools : List Pool} {P : Pool} {e e' : Header} {C : Ctx} {t : Tile} {ts ts' : List Tile}
  {p : Bool} {k : Tlsf.Class} {mem' : Addr → BitVec 8}

/-! ### Pools

Where everything lies: pools, their headers, and the control structure, none of which overlap. -/

/-- A pool lies in memory, is not too large for the lists, and does not overlap with
`block_null`. -/
structure PoolOk (control : Addr) (P : Pool) : Prop where
  start_dvd : 8 ∣ P.start
  start_pos : 8 ≤ P.start
  stop_le : P.stop 8 + 16 ≤ 2 ^ 64
  stop_lt : P.stop 8 < P.start + 8 + 2 ^ 32
  control : P.stop 8 + 16 ≤ control.toNat ∨ control.toNat + 32 ≤ P.start + 8
  tiles : ∀ t ∈ P.tiles, 24 ≤ t.size ∧ 8 ∣ t.size

/-- Where the pools and the control structure are. -/
structure Layout (control : Addr) (pools : List Pool) : Prop where
  control_dvd : 8 ∣ control.toNat
  control_pos : control.toNat ≠ 0
  control_le : control.toNat + 32 ≤ 2 ^ 64
  ok : ∀ P ∈ pools, PoolOk control P
  apart : Apart 8 pools

/-- What is known of each header. -/
structure HeaderOk (control : Addr) (e : Header) : Prop where
  addr_dvd : 8 ∣ e.addr
  size_dvd : 8 ∣ e.size
  addr_pos : 8 ≤ e.addr
  le : e.addr + 16 + e.size ≤ 2 ^ 64
  lt : e.size < 2 ^ 32
  min : e.size = 0 ∨ 24 ≤ e.size
  last : e.size = 0 → e.free = false
  control : e.addr + 16 + e.size ≤ control.toNat ∨ control.toNat + 32 ≤ e.addr + 8

/-- Tiles of aligned sizes end at aligned addresses. -/
theorem width_dvd {l : List Tile} (h : ∀ t ∈ l, 24 ≤ t.size ∧ 8 ∣ t.size) : 8 ∣ width 8 l := by
  induction l with
  | nil => exact dvd_zero 8
  | cons t l ih =>
      have ht := (h t List.mem_cons_self).2
      have hl := ih fun u hu => h u (List.mem_cons_of_mem t hu)
      unfold width
      omega

/-- The headers of a well-formed pool are well formed. -/
theorem PoolOk.headerOk (h : PoolOk control P) (he : e ∈ P.headers 8) : HeaderOk control e := by
  have hstart := h.start_dvd
  have hpos := h.start_pos
  have hle := h.stop_le
  have hlt := h.stop_lt
  have hcontrol := h.control
  have hbounds := bounds_of_mem_headers he
  have hwidth := width_dvd h.tiles
  -- a header of a tile, whose place is the sum of the tiles before it, or the sentinel at the end
  rcases List.mem_append.mp he with he | he
  · obtain ⟨l₁, l₂, t, hl, rfl⟩ := exists_of_mem_place he
    have htiles := h.tiles
    rw [hl] at htiles
    have hleft := width_dvd fun u hu => htiles u (List.mem_append_left _ hu)
    obtain ⟨hmin, hdvd⟩ := htiles t (List.mem_append_right _ List.mem_cons_self)
    have hsize : P.start + width 8 l₁ + 8 + t.size ≤ P.stop 8 := by
      rw [Pool.stop, hl, width_append, width]
      omega
    refine ⟨?_, hdvd, ?_, ?_, ?_, .inr hmin, fun hzero => ?_, ?_⟩ <;> simp only at * <;> omega
  · obtain rfl := List.mem_singleton.mp he
    unfold Pool.stop at *
    refine ⟨?_, dvd_zero 8, ?_, ?_, Nat.two_pow_pos 32, .inl rfl,
      fun _ => rfl, ?_⟩ <;> simp only at * <;> omega

/-- So are all headers of a heap. -/
theorem Layout.headerOk (h : Layout control pools) (he : e ∈ headers 8 pools) :
    HeaderOk control e := by
  obtain ⟨P, hP, heP⟩ := List.mem_flatMap.mp he
  exact (h.ok P hP).headerOk heP

/-- A tile takes its size and the word of its header. -/
theorem width_singleton : width 8 [t] = 8 + t.size := rfl

/-- Different blocks do not overlap. -/
theorem Layout.eq_or_apart (h : Layout control pools) (he : e ∈ headers 8 pools)
    (hsize : e.size ≠ 0) (he' : e' ∈ headers 8 pools) :
    e' = e ∨ e.addr + 8 + e.size ≤ e'.addr ∨ e'.addr + 8 + e'.size ≤ e.addr := by
  obtain ⟨C, t, rfl, rfl⟩ := Ctx.exists_fill he hsize
  rcases Ctx.mem_fill.mp he' with hout | hin | rfl
  · rcases Ctx.outer_apart false h.apart hout with hle | hge
    · exact .inr (.inr hle)
    · rw [width_singleton] at hge
      refine .inr (.inl ?_)
      simp only
      omega
  · exact .inl (List.mem_singleton.mp hin)
  · refine .inr (.inl ?_)
    change C.addr 8 + 8 + t.size ≤ C.addr 8 + (8 + t.size)
    omega

/-- Where the pools are. -/
def extents (pools : List Pool) : List (ℕ × ℕ) := pools.map fun P => (P.start, P.stop 8)

/-- The links of `block_null`, and the words of the pools. -/
def HeapWords (control : Addr) (pools : List Pool) : Set ℕ :=
  {w | (w = control.toNat + 16 ∨ w = control.toNat + 24) ∨
    ∃ I ∈ extents pools, I.1 + 8 ≤ w ∧ w ≤ I.2 + 8}

/-- The words of the heap that are not in a block in use. -/
def Spare (control : Addr) (pools : List Pool) : Set ℕ :=
  {w | w ∈ HeapWords control pools ∧
    ∀ e ∈ headers 8 pools, e.free = false → w + 8 ≤ e.addr + 16 ∨ e.addr + 16 + e.size ≤ w}

/-- Headers and blocks are in the pools. -/
theorem mem_heapWords (control : Addr) (he : e ∈ headers 8 pools) {w : ℕ}
    (hw : e.addr + 8 ≤ w ∧ w ≤ e.addr + 8 + e.size) : w ∈ HeapWords control pools := by
  obtain ⟨P, hP, heP⟩ := List.mem_flatMap.mp he
  have hbounds := bounds_of_mem_headers heP
  refine .inr ⟨(P.start, P.stop 8), List.mem_map.mpr ⟨P, hP, rfl⟩, ?_⟩
  simp only
  omega

/-! ### What is in memory

The headers are in memory as the tiles say, and the lists as the control structure says. -/

/-- The header of a block is in memory, and if the block is free, so is its address behind it. -/
def Tagged (mem : Addr → BitVec 8) (e : Header) : Prop :=
  wordAt mem (e.addr + 8) = tag e.size e.free e.prevFree ∧
    (e.free = true → wordAt mem (e.addr + 8 + e.size) = BitVec.ofNat 64 e.addr)

/-- The headers and the lists are in memory. -/
structure Rep (control : Addr) (m : TlsfMem) (c : Control) (pools : List Pool) (F : Set (ℕ × ℕ)) :
    Prop where
  layout : Layout control pools
  tagged : ∀ e ∈ headers 8 pools, Tagged m.mem e
  lists : FreeLists control m c F
  sub : ∀ x ∈ F, ∃ p, ⟨x.1, x.2, true, p⟩ ∈ headers 8 pools

/-- Free blocks of a heap are apart from each other and from the control structure. -/
theorem Layout.nodes (h : Layout control pools)
    (hF : ∀ x ∈ F, ∃ p, (⟨x.1, x.2, true, p⟩ : Header) ∈ headers 8 pools) : Nodes control F := by
  -- a node is a free block, and its header is one of the headers of the heap
  have hok : ∀ x ∈ F, HeaderOk control ⟨x.1, x.2, true, false⟩ := fun x hx => by
    obtain ⟨p, hp⟩ := hF x hx
    have he := h.headerOk hp
    exact ⟨he.addr_dvd, he.size_dvd, he.addr_pos, he.le, he.lt, he.min, he.last, he.control⟩
  refine ⟨h.control_dvd, h.control_pos, h.control_le,
    fun x hx => ⟨(hok x hx).addr_dvd, (hok x hx).size_dvd⟩, fun x hx => (hok x hx).addr_pos,
    fun x hx => (hok x hx).le, fun x hx => ?_, fun x hx => (hok x hx).lt,
      fun x hx => (hok x hx).control, fun x hx y hy hne => ?_⟩
  · apply (hok x hx).min.resolve_left
    intro hzero
    cases (hok x hx).last hzero
  · obtain ⟨p, hp⟩ := hF x hx
    obtain ⟨q, hq⟩ := hF y hy
    -- only the sentinel has size zero, and it is not free
    have hsize : x.2 ≠ 0 := fun hzero => by
      cases (hok x hx).last hzero
    rcases h.eq_or_apart hp hsize hq with heq | hapart
    · rw [Header.mk.injEq] at heq
      exact absurd (Prod.ext heq.1.symm heq.2.1.symm) hne
    · exact hapart

/-- So are the blocks in the free lists. -/
theorem Rep.nodes (h : Rep control m c pools F) : Nodes control F := h.layout.nodes h.sub

/-- The links are no headers, and not in blocks in use. -/
theorem Layout.linkWords (h : Layout control pools)
    (hF : ∀ x ∈ F, ∃ p, (⟨x.1, x.2, true, p⟩ : Header) ∈ headers 8 pools) :
    (∀ e ∈ headers 8 pools, e.addr + 8 ∉ linkWords control F ∧
      (e.free = true → e.addr + 8 + e.size ∉ linkWords control F)) ∧
      linkWords control F ⊆ Spare control pools := by
  have hcd := h.control_dvd
  constructor
  · intro e he
    have hok := h.headerOk he
    have hd := hok.addr_dvd
    have hmin := hok.min
    have hc := hok.control
    have hlast := hok.last
    refine ⟨?_, fun hfree => ?_⟩
    -- the links are those of `block_null` or of a free block, which are apart from other headers
    · rintro ⟨y, rfl | ⟨x, hx, rfl⟩, hw⟩
      · omega
      · obtain ⟨q, hq⟩ := hF x hx
        have hx' := h.headerOk hq
        have hmin' := (h.nodes hF).min x hx
        rcases h.eq_or_apart hq (by simp only; omega) he with rfl | hapart
        · simp only at hw
          omega
        · simp only at hapart
          omega
    · have hpos : e.size ≠ 0 := fun hzero => by
        rw [hlast hzero] at hfree
        cases hfree
      rintro ⟨y, rfl | ⟨x, hx, rfl⟩, hw⟩
      · omega
      · obtain ⟨q, hq⟩ := hF x hx
        have hx' := h.headerOk hq
        have hmin' := (h.nodes hF).min x hx
        rcases h.eq_or_apart hq (by simp only; omega) he with rfl | hapart
        · simp only at hw hmin
          omega
        · simp only at hapart
          omega
  · rintro w ⟨y, rfl | ⟨x, hx, rfl⟩, hw⟩
    · refine ⟨.inl hw, fun e he hused => ?_⟩
      have hok := h.headerOk he
      have hd := hok.addr_dvd
      have hc := hok.control
      omega
    · obtain ⟨q, hq⟩ := hF x hx
      have hx' := h.headerOk hq
      have hxd := hx'.addr_dvd
      have hmin' := (h.nodes hF).min x hx
      refine ⟨mem_heapWords control hq (by simp only; omega), fun e he hused => ?_⟩
      have hd := (h.headerOk he).addr_dvd
      rcases h.eq_or_apart hq (by simp only; omega) he with rfl | hapart
      · cases hused
      · simp only at hapart hxd
        omega

/-! ### Lists

The operations on lists change links only, so that the headers stay. -/

/-- The headers stay where only links change. -/
theorem Rep.tagged_of_links {G : Set (ℕ × ℕ)} (h : Rep control m c pools F)
    (hG : ∀ x ∈ G, ∃ p, (⟨x.1, x.2, true, p⟩ : Header) ∈ headers 8 pools)
    (hagree : Agree (linkWords control G) m.mem mem') : ∀ e ∈ headers 8 pools, Tagged mem' e := by
  intro e he
  have hok := h.layout.headerOk he
  have ha := hok.addr_dvd
  have hs := hok.size_dvd
  have hle := hok.le
  have hmin := hok.min
  obtain ⟨hhead, hfoot⟩ := (h.layout.linkWords hG).1 e he
  obtain ⟨htag, hback⟩ := h.tagged e he
  refine ⟨?_, fun hfree => ?_⟩
  · rw [hagree _ (by omega) (by omega) hhead, htag]
  · rw [hagree _ (by omega) (by omega) (hfoot hfree), hback hfree]

/-- The blocks listed are free in their headers, and stay so with one more free block of the
heap. -/
theorem Rep.sub_insert (h : Rep control m c pools F) (hx : ⟨x.1, x.2, true, p⟩ ∈ headers 8 pools) :
    ∀ y ∈ insert x F, ∃ p, (⟨y.1, y.2, true, p⟩ : Header) ∈ headers 8 pools := by
  rintro y (rfl | hy)
  · exact ⟨p, hx⟩
  · exact h.sub y hy

/-- `block_insert`. -/
theorem Rep.blockInsert (h : Rep control m c pools F) (hx : ⟨x.1, x.2, true, p⟩ ∈ headers 8 pools)
    (hxF : x ∉ F) : ∃ m', m.blockInsert control (BitVec.ofNat 64 x.1) = some m' ∧
      Rep control m' (c.blockInsert (freeBlock x)) pools (insert x F) ∧
      Stores (Spare control pools) m.mem m'.mem := by
  have hsub := h.sub_insert hx
  have hsize := blockSize_eq (h.tagged _ hx).1 (h.layout.headerOk hx).size_dvd
  obtain ⟨m', hm', hlists, hstores⟩ := h.lists.blockInsert (h.layout.nodes hsub) hxF hsize
  exact ⟨m', hm', ⟨h.layout, h.tagged_of_links hsub hstores.agree, hlists, hsub⟩,
    hstores.mono (h.layout.linkWords hsub).2⟩

/-- `remove_free_block`. -/
theorem Rep.removeFreeBlock (h : Rep control m c pools F) (hx : x ∈ F)
    (hk : mappingInsert (BitVec.ofNat 64 x.2) = k) :
    ∃ m', m.removeFreeBlock control (BitVec.ofNat 64 x.1) k = some m' ∧
      Rep control m' (c.removeFree (freeBlock x) k) pools (F \ {x}) ∧
      Stores (Spare control pools) m.mem m'.mem := by
  obtain ⟨m', hm', hlists, hstores⟩ := h.lists.removeFreeBlock h.nodes hx hk
  exact ⟨m', hm', ⟨h.layout, h.tagged_of_links h.sub hstores.agree, hlists,
    fun y hy => h.sub y hy.1⟩, hstores.mono (h.layout.linkWords h.sub).2⟩

/-- `block_remove`. -/
theorem Rep.blockRemove (h : Rep control m c pools F) (hx : x ∈ F) :
    ∃ m', m.blockRemove control (BitVec.ofNat 64 x.1) = some m' ∧
      Rep control m' (c.removeFree (freeBlock x) (mappingInsert (BitVec.ofNat 64 x.2))) pools
      (F \ {x}) ∧
      Stores (Spare control pools) m.mem m'.mem := by
  obtain ⟨p, hp⟩ := h.sub x hx
  have hsize := blockSize_eq (h.tagged _ hp).1 (h.layout.headerOk hp).size_dvd
  obtain ⟨m', hm', hrep, hstores⟩ := h.removeFreeBlock hx rfl
  refine ⟨m', ?_, hrep, hstores⟩
  rw [TlsfMem.blockRemove, hsize]
  exact hm'

/-! ### Other blocks in the place of some

Exchanging the tiles of a place for others of the same width, after stores that stay in the place.
-/

/-- A property of all tiles, around a place and in it. -/
theorem forall_fill {q : Tile → Prop} : (∀ P ∈ C.fill ts, ∀ t ∈ P.tiles, q t) ↔
    (∀ P, P ∈ C.before ∨ P ∈ C.after → ∀ t ∈ P.tiles, q t) ∧ (∀ t, t ∈ C.left ∨ t ∈ C.right → q t) ∧
      ∀ t ∈ ts, q t := by
  -- the tiles of the filled context are those of the other pools, those on either side, and `ts`
  constructor
  · intro h
    have hmid := h ⟨C.start, C.left ++ ts ++ C.right⟩ (List.mem_append_right _ List.mem_cons_self)
    refine ⟨fun P hP => h P ?_, fun t ht => hmid t ?_, fun t ht => hmid t ?_⟩
    · rcases hP with hP | hP
      · exact List.mem_append_left _ hP
      · exact List.mem_append_right _ (List.mem_cons_of_mem _ hP)
    · simp only [List.mem_append]
      tauto
    · simp only [List.mem_append]
      tauto
  · rintro ⟨hout, hside, hin⟩ P hP t ht
    rcases List.mem_append.mp hP with hP | hP
    · exact hout P (.inl hP) t ht
    · rcases List.mem_cons.mp hP with rfl | hP
      · simp only [List.mem_append] at ht
        rcases ht with (ht | ht) | ht
        · exact hside t (.inl ht)
        · exact hin t ht
        · exact hside t (.inr ht)
      · exact hout P (.inr hP) t ht

/-- The pools are where they were. -/
theorem Layout.retile (h : Layout control (C.fill ts)) (hwidth : width 8 ts' = width 8 ts)
    (hok : ∀ t ∈ ts', 24 ≤ t.size ∧ 8 ∣ t.size) : Layout control (C.fill ts') where
  control_dvd := h.control_dvd
  control_pos := h.control_pos
  control_le := h.control_le
  apart := Ctx.apart_fill h.apart hwidth
  ok P hP := by
    have htiles := forall_fill.mp fun Q hQ => (h.ok Q hQ).tiles
    have htiles' := forall_fill.mpr ⟨htiles.1, htiles.2.1, hok⟩ P hP
    rcases List.mem_append.mp hP with hP | hP
    · exact h.ok P (List.mem_append_left _ hP)
    · rcases List.mem_cons.mp hP with rfl | hP
      · have hold := h.ok ⟨C.start, C.left ++ ts ++ C.right⟩
          (List.mem_append_right _ List.mem_cons_self)
        -- the pool that is changed keeps its extent, since the width is the same
        have hstop : (⟨C.start, C.left ++ ts' ++ C.right⟩ : Pool).stop 8 =
            (⟨C.start, C.left ++ ts ++ C.right⟩ : Pool).stop 8 := by
          rw [Ctx.stop_middle, Ctx.stop_middle, hwidth]
        exact ⟨hold.start_dvd, hold.start_pos, hstop ▸ hold.stop_le, hstop ▸ hold.stop_lt,
          hstop ▸ hold.control, htiles'⟩
      · exact h.ok P (List.mem_append_right _ (List.mem_cons_of_mem _ hP))

/-- The blocks `ts` are replaced by `ts'`. All stores are to words from behind the address of the
first block up to the header behind the last one. -/
theorem Rep.retile (h : Rep control m c (C.fill ts) F) (ts' : List Tile)
    (hwidth : width 8 ts' = width 8 ts) (hok : ∀ t ∈ ts', 24 ≤ t.size ∧ 8 ∣ t.size)
    (hagree : Agree {w | C.addr 8 < w ∧ w ≤ C.addr 8 + width 8 ts + 8} m.mem m'.mem)
    (hm' : m' = { m with mem := m'.mem })
    (hF : ∀ x ∈ F, x.1 + 8 + x.2 ≤ C.addr 8 ∨ C.addr 8 + width 8 ts ≤ x.1)
    (hin : ∀ e ∈ place 8 (C.addr 8) C.prevFree ts', Tagged m'.mem e)
    (hnext : wordAt m'.mem (C.addr 8 + width 8 ts + 8) =
      tag (C.next (C.addr 8 + width 8 ts) p).size (C.next (C.addr 8 + width 8 ts) p).free
        (lastFree C.prevFree ts')) :
    Rep control m' c (C.fill ts') F := by
  rw [hm']
  have hnode := h.nodes
  refine ⟨h.layout.retile hwidth hok, fun e he => ?_, ?_, fun x hx => ?_⟩
  · rw [Ctx.mem_fill, hwidth] at he
    rcases he with hout | he | rfl
    · -- a block somewhere else
      have hmem : e ∈ headers 8 (C.fill ts) := Ctx.mem_fill.mpr (.inl hout)
      have hok := h.layout.headerOk hmem
      have ha := hok.addr_dvd
      have hs := hok.size_dvd
      have hle := hok.le
      have hapart := Ctx.outer_apart false h.layout.apart hout
      obtain ⟨htag, hback⟩ := h.tagged e hmem
      refine ⟨?_, fun hfree => ?_⟩
      · rw [hagree _ (by omega) (by omega), htag]
        rw [Set.mem_ofPred_eq]
        omega
      · rw [hagree _ (by omega) (by omega), hback hfree]
        rw [Set.mem_ofPred_eq]
        omega
    · exact hin e he
    · -- the header behind
      have hmem : C.next (C.addr 8 + width 8 ts) (lastFree C.prevFree ts) ∈ headers 8 (C.fill ts) :=
        Ctx.mem_fill.mpr (.inr (.inr rfl))
      have hok := h.layout.headerOk hmem
      obtain ⟨-, hback⟩ := h.tagged _ hmem
      refine ⟨hnext, fun hfree => ?_⟩
      have ha := hok.addr_dvd
      have hs := hok.size_dvd
      have hle := hok.le
      have hmin := hok.min
      have hpos : (C.next (C.addr 8 + width 8 ts) (lastFree C.prevFree ts)).size ≠ 0 :=
        fun hzero => by
        cases (hok.last hzero).symm.trans hfree
      change wordAt m'.mem (C.addr 8 + width 8 ts + 8 +
        (C.next (C.addr 8 + width 8 ts) (lastFree C.prevFree ts)).size) = _
      rw [hagree _ _ _ _]
      · exact hback hfree
      · exact Nat.dvd_add (Nat.dvd_add ha (dvd_refl 8)) hs
      · change C.addr 8 + width 8 ts + 16 + _ ≤ _ at hle
        omega
      · rw [Set.mem_ofPred_eq]
        omega
  · refine h.lists.congr hnode rfl rfl rfl hagree fun x hx => ?_
    have hmin := hnode.min x hx
    have hx' := hF x hx
    constructor
    · rw [Set.mem_ofPred_eq]
      omega
    · rw [Set.mem_ofPred_eq]
      omega
  · obtain ⟨q, hq⟩ := h.sub x hx
    have hx' := hF x hx
    rcases Ctx.mem_fill.mp hq with hout | he | heq
    · exact ⟨q, Ctx.mem_fill.mpr (.inl (hwidth ▸ hout))⟩
    · have hb := bounds_of_mem_place he
      simp only at hb
      omega
    · refine ⟨lastFree C.prevFree ts', Ctx.mem_fill.mpr (.inr (.inr ?_))⟩
      rw [hwidth]
      rw [Ctx.next, first, Header.mk.injEq] at heq ⊢
      exact ⟨heq.1, heq.2.1, heq.2.2.1, rfl⟩

end TlsfMem

end Koharu
