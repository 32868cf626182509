import Mathlib.Data.List.Basic
import Mathlib.Data.List.Flatten
import Mathlib.Order.Nat

/-!
# Memory in blocks

Pools of memory that are filled with blocks, without gaps. In front of each block there are `o`
bytes for its header, which says how large it is, whether it is free, and whether the block before
it is. A pool ends with a header alone, whose block has no bytes.

The blocks of a pool are a list of tiles, from which their places and all the headers follow; so the
blocks do not overlap, and the headers agree with each other.

* `Tile`, `Header`: a block without and with its place;
* `place`, `headers`: the blocks with their places, and those of all pools;
* `Ctx`: everything but some blocks that come after each other. `Ctx.fill` puts blocks there, and
  `mem_fill` says what there is then;
* `Ctx.outer_apart`: what is around these blocks does not overlap with them.
-/

namespace Tiling

/-- A block without its place. -/
structure Tile where
  size : ℕ
  free : Bool
  deriving DecidableEq

/-- A block in its place, with what its header says about it. -/
structure Header where
  addr : ℕ
  size : ℕ
  free : Bool
  prevFree : Bool
  deriving DecidableEq

/-- The bytes that blocks and their headers take. -/
def width (o : ℕ) : List Tile → ℕ
  | [] => 0
  | t :: l => o + t.size + width o l

/-- Whether the last block is free. -/
def lastFree (pf : Bool) : List Tile → Bool
  | [] => pf
  | t :: l => lastFree t.free l

/-- The blocks from the address `a` on. -/
def place (o a : ℕ) (pf : Bool) : List Tile → List Header
  | [] => []
  | t :: l => ⟨a, t.size, t.free, pf⟩ :: place o (a + o + t.size) t.free l

variable {o a n : ℕ} {pf : Bool} {t : Tile} {l l₁ l₂ ts ts' : List Tile} {e e' : Header}

/-- Widths add up. -/
theorem width_append : width o (l₁ ++ l₂) = width o l₁ + width o l₂ := by
  induction l₁ with
  | nil => rw [List.nil_append, width, Nat.zero_add]
  | cons t l ih =>
      rw [List.cons_append, width, width, ih]
      omega

/-- The last tile of a longer list is the last of its second part, if there is one. -/
theorem lastFree_append : lastFree pf (l₁ ++ l₂) = lastFree (lastFree pf l₁) l₂ := by
  induction l₁ generalizing pf with
  | nil => rfl
  | cons t l ih => exact ih

/-- A longer list is placed one part after the other. -/
theorem place_append :
    place o a pf (l₁ ++ l₂) = place o a pf l₁ ++ place o (a + width o l₁) (lastFree pf l₁) l₂ := by
  induction l₁ generalizing a pf with
  | nil => rfl
  | cons t l ih =>
      rw [List.cons_append, place, place, ih, List.cons_append, width, lastFree]
      simp only [Nat.add_assoc]

/-- A placed tile lies inside the range of the list. -/
theorem bounds_of_mem_place (h : e ∈ place o a pf l) :
    a ≤ e.addr ∧ e.addr + o + e.size ≤ a + width o l := by
  induction l generalizing a pf with
  | nil => cases h
  | cons t l ih =>
      unfold width
      rcases List.mem_cons.mp h with rfl | h
      · exact ⟨le_rfl, by simp only; omega⟩
      · have := ih h
        omega

/-- A placed tile splits the list into what is before it and what follows. -/
theorem exists_of_mem_place (h : e ∈ place o a pf l) :
    ∃ l₁ l₂ t, l = l₁ ++ t :: l₂ ∧ e = ⟨a + width o l₁, t.size, t.free, lastFree pf l₁⟩ := by
  induction l generalizing a pf with
  | nil => cases h
  | cons t l ih =>
      rcases List.mem_cons.mp h with rfl | h
      · exact ⟨[], l, t, rfl, rfl⟩
      · obtain ⟨l₁, l₂, u, rfl, rfl⟩ := ih h
        refine ⟨t :: l₁, l₂, u, rfl, ?_⟩
        rw [width, lastFree]
        simp only [Nat.add_assoc]

/-- The header at the address `n`, where the blocks `l` come. -/
def first (n : ℕ) (pf : Bool) (l : List Tile) : Header :=
  ⟨n, l.head?.elim 0 Tile.size, l.head?.elim false Tile.free, pf⟩

/-- The headers behind that one. -/
def rest (o n : ℕ) : List Tile → List Header
  | [] => []
  | t :: l =>
      place o (n + o + t.size) t.free l ++
        [⟨n + o + t.size + width o l, 0, false, lastFree t.free l⟩]

/-- The tiles of a list with the sentinel, or the first of them with the rest. -/
theorem place_concat (n : ℕ) (pf : Bool) (l : List Tile) :
    place o n pf l ++ [⟨n + width o l, 0, false, lastFree pf l⟩] = first n pf l :: rest o n l := by
  cases l with
  | nil => rfl
  | cons t l =>
      rw [place, width, lastFree, rest, List.cons_append, Nat.add_assoc n, Nat.add_assoc n]
      rfl

/-- What follows the first tile lies behind it. -/
theorem bounds_of_mem_rest (h : e ∈ rest o n l) :
    n + o + (first n pf l).size ≤ e.addr ∧ e.addr + e.size ≤ n + width o l := by
  cases l with
  | nil => cases h
  | cons t l =>
      unfold width
      change n + o + t.size ≤ e.addr ∧ _
      rcases List.mem_append.mp h with h | h
      · have := bounds_of_mem_place h
        omega
      · obtain rfl := List.mem_singleton.mp h
        simp only
        omega

/-- The first tile fits in the list. -/
theorem first_size_le : (first n pf l).size ≤ width o l := by
  cases l with
  | nil => exact le_rfl
  | cons t l =>
      unfold width
      change t.size ≤ _
      omega

/-! ### Pools

A pool is a list of tiles with a header in front of each and one at the end. Its headers are
computed from the sizes, so that no header can be in the wrong place. -/

/-- A pool, from the header of its first block on. -/
structure Pool where
  start : ℕ
  tiles : List Tile

/-- The place of the last header. -/
def Pool.stop (o : ℕ) (P : Pool) : ℕ := P.start + width o P.tiles

/-- The headers of a pool. -/
def Pool.headers (o : ℕ) (P : Pool) : List Header :=
  place o P.start false P.tiles ++ [⟨P.stop o, 0, false, lastFree false P.tiles⟩]

/-- The headers of all pools. -/
def headers (o : ℕ) (pools : List Pool) : List Header := pools.flatMap (Pool.headers o)

/-- The pools do not overlap. -/
def Apart (o : ℕ) (pools : List Pool) : Prop :=
  pools.Pairwise fun P Q => P.stop o + o ≤ Q.start ∨ Q.stop o + o ≤ P.start

variable {P : Pool} {pools : List Pool}

/-- The headers of a pool lie inside it. -/
theorem bounds_of_mem_headers (h : e ∈ P.headers o) :
    P.start ≤ e.addr ∧ e.addr + e.size ≤ P.stop o := by
  unfold Pool.stop
  rcases List.mem_append.mp h with h | h
  · have := bounds_of_mem_place h
    omega
  · obtain rfl := List.mem_singleton.mp h
    exact ⟨Nat.le_add_right .., le_rfl⟩

/-- All but some blocks after each other. -/
structure Ctx where
  before : List Pool
  start : ℕ
  left : List Tile
  right : List Tile
  after : List Pool

namespace Ctx

variable (C : Ctx)

/-- The pools with the blocks `ts` in the place that is left. -/
def fill (ts : List Tile) : List Pool :=
  C.before ++ ⟨C.start, C.left ++ ts ++ C.right⟩ :: C.after

/-- Where the place begins. -/
def addr (o : ℕ) : ℕ := C.start + width o C.left

/-- Whether the block before is free. -/
def prevFree : Bool := lastFree false C.left

/-- The header behind, which is at `n`. -/
def next (n : ℕ) (pf : Bool) : Header := first n pf C.right

/-- The other headers, where the one behind is at `n`. -/
def Outer (o n : ℕ) (e : Header) : Prop :=
  (∃ P, (P ∈ C.before ∨ P ∈ C.after) ∧ e ∈ P.headers o) ∨ e ∈ place o C.start false C.left ∨
    e ∈ rest o n C.right

variable {C}

/-- The headers of a pool, from a place in the middle. -/
theorem headers_middle :
    (⟨C.start, C.left ++ ts ++ C.right⟩ : Pool).headers o =
      place o C.start false C.left ++ place o (C.addr o) C.prevFree ts ++
        C.next (C.addr o + width o ts) (lastFree C.prevFree ts) ::
          rest o (C.addr o + width o ts) C.right := by
  rw [Pool.headers, Pool.stop]
  simp only [place_append, lastFree_append, width_append]
  rw [next, ← place_concat, addr, prevFree]
  simp only [List.append_assoc, Nat.add_assoc]

/-- The headers are those of the blocks in the place, the one behind, and the others. -/
theorem mem_fill : e ∈ headers o (C.fill ts) ↔
    C.Outer o (C.addr o + width o ts) e ∨ e ∈ place o (C.addr o) C.prevFree ts ∨
      e = C.next (C.addr o + width o ts) (lastFree C.prevFree ts) := by
  have hpools : ∀ l : List Pool, e ∈ headers o l ↔ ∃ P ∈ l, e ∈ P.headers o := fun l =>
    List.mem_flatMap
  rw [hpools, fill, Outer]
  simp only [List.mem_append, List.mem_cons]
  -- the pool with the place, and the pools before and after it
  constructor
  · rintro ⟨P, hP | rfl | hP, he⟩
    · exact .inl (.inl ⟨P, .inl hP, he⟩)
    · rw [headers_middle, List.mem_append, List.mem_append, List.mem_cons] at he
      tauto
    · exact .inl (.inl ⟨P, .inr hP, he⟩)
  · have hmiddle : (e ∈ place o C.start false C.left ∨ e ∈ place o (C.addr o) C.prevFree ts) ∨
        e = C.next (C.addr o + width o ts) (lastFree C.prevFree ts) ∨
          e ∈ rest o (C.addr o + width o ts) C.right →
        ∃ P, (P ∈ C.before ∨ P = ⟨C.start, C.left ++ ts ++ C.right⟩ ∨ P ∈ C.after) ∧
          e ∈ P.headers o := by
      intro he
      refine ⟨_, .inr (.inl rfl), ?_⟩
      rwa [headers_middle, List.mem_append, List.mem_append, List.mem_cons]
    rintro ((⟨P, hP, he⟩ | he | he) | he | he)
    · exact ⟨P, by tauto, he⟩
    · exact hmiddle (.inl (.inl he))
    · exact hmiddle (.inr (.inr he))
    · exact hmiddle (.inl (.inr he))
    · exact hmiddle (.inr (.inl he))

/-- Each block can be left out. -/
theorem exists_fill (h : e ∈ headers o pools) (hsize : e.size ≠ 0) :
    ∃ (C : Ctx) (t : Tile), pools = C.fill [t] ∧ e = ⟨C.addr o, t.size, t.free, C.prevFree⟩ := by
  obtain ⟨P, hP, he⟩ := List.mem_flatMap.mp h
  obtain ⟨before, after, rfl⟩ := List.append_of_mem hP
  rcases List.mem_append.mp he with he | he
  · obtain ⟨l₁, l₂, t, hl, rfl⟩ := exists_of_mem_place he
    refine ⟨⟨before, P.start, l₁, l₂, after⟩, t, ?_, rfl⟩
    unfold fill
    simp only [List.append_assoc, List.singleton_append, ← hl]
  · obtain rfl := List.mem_singleton.mp he
    exact absurd rfl hsize

/-- The first tile filled in is one of the headers. -/
theorem head_mem_fill :
    (⟨C.addr o, t.size, t.free, C.prevFree⟩ : Header) ∈ headers o (C.fill (t :: ts)) :=
  mem_fill.mpr (.inr (.inl List.mem_cons_self))

/-- So is the one that follows the tiles filled in. -/
theorem next_mem_fill (ts : List Tile) :
    C.next (C.addr o + width o ts) (lastFree C.prevFree ts) ∈ headers o (C.fill ts) :=
  mem_fill.mpr (.inr (.inr rfl))

/-! ### Places

A context is everything around some tiles. Operations that work on a few neighbouring blocks are
stated as filling the same place with other tiles. -/

/-- Where the pool ends, from a place in the middle. -/
theorem stop_middle : (⟨C.start, C.left ++ ts ++ C.right⟩ : Pool).stop o =
    C.addr o + width o ts + width o C.right := by
  rw [Pool.stop, addr, width_append, width_append]
  simp only [Nat.add_assoc]

/-- The tiles around a place do not overlap what is filled in there. -/
theorem outer_apart (pf : Bool) (h : Apart o (C.fill ts))
    (he : C.Outer o (C.addr o + width o ts) e) :
    e.addr + o + e.size ≤ C.addr o ∨
      C.addr o + width o ts + o + (C.next (C.addr o + width o ts) pf).size ≤ e.addr := by
  have hsize : (C.next (C.addr o + width o ts) pf).size ≤ width o C.right := first_size_le
  have haddr : C.start ≤ C.addr o := Nat.le_add_right ..
  -- a header of another pool, of a block before the place, or behind it
  rcases he with ⟨P, hP, he⟩ | he | he
  · have hb := bounds_of_mem_headers he
    rw [Apart, fill, List.pairwise_append, List.pairwise_cons] at h
    obtain ⟨-, ⟨hafter, -⟩, hbefore⟩ := h
    have hapart : P.stop o + o ≤ C.start ∨
      C.addr o + width o ts + width o C.right + o ≤ P.start := by
      rw [← stop_middle]
      rcases hP with hP | hP
      · exact hbefore P hP _ List.mem_cons_self
      · exact (hafter P hP).symm
    omega
  · have := bounds_of_mem_place he
    exact .inl this.2
  · exact .inr (bounds_of_mem_rest he).1

/-- What is in the place does not matter to the other pools. -/
theorem apart_fill (h : Apart o (C.fill ts)) (hwidth : width o ts' = width o ts) :
    Apart o (C.fill ts') := by
  have hstop : (⟨C.start, C.left ++ ts' ++ C.right⟩ : Pool).stop o =
      (⟨C.start, C.left ++ ts ++ C.right⟩ : Pool).stop o := by
    rw [stop_middle, stop_middle, hwidth]
  rw [Apart, fill, List.pairwise_append, List.pairwise_cons] at h ⊢
  obtain ⟨hb, ⟨hafter, ha⟩, hbefore⟩ := h
  refine ⟨hb, ⟨fun Q hQ => ?_, ha⟩, fun P hP Q hQ => ?_⟩
  · rw [hstop]
    exact hafter Q hQ
  · rcases List.mem_cons.mp hQ with rfl | hQ
    · rw [hstop]
      exact hbefore P hP _ List.mem_cons_self
    · exact hbefore P hP Q (List.mem_cons_of_mem _ hQ)

end Ctx

end Tiling
