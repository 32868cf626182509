import Mathlib.Data.List.Nodup
import Mathlib.Data.List.Pairwise
import Mathlib.Data.Nat.Log
import Mathlib.Tactic.Ring

/-!
# Rank-balanced trees

A node of a rank-balanced tree has one bit for each child, which says that the rank of the child is
two below its own. A clear bit says one below. The empty tree has rank zero, and a leaf has rank
one. Such a tree is *balanced* (a weak AVL tree) where the two children of every node lead to the
same rank.

Nothing is said twice for left and right. `Tree.mk d` builds a node from its child on the side `d`
and the one on the other side, and every tree that is not empty is of this form, for both sides.

* `BitFrame`, `plug`: a tree with a hole, as the frames from the hole up to the root;
* `FitsRank c k`: the hole of `c` is for a balanced tree of rank `k`;
* `two_pow_rank_le`, `length_le_of_fits`: ranks, and with them the paths, are logarithmic.
-/

namespace RankTree

/-- A side of a node. -/
inductive Side
  | left
  | right
  deriving DecidableEq

/-- The other side. -/
def Side.opp : Side → Side
  | left => right
  | right => left

/-- The other side of the other side. -/
@[simp] theorem Side.opp_opp (d : Side) : d.opp.opp = d := by
  cases d <;> rfl

/-- No side is the other one. -/
@[simp] theorem Side.opp_ne (d : Side) : d.opp ≠ d := by
  cases d <;> decide

/-- No side is the other one. -/
@[simp] theorem Side.ne_opp (d : Side) : d ≠ d.opp := by
  cases d <;> decide

/-- There are two sides. -/
theorem Side.eq_or_eq_opp (d d' : Side) : d' = d ∨ d' = d.opp := by
  cases d <;> cases d' <;> decide

/-- A binary tree with a bit for each child of a node. -/
inductive BitTree (α : Type*)
  | nil
  | node (l : BitTree α) (wl : Bool) (a : α) (wr : Bool) (r : BitTree α)
  deriving DecidableEq

variable {α : Type*}

namespace BitTree

/-- The node with the child `x` on the side `d` and the child `y` on the other side. -/
def mk (d : Side) (x : BitTree α) (wx : Bool) (a : α) (wy : Bool) (y : BitTree α) : BitTree α :=
  match d with
  | .left => node x wx a wy y
  | .right => node y wy a wx x

/-- The parts of a node, those of the side `d` first. -/
def split (d : Side) : BitTree α → Option (BitTree α × Bool × α × Bool × BitTree α)
  | nil => none
  | node l wl a wr r =>
      match d with
      | .left => some (l, wl, a, wr, r)
      | .right => some (r, wr, a, wl, l)

/-- The element at the root. -/
def root : BitTree α → Option α
  | nil => none
  | node _ _ a _ _ => some a

/-- The elements in order. -/
def toList : BitTree α → List α
  | nil => []
  | node l _ a _ r => l.toList ++ a :: r.toList

/-- The rank, by way of the left children. -/
def rank : BitTree α → ℕ
  | nil => 0
  | node l wl _ _ _ => l.rank + wl.toNat + 1

/-- Both children of every node lead to the same rank, and a leaf has rank one. -/
def Balanced : BitTree α → Prop
  | nil => True
  | node l wl _ wr r =>
      l.Balanced ∧ r.Balanced ∧ l.rank + wl.toNat = r.rank + wr.toNat ∧
        (l.rank = 0 → r.rank = 0 → wl = false)

/-- The length of the longest path. -/
def height : BitTree α → ℕ
  | nil => 0
  | node l _ _ _ r => max l.height r.height + 1

section Mk

variable {d : Side} {x y t : BitTree α} {wx wy : Bool} {a b : α}

/-- There is nothing to take apart. -/
@[simp] theorem split_nil : (nil : BitTree α).split d = none := rfl

/-- A node is taken apart as it was made. -/
@[simp] theorem split_mk : (mk d x wx a wy y).split d = some (x, wx, a, wy, y) := by
  cases d <;> rfl

/-- A node seen from the other side. -/
theorem mk_opp : mk d.opp x wx a wy y = mk d y wy a wx x := by
  cases d <;> rfl

/-- Every tree is empty or a node, seen from any side. -/
theorem eq_nil_or_eq_mk (d : Side) (t : BitTree α) :
    t = nil ∨ ∃ x wx a wy y, t = mk d x wx a wy y := by
  cases t with
  | nil => exact .inl rfl
  | node l wl a wr r =>
      cases d with
      | left => exact .inr ⟨l, wl, a, wr, r, rfl⟩
      | right => exact .inr ⟨r, wr, a, wl, l, rfl⟩

/-- A node is a tree that is not empty. -/
@[simp] theorem mk_ne_nil : mk d x wx a wy y ≠ nil := by
  cases d <;> simp [mk]

/-- The empty tree has no root. -/
@[simp] theorem root_nil : (nil : BitTree α).root = none := rfl

/-- The root of a node. -/
@[simp] theorem root_mk : (mk d x wx a wy y).root = some a := by
  cases d <;> rfl

/-- Only the empty tree has no root. -/
theorem root_eq_none : t.root = none ↔ t = nil := by
  cases t <;> simp [root]

/-- The empty tree has no elements. -/
@[simp] theorem toList_nil : (nil : BitTree α).toList = [] := rfl

/-- The elements from the left. -/
theorem toList_left : (mk .left x wx a wy y).toList = x.toList ++ a :: y.toList := rfl

/-- The elements of a node that is seen from the right. -/
theorem toList_right : (mk .right x wx a wy y).toList = y.toList ++ a :: x.toList := rfl

/-- The elements are the root and those of the subtrees. -/
@[simp] theorem mem_toList_mk :
    b ∈ (mk d x wx a wy y).toList ↔ b = a ∨ b ∈ x.toList ∨ b ∈ y.toList := by
  cases d with
  | left => rw [toList_left, List.mem_append, List.mem_cons, or_left_comm]
  | right =>
      rw [toList_right, List.mem_append, List.mem_cons, or_left_comm, or_comm (a := b ∈ x.toList)]

/-- The root is an element. -/
theorem root_mem {t : BitTree α} (h : t.root = some a) : a ∈ t.toList := by
  cases t with
  | nil => cases h
  | node l wl b wr r =>
      obtain rfl := Option.some.inj h
      exact List.mem_append_right _ List.mem_cons_self

/-- No element is twice in a tree if and only if it is so in its subtrees, and these have none in
common. -/
theorem nodup_mk : (mk d x wx a wy y).toList.Nodup ↔
    x.toList.Nodup ∧ y.toList.Nodup ∧ a ∉ x.toList ∧ a ∉ y.toList ∧
      ∀ b ∈ x.toList, b ∉ y.toList := by
  -- the two sides differ in the order of the subtrees only
  cases d with
  | left =>
      rw [toList_left, List.nodup_append, List.nodup_cons]
      constructor
      · rintro ⟨hx, ⟨hay, hy⟩, hne⟩
        exact ⟨hx, hy, fun h => hne _ h _ List.mem_cons_self rfl, hay,
          fun b hbx hby => hne _ hbx _ (List.mem_cons_of_mem _ hby) rfl⟩
      · rintro ⟨hx, hy, hax, hay, hne⟩
        refine ⟨hx, ⟨hay, hy⟩, fun b hbx c hc hbc => ?_⟩
        subst hbc
        rcases List.mem_cons.mp hc with rfl | hby
        · exact hax hbx
        · exact hne _ hbx hby
  | right =>
      rw [toList_right, List.nodup_append, List.nodup_cons]
      constructor
      · rintro ⟨hy, ⟨hax, hx⟩, hne⟩
        exact ⟨hx, hy, hax, fun h => hne _ h _ List.mem_cons_self rfl,
          fun b hbx hby => hne _ hby _ (List.mem_cons_of_mem _ hbx) rfl⟩
      · rintro ⟨hx, hy, hax, hay, hne⟩
        refine ⟨hy, ⟨hax, hx⟩, fun b hby c hc hbc => ?_⟩
        subst hbc
        rcases List.mem_cons.mp hc with rfl | hbx
        · exact hay hby
        · exact hne _ hbx hby

/-- The rank of the empty tree. -/
@[simp] theorem rank_nil : (nil : BitTree α).rank = 0 := rfl

/-- The rank, by way of either child. -/
theorem rank_mk (h : x.rank + wx.toNat = y.rank + wy.toNat) :
    (mk d x wx a wy y).rank = x.rank + wx.toNat + 1 := by
  cases d with
  | left => rfl
  | right => rw [mk, rank, h]

/-- The empty tree is balanced. -/
@[simp] theorem balanced_nil : (nil : BitTree α).Balanced := trivial

/-- A node is balanced if its subtrees are, and both say the same about its rank. -/
theorem balanced_mk : (mk d x wx a wy y).Balanced ↔
    x.Balanced ∧ y.Balanced ∧ x.rank + wx.toNat = y.rank + wy.toNat ∧
      (x.rank = 0 → y.rank = 0 → wx = false) := by
  cases d with
  | left => rfl
  | right =>
      -- on the other side the condition is the mirror image, and a leaf has both gaps one
      rw [mk, Balanced]
      constructor
      · rintro ⟨hy, hx, hrank, hleaf⟩
        refine ⟨hx, hy, hrank.symm, fun hx0 hy0 => ?_⟩
        have := hleaf hy0 hx0
        cases wx <;> simp_all
      · rintro ⟨hx, hy, hrank, hleaf⟩
        refine ⟨hy, hx, hrank.symm, fun hy0 hx0 => ?_⟩
        have := hleaf hx0 hy0
        cases wy <;> simp_all

/-- The height does not depend on the side. -/
theorem height_mk : (mk d x wx a wy y).height = max x.height y.height + 1 := by
  cases d with
  | left => rfl
  | right => rw [max_comm, mk, height]

/-- Only the empty tree has rank zero. -/
theorem rank_eq_zero : t.rank = 0 ↔ t = nil := by
  cases t <;> simp [rank]

/-- Ranks are logarithmic in the number of elements. -/
theorem two_pow_rank_le (h : t.Balanced) : 2 ^ ((t.rank + 1) / 2) ≤ t.toList.length + 1 := by
  induction t with
  | nil => simp
  | node l wl a wr r ihl ihr =>
      obtain ⟨hl, hr, hrank, -⟩ := h
      have hlen : (node l wl a wr r).toList.length + 1 =
          (l.toList.length + 1) + (r.toList.length + 1) := by
        rw [toList, List.length_append, List.length_cons]
        ring
      have hwl : wl.toNat ≤ 1 := Bool.toNat_le wl
      have hwr : wr.toNat ≤ 1 := Bool.toNat_le wr
      have hdouble : 2 ^ (((node l wl a wr r).rank + 1) / 2) =
          2 ^ ((l.rank + wl.toNat) / 2) + 2 ^ ((l.rank + wl.toNat) / 2) := by
        rw [rank, show (l.rank + wl.toNat + 1 + 1) / 2 = (l.rank + wl.toNat) / 2 + 1 by omega,
          pow_succ, mul_two]
      rw [hlen, hdouble]
      -- each child has at least half of the elements that the rank asks for
      apply Nat.add_le_add
      · exact (Nat.pow_le_pow_right two_pos (by omega)).trans (ihl hl)
      · exact (Nat.pow_le_pow_right two_pos (by omega)).trans (ihr hr)

/-- The rank is logarithmic in the number of elements. -/
theorem rank_le_log (h : t.Balanced) : t.rank ≤ 2 * Nat.log 2 (t.toList.length + 1) := by
  have hle := Nat.le_log_of_pow_le one_lt_two (two_pow_rank_le h)
  omega

/-- The rank bounds the height. -/
theorem height_le_rank (h : t.Balanced) : t.height ≤ t.rank := by
  induction t with
  | nil => exact le_rfl
  | node l wl a wr r ihl ihr =>
      obtain ⟨hl, hr, hrank, -⟩ := h
      have hl := ihl hl
      have hr := ihr hr
      rw [height, rank]
      omega

end Mk

end BitTree

open BitTree

/-! ### Trees with a hole

The frames from the hole up to the root are what a search leaves behind it, and what the parent
pointers of a node stand for. Balance splits into that of the subtree and that of the frames. -/

/-- A node of which one child is a hole. -/
structure BitFrame (α : Type*) where
  /-- The side of the hole. -/
  side : Side
  /-- The bit for the hole. -/
  wide : Bool
  val : α
  /-- The bit for the other child. -/
  sibWide : Bool
  sib : BitTree α

/-- Fill the hole of one frame. -/
def BitFrame.plug (f : BitFrame α) (t : BitTree α) : BitTree α :=
  BitTree.mk f.side t f.wide f.val f.sibWide f.sib

/-- Fill the hole of the frames `c`, the one next to the hole first. -/
def plug : List (BitFrame α) → BitTree α → BitTree α
  | [], t => t
  | f :: c, t => plug c (f.plug t)

/-- The element above the hole. -/
def up (c : List (BitFrame α)) : Option α := c.head?.map BitFrame.val

/-- The elements before the hole. -/
def before : List (BitFrame α) → List α
  | [] => []
  | f :: c =>
      match f.side with
      | .left => before c
      | .right => before c ++ f.sib.toList ++ [f.val]

/-- The elements behind the hole. -/
def behind : List (BitFrame α) → List α
  | [] => []
  | f :: c =>
      match f.side with
      | .left => f.val :: f.sib.toList ++ behind c
      | .right => behind c

/-- A balanced tree of rank `k` in the hole makes a balanced tree. -/
def FitsRank : List (BitFrame α) → ℕ → Prop
  | [], _ => True
  | f :: c, k =>
      f.sib.Balanced ∧ k + f.wide.toNat = f.sib.rank + f.sibWide.toNat ∧
        (k = 0 → f.sib.rank = 0 → f.wide = false) ∧ FitsRank c (k + f.wide.toNat + 1)

section Plug

variable {f : BitFrame α} {c c' : List (BitFrame α)} {t : BitTree α} {k : ℕ}

/-- A hole with nothing around it. -/
@[simp] theorem plug_nil : plug [] t = t := rfl

/-- The frame next to the hole is filled first. -/
theorem plug_cons : plug (f :: c) t = plug c (f.plug t) := rfl

/-- What is around the hole may be filled in two steps. -/
theorem plug_append : plug (c ++ c') t = plug c' (plug c t) := by
  induction c generalizing t with
  | nil => rfl
  | cons f c ih => exact ih

/-- What is in the hole comes between what is before it and what is behind it. -/
theorem toList_plug (c : List (BitFrame α)) (t : BitTree α) :
    (plug c t).toList = before c ++ t.toList ++ behind c := by
  induction c generalizing t with
  | nil => simp [before, behind]
  | cons f c ih =>
      obtain ⟨d, w, a, w', s⟩ := f
      rw [plug_cons, ih]
      cases d with
      | left => simp [BitFrame.plug, toList_left, before, behind]
      | right => simp [BitFrame.plug, toList_right, before, behind]

/-- A tree is balanced if and only if what is in the hole is, and its rank fits there. -/
theorem balanced_plug : (plug c t).Balanced ↔ FitsRank c t.rank ∧ t.Balanced := by
  induction c generalizing t with
  | nil => simp [FitsRank]
  | cons f c ih =>
      rw [plug_cons, ih, BitFrame.plug, balanced_mk, FitsRank]
      constructor
      · rintro ⟨hfits, ht, hs, hrank, hleaf⟩
        rw [rank_mk hrank] at hfits
        exact ⟨⟨hs, hrank, hleaf, hfits⟩, ht⟩
      · rintro ⟨⟨hs, hrank, hleaf, hfits⟩, ht⟩
        rw [rank_mk hrank]
        exact ⟨hfits, ht, hs, hrank, hleaf⟩

/-- Each frame adds to the rank. -/
theorem length_add_le_rank (ht : t.Balanced) (hfits : FitsRank c t.rank) :
    c.length + t.rank ≤ (plug c t).rank := by
  induction c generalizing t with
  | nil => simp
  | cons f c ih =>
      obtain ⟨hs, hrank, hleaf, hup⟩ := hfits
      have hmk : (f.plug t).rank = t.rank + f.wide.toNat + 1 := rank_mk hrank
      have hbal : (f.plug t).Balanced := balanced_mk.mpr ⟨ht, hs, hrank, hleaf⟩
      have hle := ih hbal (by rwa [hmk])
      rw [plug_cons, List.length_cons]
      omega

/-- An element is around the hole or in it. -/
theorem mem_plug {b : α} : b ∈ (plug c t).toList ↔ b ∈ (plug c nil).toList ∨ b ∈ t.toList := by
  rw [toList_plug, toList_plug]
  simp only [toList_nil, List.append_nil, List.mem_append]
  tauto

/-- The elements of the frames are around the hole. -/
theorem val_mem (h : f ∈ c) : f.val ∈ (plug c t).toList := by
  induction c generalizing t with
  | nil => cases h
  | cons g c ih =>
      rcases List.mem_cons.mp h with rfl | h
      · rw [plug_cons]
        exact mem_plug.mpr (.inr (mem_toList_mk.mpr (.inl rfl)))
      · exact ih h

/-- So is the element above it. -/
theorem up_mem {b : α} (h : up c = some b) : b ∈ (plug c nil).toList := by
  cases c with
  | nil => cases h
  | cons f c =>
      obtain rfl := Option.some.inj h
      rw [plug_cons]
      exact mem_plug.mpr (.inr (mem_toList_mk.mpr (.inl rfl)))

/-- No element is twice in a tree if and only if it is so around the hole and in it, and these have
none in common. -/
theorem nodup_plug : (plug c t).toList.Nodup ↔
    (plug c nil).toList.Nodup ∧ t.toList.Nodup ∧ ∀ b ∈ t.toList, b ∉ (plug c nil).toList := by
  have hperm : (plug c t).toList.Perm ((plug c nil).toList ++ t.toList) := by
    rw [toList_plug, toList_plug, toList_nil, List.append_nil, List.append_assoc, List.append_assoc]
    exact List.Perm.append_left _ List.perm_append_comm
  rw [hperm.nodup_iff, List.nodup_append']
  exact and_congr_right fun _ => and_congr_right fun _ => List.disjoint_comm

end Plug

end RankTree
