import Koharu.Lib.RankRebalance
import Mathlib.Data.List.TakeWhile

/-!
# Searching rank-balanced trees

* `seek`: the hole at which a search ends, and `seek_spec`: what is before it and behind it;
* `insert`, `remove`: the operations on the trees, by way of the hole that they work at;
* `Tree.listFrom`, `beyond`: the elements in the order in which they are met from one side.
-/

namespace RankTree

open BitTree

variable {α : Type*}

/-! ### The hole of a search

A search is a function from elements to directions; that it finds the right place asks only that the
directions sweep once from right to left over the elements in order. -/

/-- Go down as `dir` says, until it stops or the tree ends. -/
def seek (dir : α → Option Side) (c : List (BitFrame α)) : BitTree α → List (BitFrame α) × BitTree α
  | nil => (c, nil)
  | node l wl a wr r =>
      match dir a with
      | none => (c, node l wl a wr r)
      | some .left => seek dir (⟨.left, wl, a, wr, r⟩ :: c) l
      | some .right => seek dir (⟨.right, wr, a, wl, l⟩ :: c) r

/-- Once `dir` does not point to the right, it points to the left from there on. -/
def Sweeps (dir : α → Option Side) (l : List α) : Prop :=
  l.Pairwise fun a b => dir a ≠ some .right → dir b = some .left

section Seek

variable {dir : α → Option Side} {c : List (BitFrame α)} {t : BitTree α}

/-- A list whose first part has the property, and whose second begins without it, is cut between
them.
-/
theorem takeWhile_append_eq {p : α → Prop} [DecidablePred p] {as bs : List α}
    (has : ∀ a ∈ as, p a) (hbs : ∀ b ∈ bs.head?, ¬ p b) :
    (as ++ bs).takeWhile (fun a => p a) = as := by
  rw [List.takeWhile_append_of_pos fun a ha => decide_eq_true (has a ha)]
  cases bs with
  | nil => simp
  | cons b bs => rw [List.takeWhile_cons_of_neg (by simpa using hbs b rfl), List.append_nil]

/-- What is dropped is the first part. -/
theorem dropWhile_append_eq {p : α → Prop} [DecidablePred p] {as bs : List α}
    (has : ∀ a ∈ as, p a) (hbs : ∀ b ∈ bs.head?, ¬ p b) :
    (as ++ bs).dropWhile (fun a => p a) = bs := by
  rw [List.dropWhile_append_of_pos fun a ha => decide_eq_true (has a ha)]
  cases bs with
  | nil => rfl
  | cons b bs => rw [List.dropWhile_cons_of_neg (by simpa using hbs b rfl)]

/-- A search moves the focus and leaves the tree. -/
theorem plug_seek (dir : α → Option Side) (c : List (BitFrame α)) (t : BitTree α) :
    plug (seek dir c t).1 (seek dir c t).2 = plug c t := by
  induction t generalizing c with
  | nil => rfl
  | node l wl a wr r ihl ihr =>
      rw [seek]
      split
      · rfl
      · exact ihl _
      · exact ihr _

/-- The search stops at a tree that is empty or at a node where `dir` stops. -/
theorem root_seek (dir : α → Option Side) (c : List (BitFrame α)) (t : BitTree α) :
    ∀ a ∈ (seek dir c t).2.root, dir a = none := by
  induction t generalizing c with
  | nil => simp [seek]
  | node l wl a wr r ihl ihr =>
      rw [seek]
      split
      next h =>
        intro b hb
        obtain rfl := Option.some.inj hb
        exact h
      next => exact ihl _
      next => exact ihr _

/-- The hole of a search is behind what `dir` calls to the right of, and before the rest. -/
theorem seek_spec (hsweeps : Sweeps dir (plug c t).toList)
    (hbefore : ∀ a ∈ before c, dir a = some .right) (hbehind : ∀ a ∈ behind c, dir a = some .left) :
    (∀ a ∈ before (seek dir c t).1, dir a = some .right) ∧
      ∀ a ∈ behind (seek dir c t).1, dir a = some .left := by
  induction t generalizing c with
  | nil => exact ⟨hbefore, hbehind⟩
  | node l wl a wr r ihl ihr =>
      have hlist := hsweeps
      rw [toList_plug, toList, Sweeps, List.append_assoc, List.pairwise_append] at hlist
      have hmid := hlist.2.1
      rw [List.append_assoc, List.cons_append, List.pairwise_append, List.pairwise_cons] at hmid
      rw [seek]
      split
      next h => exact ⟨hbefore, hbehind⟩
      next h =>
        refine ihl hsweeps hbefore ?_
        intro b hb
        simp only [behind, List.cons_append, List.mem_cons] at hb
        rcases hb with rfl | hb
        · exact h
        · exact hmid.2.1.1 b hb (by rw [h]; decide)
      next h =>
        refine ihr hsweeps ?_ hbehind
        intro b hb
        simp only [before, List.mem_append, List.mem_singleton] at hb
        rcases hb with (hb | hb) | rfl
        · exact hbefore b hb
        · -- an element that is not passed on the right has `a` on its left
          by_contra hne
          have := hmid.2.2 b hb a List.mem_cons_self hne
          rw [h] at this
          cases this
        · exact h

/-- A search that ends below the tree has passed what `dir` calls to the right of. -/
theorem seek_nil (hsweeps : Sweeps dir t.toList) (hnil : (seek dir [] t).2 = nil) :
    before (seek dir [] t).1 = t.toList.takeWhile (fun a => dir a = some .right) ∧
      behind (seek dir [] t).1 = t.toList.dropWhile (fun a => dir a = some .right) ∧
        ∀ a ∈ t.toList, dir a ≠ none := by
  obtain ⟨hbefore, hbehind⟩ := seek_spec (c := []) hsweeps (by simp [before]) (by simp [behind])
  have hplug := congrArg toList (plug_seek dir [] t)
  -- the search ran out of the tree, so the tree is what it passed on either side
  rw [plug_nil, toList_plug, hnil, toList_nil, List.append_nil] at hplug
  rw [← hplug]
  refine ⟨(takeWhile_append_eq hbefore ?_).symm, (dropWhile_append_eq hbefore ?_).symm, ?_⟩
  · intro a ha
    rw [hbehind a (List.mem_of_mem_head? ha)]
    decide
  · intro a ha
    rw [hbehind a (List.mem_of_mem_head? ha)]
    decide
  · intro a ha
    rcases List.mem_append.mp ha with ha | ha
    · rw [hbefore a ha]
      exact Option.some_ne_none _
    · rw [hbehind a ha]
      exact Option.some_ne_none _

/-- A search that stops at a node has passed what is before the node. -/
theorem seek_node {l r : BitTree α} {wl wr : Bool} {a : α} (hsweeps : Sweeps dir t.toList)
    (hnode : (seek dir [] t).2 = node l wl a wr r) :
    dir a = none ∧ a ∈ t.toList ∧
      before (seek dir [] t).1 ++ l.toList = t.toList.takeWhile (fun a => dir a = some .right) ∧
        a :: (r.toList ++ behind (seek dir [] t).1) =
          t.toList.dropWhile fun a => dir a = some .right := by
  obtain ⟨hbefore, -⟩ := seek_spec (c := []) hsweeps (by simp [before]) (by simp [behind])
  have hstop : dir a = none := root_seek dir [] t a (by rw [hnode]; rfl)
  have hplug := congrArg toList (plug_seek dir [] t)
  rw [plug_nil, toList_plug, hnode, toList, List.append_assoc, List.append_assoc,
    List.cons_append, ← List.append_assoc] at hplug
  -- what is before the node in its tree has the node on its right
  have hpass : ∀ b ∈ before (seek dir [] t).1 ++ l.toList, dir b = some .right := by
    intro b hb
    by_contra hne
    rw [← hplug] at hsweeps
    have := (List.pairwise_append.mp hsweeps).2.2 b hb a List.mem_cons_self hne
    rw [hstop] at this
    cases this
  rw [← hplug]
  refine ⟨hstop, List.mem_append_right _ List.mem_cons_self, (takeWhile_append_eq hpass ?_).symm,
    (dropWhile_append_eq hpass ?_).symm⟩
  · intro b hb
    obtain rfl := Option.some.inj hb
    rw [hstop]
    decide
  · intro b hb
    obtain rfl := Option.some.inj hb
    rw [hstop]
    decide

end Seek

/-! ### Insertion and deletion

Both are local changes in a hole followed by rebalancing, so that order and balance are proved
separately: the elements from the hole's point of view, and the ranks from the tree's. -/

/-- A new leaf in the hole of `c`. -/
def insertAt (c : List (BitFrame α)) (a : α) : BitTree α := rise c (leaf a)

/-- The least element of a tree, the hole that it leaves and the tree that goes there. -/
def splitMin (c : List (BitFrame α)) : BitTree α → Option (List (BitFrame α) × α × BitTree α)
  | nil => none
  | node l wl a wr r => (splitMin (⟨.left, wl, a, wr, r⟩ :: c) l).or (some (c, a, r))

/-- Take the root out of the tree in the hole of `c`. With two children the least element behind it
gets its place. -/
def removeAt (c : List (BitFrame α)) : BitTree α → BitTree α
  | nil => plug c nil
  | node l wl _ wr r =>
      if l.root.isNone then collapse c r
      else if r.root.isNone then collapse c l
      else
        match splitMin [] r with
        | none => plug c nil
        | some (c', m, y) => collapse (c' ++ ⟨.right, wr, m, wl, l⟩ :: c) y

section Operations

variable {c c' : List (BitFrame α)} {t l r x y : BitTree α} {a m : α} {wl wr w w' : Bool} {k : ℕ}
  {d : Side}

/-- The new node stands between what is before the hole and what is behind it. -/
theorem toList_insertAt : (insertAt c a).toList = before c ++ a :: behind c := by
  rw [insertAt, toList_rise, toList_plug, toList_leaf, List.append_assoc]
  rfl

/-- Rebalancing after an insertion gives a balanced tree. -/
theorem balanced_insertAt (h : (plug c nil).Balanced) : (insertAt c a).Balanced :=
  balanced_rise (balanced_plug.mp h).1 balanced_leaf rfl (leaning_leaf a)

/-- A tree that is not empty has a least node. -/
theorem splitMin_ne_none {f : List (BitFrame α)} (ht : t ≠ nil) : splitMin f t ≠ none := by
  cases t with
  | nil => exact absurd rfl ht
  | node l wl a wr r =>
      unfold splitMin
      cases splitMin (⟨.left, wl, a, wr, r⟩ :: f) l <;> simp

/-- The rule of induction for `splitMin`: what holds of the tree in its hole, and is kept on the way
to the left, holds of the least element in its hole. -/
theorem splitMin_induction {P : List (BitFrame α) → BitTree α → Prop}
    (h : splitMin c t = some (c', m, y)) (hstart : P c t)
    (hleft : ∀ c l wl a wr r, l ≠ nil → P c (node l wl a wr r) → P (⟨.left, wl, a, wr, r⟩ :: c) l) :
    ∃ w w', P c' (node nil w m w' y) := by
  induction t generalizing c with
  | nil => cases h
  | node l wl a wr r ihl _ =>
      unfold splitMin at h
      -- no left child: this is the least element; otherwise one level down, with one more frame
      by_cases hl : l = nil
      · subst hl
        obtain ⟨rfl, rfl, rfl⟩ : c = c' ∧ a = m ∧ r = y := by simpa [splitMin] using h
        exact ⟨wl, wr, hstart⟩
      · obtain ⟨q, hq⟩ := Option.ne_none_iff_exists'.mp
          (splitMin_ne_none (f := ⟨.left, wl, a, wr, r⟩ :: c) hl)
        rw [hq, Option.some_or] at h
        exact ihl (hq.trans h) (hleft c l wl a wr r hl hstart)

/-- The tree is the least element, with the tree to its right, in that hole. -/
theorem plug_of_splitMin (h : splitMin c t = some (c', m, y)) :
    ∃ w w', plug c' (node nil w m w' y) = plug c t :=
  splitMin_induction (P := fun c' t' => plug c' t' = plug c t) h rfl fun _ _ _ _ _ _ _ hplug =>
    hplug

/-- Nothing is before the least element of the tree. -/
theorem before_splitMin (h : splitMin c t = some (c', m, y)) : before c' = before c := by
  obtain ⟨_, _, hbefore⟩ := splitMin_induction (P := fun c' _ => before c' = before c) h rfl
    fun _ _ _ _ _ _ _ hbefore => hbefore
  exact hbefore

/-- The way to the least element is to the left. -/
theorem side_splitMin (h : splitMin c t = some (c', m, y)) (hc : ∀ g ∈ c, g.side = .left) :
    ∀ g ∈ c', g.side = .left := by
  obtain ⟨_, _, hside⟩ := splitMin_induction (P := fun c' _ => ∀ g ∈ c', g.side = .left) h hc
    fun c l wl a wr r _ hc g hg => by
      rcases List.mem_cons.mp hg with rfl | hg
      · rfl
      · exact hc g hg
  exact hside

/-- The way does not depend on what is above the tree. -/
theorem splitMin_append (c₀ : List (BitFrame α)) (h : splitMin c t = some (c', m, y)) :
    splitMin (c ++ c₀) t = some (c' ++ c₀, m, y) := by
  obtain ⟨w, w', hsplit⟩ := splitMin_induction
    (P := fun c' t' => splitMin (c ++ c₀) t = splitMin (c' ++ c₀) t') h rfl
    fun c l wl a wr r hl hsplit => by
      obtain ⟨q, hq⟩ := Option.ne_none_iff_exists'.mp
        (splitMin_ne_none (f := ⟨.left, wl, a, wr, r⟩ :: (c ++ c₀)) hl)
      rw [hsplit, splitMin, hq, Option.some_or, List.cons_append, hq]
  rw [hsplit]
  rfl

/-- Where a node with one child goes, the tree gets a rank one too small. -/
theorem fits_of_cut (h : (plug c (BitTree.mk d nil w a w' y)).Balanced) :
    FitsRank c (y.rank + 1) ∧ y.Balanced := by
  obtain ⟨hfits, hbal⟩ := balanced_plug.mp h
  obtain ⟨-, hy, hrank, hleaf⟩ := balanced_mk.mp hbal
  rw [rank_mk hrank] at hfits
  rw [rank_nil, zero_add] at *
  have heq : w.toNat = y.rank := by
    have hle := Bool.toNat_le w
    by_cases hy0 : y.rank = 0
    · rw [hleaf rfl hy0, hy0, Bool.toNat_false]
    · omega
  rw [heq] at hfits
  exact ⟨hfits, hy⟩

/-- Whether a tree fits does not depend on the elements. -/
theorem fits_replace {f : BitFrame α} :
    FitsRank (c' ++ { f with val := m } :: c) k ↔ FitsRank (c' ++ f :: c) k := by
  induction c' generalizing k with
  | nil => rfl
  | cons g c' ih => simp only [List.cons_append, FitsRank, ih]

/-- The node taken out is missing from the list, the others keep their order. -/
theorem toList_removeAt :
    (removeAt c (node l wl a wr r)).toList = before c ++ (l.toList ++ r.toList) ++ behind c := by
  rw [removeAt]
  split_ifs with hl hr
  · rw [Option.isNone_iff_eq_none, root_eq_none] at hl
    rw [toList_collapse, toList_plug, hl]
    rfl
  · rw [Option.isNone_iff_eq_none, root_eq_none] at hr
    rw [toList_collapse, toList_plug, hr, toList_nil, List.append_nil]
  · rw [Option.isNone_iff_eq_none, root_eq_none] at hr
    obtain ⟨⟨c', m, y⟩, hq⟩ := Option.ne_none_iff_exists'.mp (splitMin_ne_none (f := []) hr)
    simp only [hq]
    -- `m` is the first of the elements behind the root
    obtain ⟨w, w', hplug⟩ := plug_of_splitMin hq
    have hlist := congrArg toList hplug
    rw [toList_plug, plug_nil, before_splitMin hq] at hlist
    rw [toList_collapse, plug_append, plug_cons, toList_plug, ← hlist, BitFrame.plug, toList_right,
      toList_plug, before_splitMin hq]
    simp [before, toList]

/-- Rebalancing after a removal gives a balanced tree. -/
theorem balanced_removeAt (h : (plug c (node l wl a wr r)).Balanced) :
    (removeAt c (node l wl a wr r)).Balanced := by
  rw [removeAt]
  split_ifs with hl hr
  · rw [Option.isNone_iff_eq_none, root_eq_none] at hl
    subst hl
    obtain ⟨hfits, hr⟩ := fits_of_cut (d := .left) h
    exact balanced_collapse hfits hr
  · rw [Option.isNone_iff_eq_none, root_eq_none] at hr
    subst hr
    obtain ⟨hfits, hl⟩ := fits_of_cut (d := .right) h
    exact balanced_collapse hfits hl
  · rw [Option.isNone_iff_eq_none, root_eq_none] at hr
    obtain ⟨⟨c', m, y⟩, hq⟩ := Option.ne_none_iff_exists'.mp (splitMin_ne_none (f := []) hr)
    obtain ⟨w, w', hplug⟩ := plug_of_splitMin hq
    simp only [hq]
    -- the same tree, with the hole at `m`
    have heq : plug (c' ++ ⟨.right, wr, a, wl, l⟩ :: c) (node nil w m w' y) =
        plug c (node l wl a wr r) := by
      rw [plug_append, hplug]
      rfl
    rw [← heq] at h
    obtain ⟨hfits, hy⟩ := fits_of_cut (d := .left) h
    exact balanced_collapse (fits_replace.mpr hfits) hy

end Operations

/-! ### The order seen from one side

The successor and the predecessor are one function with a side as its argument, and so are their
lemmas. -/

/-- The elements, from the side `d` on. -/
def BitTree.listFrom (d : Side) (t : BitTree α) : List α :=
  match d with
  | .left => t.toList
  | .right => t.toList.reverse

/-- The elements that the hole of `c` has on its side `d`, the next one first. -/
def beyond (d : Side) (c : List (BitFrame α)) : List α :=
  match d with
  | .left => (before c).reverse
  | .right => behind c

section Beyond

variable {d : Side} {c : List (BitFrame α)} {x y : BitTree α} {wx wy : Bool} {a : α}

/-- The empty tree has no nodes on any side. -/
@[simp] theorem listFrom_nil : (nil : BitTree α).listFrom d = [] := by
  cases d <;> rfl

/-- The nodes from a side: the near subtree, the node, the far subtree. -/
theorem listFrom_mk :
    (BitTree.mk d x wx a wy y).listFrom d = x.listFrom d ++ a :: y.listFrom d := by
  cases d <;> simp [BitTree.listFrom, BitTree.mk, toList]

/-- Nothing is beyond the root. -/
@[simp] theorem beyond_nil : beyond d ([] : List (BitFrame α)) = [] := by
  cases d <;> rfl

/-- From a hole on the side `d` of a node, the way to that side leads past the node. -/
theorem beyond_cons_same : beyond d (⟨d, wx, a, wy, y⟩ :: c) = beyond d c := by
  cases d <;> simp [beyond, before, behind]

/-- From a hole on the other side, the node is next. -/
theorem beyond_cons_opp :
    beyond d (⟨d.opp, wx, a, wy, y⟩ :: c) = a :: (y.listFrom d.opp ++ beyond d c) := by
  cases d <;> simp [beyond, before, behind, BitTree.listFrom, Side.opp]

end Beyond

end RankTree
