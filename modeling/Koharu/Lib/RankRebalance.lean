import Koharu.Lib.RankTree
import Mathlib.Tactic.SplitIfs

/-!
# Insertion and deletion in rank-balanced trees

Where the tree in a hole got a rank that is one too large, `rise` goes up from there: it promotes
nodes until one has room for the new rank, or is rotated. Where the rank got one too small, `fall`
demotes nodes in the same way. Both keep the order of the elements (`toList_rise`, `toList_fall`)
and end in a balanced tree (`balanced_rise`, `balanced_fall`).

The tree in the hole of `rise` is a new leaf at first, and then a node that was just promoted. That
it leans to one side (`Leaning`) is why one rotation, single or double, is enough.

`BitFrame.liftUp` and `BitFrame.pullUp` are the rotations, as functions of a node and the tree in
the hole below it. Of each of them two things are shown once: the elements are in the same order,
and with the ranks that there are when it is used the result is balanced. The two loops are then
inductions over the path.
-/

namespace RankTree

open BitTree

variable {α : Type*}

/-- The leaf with the element `a`. -/
def leaf (a : α) : BitTree α := node nil false a false nil

/-! ### Growth

The tree in the hole has become higher by one. Either the node above has a bit to give up, or it
grows itself, or one rotation ends the climb; the cases follow those of `rbe_insert_color`. -/

/-- Rotate `t`, that is as high as the node above, to the place of that node. -/
def BitFrame.liftUp (f : BitFrame α) (t : BitTree α) : BitTree α :=
  match t.split f.side with
  | none => f.plug t
  | some (x, _, a, true, y) =>
      BitTree.mk f.side x false a false (BitTree.mk f.side y false f.val false f.sib)
  | some (x, wx, a, false, y) =>
      match y.split f.side with
      | none => f.plug t
      | some (z₁, w₁, b, w₂, z₂) =>
          BitTree.mk f.side (BitTree.mk f.side x (!wx) a w₁ z₁) false b false
            (BitTree.mk f.side z₂ (!w₁ && w₂) f.val false f.sib)

/-- Restore the balance where `t` has a rank one larger than the hole of `c` is for. -/
def rise : List (BitFrame α) → BitTree α → BitTree α
  | [], t => t
  | f :: c, t =>
      if f.wide then plug c (BitTree.mk f.side t false f.val f.sibWide f.sib)
      else if f.sibWide then plug c (f.liftUp t)
      else rise c (BitTree.mk f.side t false f.val true f.sib)

/-- A leaf, or a node with exactly one bit, whose higher child is not empty and has a clear bit. -/
def Leaning (t : BitTree α) : Prop :=
  (∃ a, t = leaf a) ∨
    ∃ d x a y b w₁ w₂ z₁ z₂, t = BitTree.mk d x false a true y ∧ x = BitTree.mk d z₁ w₁ b w₂ z₂ ∧
      (w₁ && w₂) = false

section Rise

variable {f : BitFrame α} {c : List (BitFrame α)} {t : BitTree α} {k : ℕ} {a : α}

/-- A leaf, seen from either side. -/
theorem leaf_eq_mk (d : Side) (a : α) : leaf a = BitTree.mk d nil false a false nil := by
  cases d <;> rfl

/-- A leaf has rank 1. -/
@[simp] theorem rank_leaf : (leaf a).rank = 1 := rfl

/-- It is balanced. -/
@[simp] theorem balanced_leaf : (leaf a).Balanced := by
  simp [leaf, BitTree.Balanced]

/-- It holds its one element. -/
@[simp] theorem toList_leaf : (leaf a).toList = [a] := rfl

/-- It leans to no side. -/
theorem leaning_leaf (a : α) : Leaning (leaf a) := .inl ⟨a, rfl⟩

/-- A leaning tree, seen from any side: the bits of a leaf, or of one that leans to that side, or of
one that leans to the other side. -/
theorem Leaning.view (h : Leaning t) (d : Side) :
    (∃ a, t = leaf a) ∨
      (∃ x a y b w₁ w₂ z₁ z₂, t = BitTree.mk d x false a true y ∧ x = BitTree.mk d z₁ w₁ b w₂ z₂ ∧
        (w₁ && w₂) = false) ∨
      ∃ x a y b w₁ w₂ z₁ z₂, t = BitTree.mk d x true a false y ∧ y = BitTree.mk d z₁ w₁ b w₂ z₂ ∧
        (w₁ && w₂) = false := by
  rcases h with h | ⟨d', x, a, y, b, w₁, w₂, z₁, z₂, rfl, rfl, hw⟩
  · exact .inl h
  · rcases d.eq_or_eq_opp d' with rfl | rfl
    · exact .inr (.inl ⟨_, a, y, b, w₁, w₂, z₁, z₂, rfl, rfl, hw⟩)
    · refine .inr (.inr ⟨y, a, _, b, w₂, w₁, z₂, z₁, mk_opp, mk_opp, ?_⟩)
      rwa [Bool.and_comm]

/-- The bits of a node that leans are not both set. -/
theorem Leaning.exists_mk (h : Leaning t) (d : Side) :
    ∃ x w₁ a w₂ y, t = BitTree.mk d x w₁ a w₂ y ∧ (w₁ && w₂) = false := by
  rcases h.view d with ⟨a, rfl⟩ | ⟨x, a, y, b, w₁, w₂, z₁, z₂, rfl, -, -⟩ |
    ⟨x, a, y, b, w₁, w₂, z₁, z₂, rfl, -, -⟩
  · exact ⟨nil, false, a, false, nil, leaf_eq_mk d a, rfl⟩
  · exact ⟨x, false, a, true, y, rfl, rfl⟩
  · exact ⟨x, true, a, false, y, rfl, rfl⟩

/-- A promoted node leans to the child that grew. -/
theorem Leaning.promote (h : Leaning t) (d : Side) (a : α) (s : BitTree α) :
    Leaning (BitTree.mk d t false a true s) := by
  obtain ⟨x, w₁, b, w₂, y, ht, hw⟩ := h.exists_mk d
  exact .inr ⟨d, t, a, s, b, w₁, w₂, x, y, rfl, ht, hw⟩

/-- The elements of a tree depend on those of its subtrees and not on the colours. -/
theorem toList_mk_congr {d : Side} {x x' y y' : BitTree α} {wx wy wx' wy' : Bool}
    (hx : x.toList = x'.toList) (hy : y.toList = y'.toList) :
    (BitTree.mk d x wx a wy y).toList = (BitTree.mk d x' wx' a wy' y').toList := by
  cases d with
  | left => rw [toList_left, toList_left, hx, hy]
  | right => rw [toList_right, toList_right, hx, hy]

/-- A rotation keeps the order. -/
theorem toList_rotate {d : Side} {x y z : BitTree α} {w₁ w₂ w₃ w₄ : Bool} {b : α} :
    (BitTree.mk d x w₁ a w₂ (BitTree.mk d y w₃ b w₄ z)).toList =
      (BitTree.mk d (BitTree.mk d x w₁ a w₂ y) w₃ b w₄ z).toList := by
  cases d <;> simp [BitTree.mk, toList]

/-- So do the rotations of a tree that is as high as the node above. -/
theorem toList_liftUp (f : BitFrame α) (t : BitTree α) :
    (f.liftUp t).toList = (f.plug t).toList := by
  obtain ⟨d, w, p, w', s⟩ := f
  unfold BitFrame.liftUp
  rcases eq_nil_or_eq_mk d t with rfl | ⟨x, wx, a, wy, y, rfl⟩
  · rfl
  · rw [split_mk]
    cases wy with
    | true => cases d <;> simp [BitFrame.plug, BitTree.mk, toList]
    | false =>
        rcases eq_nil_or_eq_mk d y with rfl | ⟨z₁, w₁, b, w₂, z₂, rfl⟩
        · rfl
        · simp only [split_mk]
          cases d <;> simp [BitFrame.plug, BitTree.mk, toList]

/-- `rise` keeps the elements and their order. -/
theorem toList_rise (c : List (BitFrame α)) (t : BitTree α) :
    (rise c t).toList = (plug c t).toList := by
  induction c generalizing t with
  | nil => rfl
  | cons f c ih =>
      rw [rise, plug_cons]
      have hplug : ∀ {u : BitTree α}, u.toList = (f.plug t).toList →
          (plug c u).toList = (plug c (f.plug t)).toList := by
        intro u hu
        rw [toList_plug, toList_plug, hu]
      split_ifs
      · exact hplug (toList_mk_congr rfl rfl)
      · exact hplug (toList_liftUp f t)
      · exact (ih _).trans (hplug (toList_mk_congr rfl rfl))

/-- The rotation of a leaning tree that is as high as the node above. -/
theorem balanced_liftUp (ht : t.Balanced) (hlean : Leaning t) (hs : f.sib.Balanced)
    (hrank : t.rank = f.sib.rank + 2) :
    (f.liftUp t).Balanced ∧ (f.liftUp t).rank = t.rank := by
  obtain ⟨d, w, p, w', s⟩ := f
  unfold BitFrame.liftUp
  rcases hlean.view d with ⟨a, rfl⟩ | ⟨x, a, y, b, w₁, w₂, z₁, z₂, rfl, rfl, hw⟩ |
    ⟨x, a, y, b, w₁, w₂, z₁, z₂, rfl, rfl, hw⟩
  · -- a leaf is too small
    rw [rank_leaf] at hrank
    omega
  · -- a single rotation
    obtain ⟨hx, hy, hxy, hleaf⟩ := balanced_mk.mp ht
    simp only [split_mk]
    rw [rank_mk hxy] at hrank ⊢
    simp only [Bool.toNat_true, Bool.toNat_false, add_zero] at *
    have hin : y.rank + false.toNat = s.rank + false.toNat := by simp only [Bool.toNat_false]; omega
    have hout : (BitTree.mk d z₁ w₁ b w₂ z₂).rank + false.toNat =
        (BitTree.mk d y false p false s).rank + false.toNat := by
      rw [rank_mk hin]
      simp only [Bool.toNat_false]
      omega
    refine ⟨balanced_mk.mpr ⟨hx, balanced_mk.mpr ⟨hy, hs, hin, fun _ _ => rfl⟩, hout,
      fun _ _ => rfl⟩, ?_⟩
    rw [rank_mk hout, Bool.toNat_false, add_zero]
  · -- a double rotation
    obtain ⟨hx, hy, hxy, hleaf⟩ := balanced_mk.mp ht
    obtain ⟨hz₁, hz₂, hz, hzleaf⟩ := balanced_mk.mp hy
    simp only [split_mk]
    rw [rank_mk hxy] at hrank ⊢
    rw [rank_mk hz] at hxy
    simp only [Bool.toNat_true, Bool.toNat_false, add_zero, Bool.not_true] at *
    have hin₁ : x.rank + false.toNat = z₁.rank + w₁.toNat := by
      simp only [Bool.toNat_false]
      omega
    have hin₂ : z₂.rank + (!w₁ && w₂).toNat = s.rank + false.toNat := by
      cases w₁ <;> cases w₂ <;> simp at * <;> omega
    have hout : (BitTree.mk d x false a w₁ z₁).rank + false.toNat =
        (BitTree.mk d z₂ (!w₁ && w₂) p false s).rank + false.toNat := by
      rw [rank_mk hin₁, rank_mk hin₂]
      simp only [Bool.toNat_false] at *
      omega
    refine ⟨balanced_mk.mpr ⟨balanced_mk.mpr ⟨hx, hz₁, hin₁, fun _ _ => rfl⟩,
      balanced_mk.mpr ⟨hz₂, hs, hin₂, fun h₁ h₂ => ?_⟩, hout, fun _ _ => rfl⟩, ?_⟩
    · simp only [Bool.toNat_false] at *
      exact Bool.toNat_eq_zero.mp (by omega)
    · rw [rank_mk hout, rank_mk hin₁]
      simp only [Bool.toNat_false]

/-- `rise` ends in a balanced tree. -/
theorem balanced_rise (hfits : FitsRank c k) (ht : t.Balanced) (hk : t.rank = k + 1)
    (hlean : Leaning t) : (rise c t).Balanced := by
  induction c generalizing t k with
  | nil => exact ht
  | cons f c ih =>
      obtain ⟨hs, hrank, hleaf, hup⟩ := hfits
      unfold rise
      split_ifs with hw hw'
      · -- the node has room for the new rank
        rw [hw, Bool.toNat_true] at hrank hup
        have heq : t.rank + false.toNat = f.sib.rank + f.sibWide.toNat := by
          rw [hk, Bool.toNat_false, ← hrank]
        refine balanced_plug.mpr ⟨?_, balanced_mk.mpr ⟨ht, hs, heq, fun _ _ => rfl⟩⟩
        rwa [rank_mk heq, hk, Bool.toNat_false, add_zero]
      · -- the other child is too low for a promotion
        rw [hw', Bool.toNat_true] at hrank
        rw [Bool.not_eq_true] at hw
        rw [hw, Bool.toNat_false] at hrank hup
        obtain ⟨hbal, heq⟩ := balanced_liftUp (f := f) ht hlean hs (by omega)
        refine balanced_plug.mpr ⟨?_, hbal⟩
        rwa [heq, hk]
      · rw [Bool.not_eq_true] at hw hw'
        rw [hw, hw', Bool.toNat_false] at hrank
        rw [hw, Bool.toNat_false] at hup
        have heq : t.rank + false.toNat = f.sib.rank + true.toNat := by
          rw [Bool.toNat_false, Bool.toNat_true]
          omega
        refine ih hup (balanced_mk.mpr ⟨ht, hs, heq, fun _ _ => rfl⟩) ?_ (hlean.promote ..)
        rw [rank_mk heq, hk, Bool.toNat_false]

end Rise

/-! ### Shrinking

The tree in the hole has become lower by one. Here the climb may go on after a rotation, and the
last step may be at a node that has no children left. -/

/-- Rotate the other child, the node of `a` with its children `x` and `y`, to the place of the node
above. -/
def BitFrame.pullUp (f : BitFrame α) (t x : BitTree α) (wx : Bool) (a : α) (wy : Bool)
    (y : BitTree α) : BitTree α :=
  if wx then BitTree.mk f.side (BitTree.mk f.side t false f.val false x) true a (!wy) y
  else if wy then
    match x.split f.side with
    | none => f.plug t
    | some (z₁, w₁, b, w₂, z₂) =>
        BitTree.mk f.side (BitTree.mk f.side t false f.val w₁ z₁) true b true
          (BitTree.mk f.side z₂ w₂ a false y)
  else BitTree.mk f.side (BitTree.mk f.side t true f.val false x) false a true y

/-- Restore the balance where `t` has a rank one smaller than the hole of `c` is for. -/
def fall : List (BitFrame α) → BitTree α → BitTree α
  | [], t => t
  | f :: c, t =>
      if !f.wide then plug c (BitTree.mk f.side t true f.val f.sibWide f.sib)
      else if f.sibWide then fall c (BitTree.mk f.side t true f.val false f.sib)
      else
        match f.sib.split f.side with
        | none => plug (f :: c) t
        | some (x, wx, a, wy, y) =>
            if wx && wy then
              fall c (BitTree.mk f.side t true f.val false (BitTree.mk f.side x false a false y))
            else plug c (f.pullUp t x wx a wy y)

/-- `fall`, from a tree that may be empty: a node that has no children left becomes a leaf. -/
def collapse : List (BitFrame α) → BitTree α → BitTree α
  | [], t => t
  | f :: c, t =>
      if t.root.isNone && f.sib.root.isNone then fall c (leaf f.val) else fall (f :: c) t

section Fall

variable {f : BitFrame α} {c : List (BitFrame α)} {t x y : BitTree α} {k : ℕ} {a : α} {wx wy : Bool}

/-- Trees with the same elements may stand for each other in a context. -/
theorem toList_plug_congr {u : BitTree α} (h : u.toList = t.toList) :
    (plug c u).toList = (plug c t).toList := by
  rw [toList_plug, toList_plug, h]

/-- A rotation keeps the order of the elements. -/
theorem toList_pullUp (hsib : f.sib = BitTree.mk f.side x wx a wy y) :
    (f.pullUp t x wx a wy y).toList = (f.plug t).toList := by
  obtain ⟨d, w, p, w', s⟩ := f
  simp only at hsib
  subst hsib
  unfold BitFrame.pullUp
  split_ifs
  · cases d <;> simp [BitFrame.plug, BitTree.mk, toList]
  · rcases eq_nil_or_eq_mk d x with rfl | ⟨z₁, w₁, b, w₂, z₂, rfl⟩
    · rfl
    · simp only [split_mk]
      cases d <;> simp [BitFrame.plug, BitTree.mk, toList]
  · cases d <;> simp [BitFrame.plug, BitTree.mk, toList]

/-- `fall` keeps the elements and their order. -/
theorem toList_fall (c : List (BitFrame α)) (t : BitTree α) :
    (fall c t).toList = (plug c t).toList := by
  induction c generalizing t with
  | nil => rfl
  | cons f c ih =>
      rw [fall, plug_cons]
      -- the rank of the node is lowered, of its sibling too, or a rotation ends the climb
      split_ifs
      · exact toList_plug_congr (toList_mk_congr rfl rfl)
      · exact (ih _).trans (toList_plug_congr (toList_mk_congr rfl rfl))
      · rcases eq_nil_or_eq_mk f.side f.sib with hsib | ⟨x, wx, a, wy, y, hsib⟩
        · rw [hsib]
          rfl
        · rw [hsib]
          simp only [split_mk]
          split_ifs
          · refine (ih _).trans (toList_plug_congr ?_)
            rw [BitFrame.plug, hsib]
            exact toList_mk_congr rfl (toList_mk_congr rfl rfl)
          · exact toList_plug_congr (toList_pullUp hsib)

/-- So does the rebalancing as a whole, by induction on the path. -/
theorem toList_collapse (c : List (BitFrame α)) (t : BitTree α) :
    (collapse c t).toList = (plug c t).toList := by
  cases c with
  | nil => rfl
  | cons f c =>
      rw [collapse]
      split_ifs with h
      · rw [Bool.and_eq_true, Option.isNone_iff_eq_none, Option.isNone_iff_eq_none, root_eq_none,
          root_eq_none] at h
        rw [toList_fall, plug_cons]
        apply toList_plug_congr
        rw [BitFrame.plug, h.1, h.2]
        cases f.side <;> rfl
      · exact toList_fall ..

/-- The rotation of a node whose bits are not both set, next to a tree that is too low by two. -/
theorem balanced_pullUp (ht : t.Balanced) (hsib : (BitTree.mk f.side x wx a wy y).Balanced)
    (hrank : (BitTree.mk f.side x wx a wy y).rank = t.rank + 2) (hw : (wx && wy) = false) :
    (f.pullUp t x wx a wy y).Balanced ∧ (f.pullUp t x wx a wy y).rank = t.rank + 3 := by
  obtain ⟨d, w, p, w', s⟩ := f
  obtain ⟨hx, hy, hxy, hleaf⟩ := balanced_mk.mp hsib
  rw [rank_mk hxy] at hrank
  unfold BitFrame.pullUp
  split_ifs with h₁ h₂
  · -- a single rotation, and the node above gets demoted twice
    subst h₁
    obtain rfl : wy = false := by simpa using hw
    simp only [Bool.toNat_true, Bool.toNat_false, add_zero] at *
    have hin : t.rank + false.toNat = x.rank + false.toNat := by
      simp only [Bool.toNat_false]
      omega
    have hout : (BitTree.mk d t false p false x).rank + true.toNat = y.rank + (!false).toNat := by
      rw [rank_mk hin]
      simp only [Bool.toNat_false, Bool.toNat_true, Bool.not_false]
      omega
    refine ⟨balanced_mk.mpr ⟨balanced_mk.mpr ⟨ht, hx, hin, fun _ _ => rfl⟩, hy, hout,
      fun h _ => ?_⟩, ?_⟩
    · rw [rank_mk hin] at h
      omega
    · rw [rank_mk hout, rank_mk hin]
      simp only [Bool.toNat_false, Bool.toNat_true]
  · -- a double rotation
    subst h₂
    obtain rfl : wx = false := by simpa using h₁
    simp only [Bool.toNat_true, Bool.toNat_false, add_zero] at *
    rcases eq_nil_or_eq_mk d x with rfl | ⟨z₁, w₁, b, w₂, z₂, rfl⟩
    · rw [rank_nil] at hxy
      omega
    · obtain ⟨hz₁, hz₂, hz, hzleaf⟩ := balanced_mk.mp hx
      simp only [split_mk]
      rw [rank_mk hz] at hxy hrank
      have hin₁ : t.rank + false.toNat = z₁.rank + w₁.toNat := by
        simp only [Bool.toNat_false]
        omega
      have hin₂ : z₂.rank + w₂.toNat = y.rank + false.toNat := by
        simp only [Bool.toNat_false]
        omega
      have hout : (BitTree.mk d t false p w₁ z₁).rank + true.toNat =
          (BitTree.mk d z₂ w₂ a false y).rank + true.toNat := by
        rw [rank_mk hin₁, rank_mk hin₂]
        simp only [Bool.toNat_false, Bool.toNat_true]
        omega
      refine ⟨balanced_mk.mpr ⟨balanced_mk.mpr ⟨ht, hz₁, hin₁, fun _ _ => rfl⟩,
        balanced_mk.mpr ⟨hz₂, hy, hin₂, fun h₁ h₂ => ?_⟩, hout, fun h _ => ?_⟩, ?_⟩
      · simp only [Bool.toNat_false] at *
        exact Bool.toNat_eq_zero.mp (by omega)
      · rw [rank_mk hin₁] at h
        omega
      · rw [rank_mk hout, rank_mk hin₁]
        simp only [Bool.toNat_false, Bool.toNat_true]
  · -- a single rotation
    obtain rfl : wx = false := by simpa using h₁
    obtain rfl : wy = false := by simpa using h₂
    simp only [Bool.toNat_false, add_zero] at *
    have hin : t.rank + true.toNat = x.rank + false.toNat := by
      simp only [Bool.toNat_false, Bool.toNat_true]
      omega
    have hout : (BitTree.mk d t true p false x).rank + false.toNat = y.rank + true.toNat := by
      rw [rank_mk hin]
      simp only [Bool.toNat_false, Bool.toNat_true]
      omega
    refine ⟨balanced_mk.mpr ⟨balanced_mk.mpr ⟨ht, hx, hin, fun _ h => ?_⟩, hy, hout,
      fun _ _ => rfl⟩, ?_⟩
    · omega
    · rw [rank_mk hout, rank_mk hin]
      simp only [Bool.toNat_false, Bool.toNat_true]

/-- `fall` ends in a balanced tree, unless it starts below a node that has no children. -/
theorem balanced_fall (hfits : FitsRank c (k + 1)) (ht : t.Balanced) (hk : t.rank = k)
    (hne : ∀ f ∈ c.head?, k = 0 → f.sib.rank ≠ 0) : (fall c t).Balanced := by
  induction c generalizing t k with
  | nil => exact ht
  | cons f c ih =>
      obtain ⟨hs, hrank, hleaf, hup⟩ := hfits
      have hne := hne f rfl
      unfold fall
      split_ifs with hw hw'
      · -- the node stays where it is
        rw [Bool.not_eq_true'] at hw
        rw [hw, Bool.toNat_false, add_zero] at hrank hup
        have heq : t.rank + true.toNat = f.sib.rank + f.sibWide.toNat := by
          rw [hk, Bool.toNat_true, hrank]
        refine balanced_plug.mpr ⟨?_, balanced_mk.mpr ⟨ht, hs, heq, fun h h' => ?_⟩⟩
        · rwa [rank_mk heq, hk, Bool.toNat_true]
        · exact absurd h' (hne (hk ▸ h))
      · -- it is demoted
        rw [Bool.not_eq_true', Bool.not_eq_false] at hw
        rw [hw, hw', Bool.toNat_true] at hrank
        rw [hw, Bool.toNat_true] at hup
        have heq : t.rank + true.toNat = f.sib.rank + false.toNat := by
          simp only [Bool.toNat_false, Bool.toNat_true]
          omega
        refine ih (k := k + 2) hup (balanced_mk.mpr ⟨ht, hs, heq, fun _ h => ?_⟩) ?_ ?_
        · omega
        · rw [rank_mk heq, hk, Bool.toNat_true]
        · intro g _ h
          omega
      · rw [Bool.not_eq_true', Bool.not_eq_false] at hw
        rw [Bool.not_eq_true] at hw'
        rw [hw, hw', Bool.toNat_true, Bool.toNat_false] at hrank
        rw [hw, Bool.toNat_true] at hup
        rcases eq_nil_or_eq_mk f.side f.sib with hsib | ⟨x, wx, a, wy, y, hsib⟩
        · rw [hsib, rank_nil] at hrank
          omega
        · rw [hsib] at hs hrank ⊢
          simp only [split_mk]
          split_ifs with hww
          · -- both are demoted
            obtain ⟨rfl, rfl⟩ := Bool.and_eq_true_iff.mp hww
            obtain ⟨hx, hy, hxy, -⟩ := balanced_mk.mp hs
            rw [rank_mk hxy] at hrank
            have hin : x.rank + false.toNat = y.rank + false.toNat := by
              simp only [Bool.toNat_false, Bool.toNat_true] at *
              omega
            have heq : t.rank + true.toNat =
                (BitTree.mk f.side x false a false y).rank + false.toNat := by
              rw [rank_mk hin]
              simp only [Bool.toNat_false, Bool.toNat_true] at *
              omega
            refine ih (k := k + 2) hup (balanced_mk.mpr ⟨ht,
              balanced_mk.mpr ⟨hx, hy, hin, fun _ _ => rfl⟩, heq, fun _ h => ?_⟩) ?_ ?_
            · rw [rank_mk hin] at h
              omega
            · rw [rank_mk heq, hk, Bool.toNat_true]
            · intro g _ h
              omega
          · obtain ⟨hbal, heq⟩ :=
              balanced_pullUp (f := f) (t := t) ht hs (by omega) (by simpa using hww)
            refine balanced_plug.mpr ⟨?_, hbal⟩
            rwa [heq, hk]

/-- `collapse` ends in a balanced tree. -/
theorem balanced_collapse (hfits : FitsRank c (t.rank + 1)) (ht : t.Balanced) :
    (collapse c t).Balanced := by
  cases c with
  | nil => exact ht
  | cons f c =>
      rw [collapse]
      split_ifs with h
      · -- the node had rank two
        rw [Bool.and_eq_true, Option.isNone_iff_eq_none, Option.isNone_iff_eq_none, root_eq_none,
          root_eq_none] at h
        obtain ⟨-, hrank, -, hup⟩ := hfits
        rw [h.1, h.2, rank_nil] at hrank
        rw [h.1, rank_nil] at hup
        have hle := Bool.toNat_le f.sibWide
        have hzero : f.wide.toNat = 0 := by omega
        rw [hzero] at hup
        exact balanced_fall (k := 1) hup balanced_leaf rfl fun g _ h => by omega
      · refine balanced_fall hfits ht rfl fun g hg ht0 hs0 => h ?_
        obtain rfl := Option.some.inj hg
        rw [rank_eq_zero.mp ht0, rank_eq_zero.mp hs0]
        rfl

end Fall

end RankTree
