import Koharu.User.TreeRemove

/-!
# Searching a tree

What `RB_FIND`, `RB_NFIND`, `RB_MINMAX`, `RB_NEXT` and `RB_PREV` find in the list of the elements.

`seek` is the same search in a tree that is not in memory. Loops that go down are inductions on the
tree, with the path above it as the context; the loop that goes up is an induction on the path, and
what it finds is at the head of `beyond`, the elements to one side of the hole. What `seek` finds in
an ordered list is said once (`find?_eq_of_seek`).
-/

namespace Koharu

open RankTree RankTree.BitTree RbEntry

variable {α : Type*} {own : Set α} {e₀ : α → RbEntry α} {s : RbTree α} {q : Option α}
  {c : List (BitFrame α)} {f : BitFrame α} {d : Side} {t x y : BitTree α} {w w' : Bool} {a elm : α}
  {fuel : ℕ} {cmp : α → ℤ}

/-! ### By key

The loops find what a search of the sorted list finds. -/

theorem Lays.rbFindLoop (h : Lays s.entry q t) (hfuel : t.height < fuel) :
    RbTree.rbFindLoop cmp s fuel t.root = some (seek (cmpDir cmp) c t).2.root := by
  induction t generalizing c q fuel with
  | nil =>
      cases fuel with
      | zero => cases hfuel
      | succ fuel => rfl
  | node l wl a wr r ihl ihr =>
      cases fuel with
      | zero => cases hfuel
      | succ fuel =>
          obtain ⟨hentry, hl, hr⟩ := h
          unfold height at hfuel
          rw [seek, root, RbTree.rbFindLoop, cmpDir, hentry]
          -- to the left, to the right, or here
          split_ifs
          · exact ihl hl (by omega)
          · exact ihr hr (by omega)
          · rfl

/-- `res` is the element behind the hole that is searched next. -/
theorem Lays.rbNfindLoop (cmp : α → ℤ) (h : Lays s.entry q t) (hfuel : t.height < fuel) :
    RbTree.rbNfindLoop cmp s fuel t.root (behind c).head? =
      some ((seek (cmpDir cmp) c t).2.root.or (behind (seek (cmpDir cmp) c t).1).head?) := by
  induction t generalizing c q fuel with
  | nil =>
      cases fuel with
      | zero => cases hfuel
      | succ fuel => rfl
  | node l wl a wr r ihl ihr =>
      cases fuel with
      | zero => cases hfuel
      | succ fuel =>
          obtain ⟨hentry, hl, hr⟩ := h
          unfold height at hfuel
          rw [seek, root, RbTree.rbNfindLoop, cmpDir, hentry]
          -- to the left the node becomes the best so far; to the right it does not; or the search
          -- ends here
          split_ifs
          · exact ihl (c := ⟨.left, wl, a, wr, r⟩ :: c) hl (by omega)
          · exact ihr (c := ⟨.right, wr, a, wl, l⟩ :: c) hr (by omega)
          · rfl

/-- The first element from which on the key is not above. -/
theorem find?_eq_of_seek {l : List α} (hl : t.toList = l)
    (hsorted : l.Pairwise fun a b => cmp a ≤ 0 → cmp b < 0) :
    (seek (cmpDir cmp) [] t).2.root.or (behind (seek (cmpDir cmp) [] t).1).head? =
      l.find? fun a => cmp a ≤ 0 := by
  subst hl
  have hsweeps := sweeps_cmpDir hsorted
  -- what the search has passed are the keys that are too small
  have hdrop : t.toList.find? (fun a => cmp a ≤ 0) =
      (t.toList.dropWhile fun a => cmpDir cmp a = some .right).head? := by
    rw [List.find?_eq_head?_dropWhile_not]
    congr 2
    funext a
    rw [← decide_not]
    exact decide_eq_decide.mpr (by rw [cmpDir_eq_right, not_le])
  rw [hdrop]
  cases hnode : (seek (cmpDir cmp) [] t).2 with
  | nil =>
      obtain ⟨-, hbehind, -⟩ := seek_nil hsweeps hnode
      rw [hbehind, root_nil, Option.none_or]
  | node l wl a wr r =>
      obtain ⟨-, -, -, hrest⟩ := seek_node hsweeps hnode
      rw [← hrest]
      rfl

/-- The element with the key. -/
theorem find?_eq_of_root_seek {l : List α} (hl : t.toList = l)
    (hsorted : l.Pairwise fun a b => cmp a ≤ 0 → cmp b < 0) :
    (seek (cmpDir cmp) [] t).2.root = l.find? fun a => cmp a = 0 := by
  subst hl
  have hsweeps := sweeps_cmpDir hsorted
  -- the search leaves the tree, or it stops at the one key that is equal
  cases hnode : (seek (cmpDir cmp) [] t).2 with
  | nil =>
      obtain ⟨-, -, hne⟩ := seek_nil hsweeps hnode
      rw [root_nil, eq_comm, List.find?_eq_none]
      intro a ha h0
      exact hne a ha (cmpDir_eq_none.mpr (of_decide_eq_true h0))
  | node l wl a wr r =>
      obtain ⟨hstop, -, hpass, hrest⟩ := seek_node hsweeps hnode
      rw [← List.takeWhile_append_dropWhile (l := t.toList)
        (p := fun a => cmpDir cmp a = some .right), ← hrest, root, eq_comm, List.find?_append,
        List.find?_eq_none.mpr, Option.none_or]
      · exact List.find?_cons_of_pos (decide_eq_true (cmpDir_eq_none.mp hstop))
      · intro b hb h0
        have := List.mem_takeWhile_imp hb
        rw [decide_eq_true_iff, cmpDir_eq_right, of_decide_eq_true h0] at this
        exact lt_irrefl _ this

section Operations

variable {K : Type*} {cmp : K → α → ℤ} {key : K}

/-- `RB_FIND` finds the element with the key. -/
theorem At.rbFind (h : At own e₀ s [] t) (hfuel : t.height < fuel)
    (hsorted : t.toList.Pairwise fun a b => cmp key a ≤ 0 → cmp key b < 0) :
    s.rbFind cmp fuel key = some (t.toList.find? fun a => cmp key a = 0) := by
  have hroot : s.rbhRoot = t.root := h.frames
  rw [RbTree.rbFind, hroot, h.lays.rbFindLoop (c := []) hfuel, find?_eq_of_root_seek rfl hsorted]

/-- `RB_NFIND` finds the first element that is not below the key. -/
theorem At.rbNfind (h : At own e₀ s [] t) (hfuel : t.height < fuel)
    (hsorted : t.toList.Pairwise fun a b => cmp key a ≤ 0 → cmp key b < 0) :
    s.rbNfind cmp fuel key = some (t.toList.find? fun a => cmp key a ≤ 0) := by
  have hroot : s.rbhRoot = t.root := h.frames
  have hloop := h.lays.rbNfindLoop (c := []) (cmp key) hfuel
  rw [find?_eq_of_seek rfl hsorted] at hloop
  rw [RbTree.rbNfind, hroot]
  exact hloop

end Operations

/-! ### The ends

The least and the greatest element. -/

theorem Lays.rbMinmaxLoop {p : Option α} (h : Lays s.entry q t) (hfuel : t.height < fuel) :
    RbTree.rbMinmaxLoop d s fuel t.root p = some ((t.listFrom d).head?.or p) := by
  induction fuel generalizing t p q with
  | zero => cases hfuel
  | succ fuel ih =>
      rcases eq_nil_or_eq_mk d t with rfl | ⟨x, w, a, w', y, rfl⟩
      · rw [listFrom_nil]
        rfl
      · obtain ⟨hentry, hx, -⟩ := lays_mk.mp h
        rw [height_mk] at hfuel
        rw [root_mk, RbTree.rbMinmaxLoop, hentry, sided_child, ih hx (by omega), listFrom_mk]
        cases x.listFrom d <;> rfl

/-- `RB_MINMAX` finds the first or the last element. -/
theorem At.rbMinmax {val : ℤ} (h : At own e₀ s [] t) (hfuel : t.height < fuel) :
    s.rbMinmax fuel val = some (if val < 0 then t.toList.head? else t.toList.getLast?) := by
  have hroot : s.rbhRoot = t.root := h.frames
  rw [RbTree.rbMinmax, hroot, h.lays.rbMinmaxLoop hfuel, Option.or_none]
  split_ifs
  · rfl
  · rw [listFrom, List.head?_reverse]

/-! ### Neighbours

A step goes down into a subtree, or up to the first node on the other side. -/

variable [DecidableEq α]

/-- The way up, to the next element on the side `d`. -/
theorem At.rbClimb (h : At own e₀ s c t) (ht : t.root = some elm) (hfuel : c.length < fuel) :
    RbTree.rbClimb d s fuel elm = some (beyond d c).head? := by
  induction c generalizing t elm fuel with
  | nil =>
      cases fuel with
      | zero => cases hfuel
      | succ fuel =>
          rw [RbTree.rbClimb, h.parent_eq ht, beyond_nil]
          rfl
  | cons f c ih =>
      cases fuel with
      | zero => cases hfuel
      | succ fuel =>
          have hnode := at_cons.mp h
          have hne := h.root_ne_sib ht
          have hentry := h.entry_up
          rw [RbTree.rbClimb, h.parent_eq ht]
          obtain ⟨d', w, p, w', z⟩ := f
          simp only [up, List.head?_cons, Option.map_some] at hentry hne ⊢
          rw [hentry]
          -- coming from the child on this side the climb goes on, from the other side it ends here
          rcases d.eq_or_eq_opp d' with rfl | rfl
          · rw [sided_child, if_pos ht.symm, beyond_cons_same]
            exact ih hnode (root_mk ..) (Nat.lt_of_succ_lt_succ hfuel)
          · have hchild : (sided d.opp t.root w z.root w' (up c)).child d = z.root := by
              rw [sided_opp, sided_child]
            rw [show Option.map BitFrame.val c.head? = up c from rfl, hchild, if_neg hne.symm,
              beyond_cons_opp]
            rfl

/-- `RB_NEXT` and `RB_PREV` find the next element on their side. -/
theorem At.rbStep (h : At own e₀ s c (BitTree.mk d x w a w' y))
    (hfuel : (BitTree.mk d x w a w' y).height + c.length < fuel) :
    RbTree.rbStep d fuel s a = some (x.listFrom d.opp ++ beyond d c).head? := by
  rw [height_mk] at hfuel
  have hclimb := h.rbClimb (d := d) (root_mk ..) (by omega : c.length < fuel)
  rw [RbTree.rbStep, h.entry, sided_child, sided_parent]
  rcases eq_nil_or_eq_mk d.opp x with rfl | ⟨x', v, b, v', y', rfl⟩
  · rw [root_nil, listFrom_nil, List.nil_append]
    cases c with
    | nil => exact hclimb
    | cons f c =>
        have hentry := h.entry_up
        have hne := h.root_ne_sib (root_mk ..)
        obtain ⟨d', v, p, v', z⟩ := f
        simp only [up, List.head?_cons, Option.map_some] at hentry hne ⊢
        split_ifs with hside
        · -- the node is on the other side of the node above
          rcases d.eq_or_eq_opp d' with rfl | rfl
          · rw [hentry, root_mk, sided_child_opp] at hside
            exact absurd hside.symm hne
          · rw [beyond_cons_opp]
            rfl
        · exact hclimb
  · obtain ⟨hentry, hx, -⟩ := lays_mk.mp h.lays
    rw [root_mk]
    simp only
    rw [hx.rbDescend (root_mk ..) (by omega), listFrom_mk, List.append_assoc]
    cases x'.listFrom d.opp <;> rfl

end Koharu
