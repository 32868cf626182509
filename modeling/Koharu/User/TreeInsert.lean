import Koharu.User.TreeLayout

/-!
# Insertion into a tree

`RB_INSERT` puts a leaf into the hole at which the search ends, and `RB_INSERT_COLOR` does what
`rise` does, one store after the other. From a balanced tree it needs no more steps than the path to
the root has nodes, and no pointer that it follows is null.

The focus of `At` is the tree whose rank is one too large. An iteration promotes its parent, and the
focus moves there; or it rotates, once or twice, and the loop ends (`At.rbInsertRotate`). The
induction is on the path, and what carries it is that the tree leans to one side: this says which of
the rotations is made, and that the pointers it follows are there.
-/

namespace Koharu

open RankTree RankTree.BitTree RbEntry

variable {α : Type*} {own : Set α} {e₀ : α → RbEntry α} {s : RbTree α}
  {c : List (BitFrame α)} {f : BitFrame α} {d : Side} {t x y z : BitTree α}
  {w w' w₁ w₂ w₃ w₄ : Bool} {a b p elm : α} {fuel k : ℕ}

/-- How the branches of the loops find the side that they come from. -/
theorem At.side_eq [DecidableEq α] (h : At own e₀ s (f :: c) t) (hne : f.sib.root ≠ t.root) :
    (if (s.entry f.val).rbeLeft = t.root then Side.left else Side.right) = f.side := by
  rw [h.entry_up]
  cases hside : f.side with
  | left => exact if_pos rfl
  | right => exact if_neg hne

theorem At.parent_eq (h : At own e₀ s c t) (ht : t.root = some elm) :
    (s.entry elm).rbeParent = up c := by
  rcases eq_nil_or_eq_mk .left t with rfl | ⟨x, w, a, w', y, rfl⟩
  · cases ht
  · rw [root_mk] at ht
    obtain rfl := Option.some.inj ht
    rw [h.entry, sided_parent]

variable [DecidableEq α]

/-- A rotation the other way. -/
theorem At.rotate_opp (h : At own e₀ s c (BitTree.mk d (BitTree.mk d x w₁ a w₂ y) w₃ b w₄ z)) :
    ∃ s', s.rbRotate d.opp b = some (a, s') ∧
      At own e₀ s' c (BitTree.mk d x w₁ a w₂ (BitTree.mk d y w₃ b w₄ z)) := by
  have h' : At own e₀ s c (BitTree.mk d.opp z w₄ b w₃ (BitTree.mk d.opp y w₂ a w₁ x)) := by
    rwa [mk_opp, mk_opp]
  obtain ⟨s', hs', hat⟩ := h'.rotate
  rw [mk_opp, mk_opp] at hat
  exact ⟨s', hs', hat⟩

/-- The rotations of `RB_INSERT_COLOR`, where the tree in focus is as high as the node above. -/
theorem At.rbInsertRotate (w w' : Bool) (h : At own e₀ s c (BitTree.mk d t false p false z))
    (hlean : Leaning t) (hrank : t.rank ≠ 1) (ht : t.root = some elm) :
    ∃ s', RbTree.rbInsertRotate d s p elm = some s' ∧
      At own e₀ s' c ((⟨d, w, p, w', z⟩ : BitFrame α).liftUp t) := by
  rw [RbTree.rbInsertRotate, BitFrame.liftUp]
  rcases hlean.view d with ⟨a, rfl⟩ | ⟨x, a, y, b, w₁, w₂, z₁, z₂, rfl, rfl, -⟩ |
    ⟨x, a, y, b, w₁, w₂, z₁, z₂, rfl, rfl, -⟩
  · exact absurd rank_leaf hrank
  · -- one rotation
    rw [root_mk] at ht
    obtain rfl := Option.some.inj ht
    have hfocus := (at_cons (f := ⟨d, false, p, false, z⟩)).mpr h
    obtain ⟨s₁, hrot, hat⟩ := h.rotate_opp
    rw [hfocus.entry, sided_red_opp, if_pos rfl]
    simp only [Option.bind_eq_bind, Option.bind_some, hrot, split_mk]
    exact ⟨_, rfl, hat.fill false⟩
  · -- two rotations
    rw [root_mk] at ht
    obtain rfl := Option.some.inj ht
    have hfocus := (at_cons (f := ⟨d, false, p, false, z⟩)).mpr h
    obtain ⟨s₁, hrot, hat⟩ := hfocus.flip.rotate
    rw [hfocus.entry, sided_red_opp, if_neg Bool.false_ne_true, hrot]
    simp only [Option.bind_eq_bind, Option.bind_some, Option.map_some, split_mk, hat.entry,
      sided_red, sided_red_opp, Bool.not_true] at hat ⊢
    -- the bits of the two nodes that go down
    have hbits : At own e₀
        (if w₁ then s₁.modify a (·.flip d.opp) else if w₂ then s₁.modify p (·.flip d) else s₁) c
        (BitTree.mk d (BitTree.mk d (BitTree.mk d x false a w₁ z₁) w₁ b w₂ z₂)
          (!w₁ && w₂) p false z) := by
      cases w₁ with
      | true =>
          have hdown := (at_cons (f := ⟨d, true, b, w₂, z₂⟩)).mpr hat
          exact at_cons.mp (at_cons.mp hdown.flip_opp)
      | false =>
          cases w₂ with
          | true => exact (at_cons.mp hat).flip
          | false => exact at_cons.mp hat
    obtain ⟨s₂, hrot₂, hat₂⟩ := hbits.rotate_opp
    rw [hrot₂]
    exact ⟨_, rfl, hat₂.fill false⟩

/-- `RB_INSERT_COLOR` does what `rise` does. -/
theorem At.rbInsertColor (h : At own e₀ s c t) (ht : t.root = some elm) (hfits : FitsRank c k)
    (hbal : t.Balanced) (hk : t.rank = k + 1) (hlean : Leaning t) (hfuel : c.length < fuel) :
    ∃ s', RbTree.rbInsertColor fuel s elm = some s' ∧ At own e₀ s' [] (rise c t) := by
  induction c generalizing s t elm k fuel with
  | nil =>
      cases fuel with
      | zero => cases hfuel
      | succ fuel =>
          rw [RbTree.rbInsertColor, h.parent_eq ht]
          exact ⟨s, rfl, h⟩
  | cons f c ih =>
      cases fuel with
      | zero => cases hfuel
      | succ fuel =>
          obtain ⟨hs, hrank, hleaf, hup⟩ := hfits
          have hnode := at_cons.mp h
          have hside := h.side_eq (ht ▸ h.root_ne_sib ht)
          rw [ht] at hside
          obtain ⟨d, w, p, w', z⟩ := f
          rw [RbTree.rbInsertColor, h.parent_eq ht]
          simp only [up, List.head?_cons, Option.map_some] at hside ⊢
          rw [hside, rise]
          have hentry : s.entry p = sided d t.root w z.root w' (up c) := hnode.entry
          rw [hentry, sided_red]
          simp only
          cases w with
          | true =>
              -- there is room for the new rank
              rw [if_pos rfl, if_pos rfl]
              exact ⟨_, rfl, at_plug.mpr hnode.flip⟩
          | false =>
              have hflip := hnode.flip_opp
              rw [if_neg Bool.false_ne_true, if_neg Bool.false_ne_true, hflip.entry, sided_red_opp]
              simp only at hflip hs hrank hup ⊢
              cases w' with
              | true =>
                  rw [if_neg (by decide), if_pos rfl]
                  rw [Bool.toNat_true, Bool.toNat_false] at hrank
                  obtain ⟨s', hs', hat⟩ :=
                    hflip.rbInsertRotate false true hlean (by omega) ht
                  exact ⟨s', hs', at_plug.mpr hat⟩
              | false =>
                  rw [if_pos (by decide), if_neg Bool.false_ne_true]
                  rw [Bool.toNat_false] at hrank hup
                  have heq : t.rank + false.toNat = z.rank + true.toNat := by
                    simp only [Bool.toNat_false, Bool.toNat_true] at *
                    omega
                  refine ih hflip (root_mk ..) hup
                    (balanced_mk.mpr ⟨hbal, hs, heq, fun _ _ => rfl⟩) ?_
                    (hlean.promote ..) (Nat.lt_of_succ_lt_succ hfuel)
                  rw [rank_mk heq, hk, Bool.toNat_false]

/-! ### The search

The way down is the one that the tree of the library takes. -/

/-- Where a search goes at a node, by the result of the comparison. -/
def cmpDir (cmp : α → ℤ) (a : α) : Option Side :=
  if cmp a < 0 then some .left else if 0 < cmp a then some .right else none

omit [DecidableEq α] in
/-- The loop of `RB_INSERT` does what `seek` does. -/
theorem At.rbInsertSearch (cmp : α → ℤ) {comp : ℤ} (h : At own e₀ s c t)
    (hcomp : ∀ f ∈ c.head?, (comp < 0 ↔ f.side = .left)) (hfuel : t.height < fuel) :
    (∃ a ∈ (seek (cmpDir cmp) c t).2.root,
      RbTree.rbInsertSearch cmp s fuel t.root (up c) comp = some (.inl a)) ∨
    (seek (cmpDir cmp) c t).2 = nil ∧ ∃ comp',
      (∀ f ∈ (seek (cmpDir cmp) c t).1.head?, (comp' < 0 ↔ f.side = .left)) ∧
        RbTree.rbInsertSearch cmp s fuel t.root (up c) comp =
          some (.inr (up (seek (cmpDir cmp) c t).1, comp')) := by
  induction t generalizing c comp fuel with
  | nil =>
      cases fuel with
      | zero => cases hfuel
      | succ fuel => exact .inr ⟨rfl, comp, hcomp, rfl⟩
  | node l wl a wr r ihl ihr =>
      cases fuel with
      | zero => cases hfuel
      | succ fuel =>
          have hentry : s.entry a = ⟨l.root, r.root, up c, wl, wr⟩ := h.lays.1
          rw [height] at hfuel
          -- the direction of `seek` is the sign of the comparison
          rw [seek, root, RbTree.rbInsertSearch, cmpDir]
          split_ifs with hlt hgt
          · rw [hentry]
            refine ihl (c := ⟨.left, wl, a, wr, r⟩ :: c) (at_cons.mpr h) ?_ (by omega)
            intro f hf
            obtain rfl := Option.some.inj hf
            simpa using hlt
          · rw [hentry]
            refine ihr (c := ⟨.right, wr, a, wl, l⟩ :: c) (at_cons.mpr h) ?_ (by omega)
            intro f hf
            obtain rfl := Option.some.inj hf
            simpa using hlt
          · exact .inl ⟨a, rfl, rfl⟩

section CmpDir

variable {cmp : α → ℤ}

omit [DecidableEq α]

theorem cmpDir_eq_left : cmpDir cmp a = some .left ↔ cmp a < 0 := by
  unfold cmpDir
  split_ifs with hlt hgt <;> simp [hlt]

theorem cmpDir_eq_right : cmpDir cmp a = some .right ↔ 0 < cmp a := by
  unfold cmpDir
  split_ifs with hlt hgt
  · simpa using hlt.le
  · simpa using hgt
  · simpa using hgt

theorem cmpDir_eq_none : cmpDir cmp a = none ↔ cmp a = 0 := by
  unfold cmpDir
  split_ifs with hlt hgt
  · simpa using hlt.ne
  · simpa using hgt.ne'
  · simp only [true_iff]
    omega

/-- The keys grow: once the key is not above an element, it is below the elements from there on. -/
theorem sweeps_cmpDir {l : List α} (h : l.Pairwise fun a b => cmp a ≤ 0 → cmp b < 0) :
    Sweeps (cmpDir cmp) l :=
  h.imp fun hab hne => cmpDir_eq_left.mpr (hab (not_lt.mp fun hgt => hne (cmpDir_eq_right.mpr hgt)))

end CmpDir

/-! ### The operation

A new leaf, and rebalancing on the way up. -/

/-- The last comparison says on which side the hole is. -/
theorem rbLink_eq {comp : ℤ} (hcomp : ∀ f ∈ c.head?, (comp < 0 ↔ f.side = .left)) :
    s.rbLink elm (up c) comp =
      (s.modify elm fun _ => ⟨none, none, up c, false, false⟩).setHole c (some elm) := by
  cases c with
  | nil => rfl
  | cons f c =>
      have hf := hcomp f rfl
      simp only [RbTree.rbLink, up, List.head?_cons, Option.map_some, RbTree.setHole]
      cases hside : f.side with
      | left => rw [if_pos (hf.mpr hside)]
      | right => rw [if_neg fun hlt => by rw [hf.mp hlt] at hside; cases hside]

/-- The new node becomes a leaf in the hole. -/
theorem At.rbLink (h : At own e₀ s c nil) (hnot : elm ∉ (plug c nil).toList) (hown : elm ∈ own) :
    At own e₀ ((s.modify elm fun _ => ⟨none, none, up c, false, false⟩).setHole c (some elm)) c
      (leaf elm) := by
  have hnodup := h.nodup
  have hup : up c ≠ some elm := fun hupe => hnot (up_mem hupe)
  have hmem : ∀ v ∈ (plug c (leaf elm)).toList, v ∈ (plug c nil).toList ∨ v = elm := by
    intro v hv
    rw [mem_plug, toList_leaf, List.mem_singleton] at hv
    exact hv
  refine ⟨?_, ⟨?_, trivial, trivial⟩, ?_, fun v hv => ?_, fun v hv => ?_⟩
  -- the hole in the frames is filled; nothing else in them points to the new node
  · refine LaysFrames.setHole (q := none) ?_ hnodup
    exact h.frames.congr fun v hv => RbTree.entry_modify_of_ne (ne_of_mem_of_not_mem hv hnot)
  · rw [entry_setHole_of_ne hup, RbTree.entry_modify_self]
    rfl
  · rw [nodup_plug, toList_leaf]
    refine ⟨hnodup, List.nodup_singleton _, fun v hv => ?_⟩
    rwa [List.mem_singleton.mp hv]
  · rcases hmem v hv with hv | rfl
    · exact h.sub v hv
    · exact hown
  · have hve : v ≠ elm := fun hve => hv (hve ▸ hown)
    rw [entry_setHole_of_ne, RbTree.entry_modify_of_ne hve, h.kept v hv]
    exact fun hupv => hv (h.sub v (up_mem hupv))

/-- `RB_INSERT` puts the node where it belongs, unless the key is in the tree. -/
theorem At.rbInsert {cmp : α → α → ℤ} (h : At own e₀ s [] t) (hbal : t.Balanced)
    (hsorted : t.toList.Pairwise fun a b => cmp elm a ≤ 0 → cmp elm b < 0)
    (hnot : elm ∉ t.toList) (hown : elm ∈ own) (hfuel : t.rank < fuel) :
    (∃ a ∈ t.toList, cmp elm a = 0 ∧ s.rbInsert cmp fuel elm = some (some a, s)) ∨
    (∀ a ∈ t.toList, cmp elm a ≠ 0) ∧ ∃ s' t', s.rbInsert cmp fuel elm = some (none, s') ∧
      At own e₀ s' [] t' ∧ t'.Balanced ∧
        t'.toList = t.toList.takeWhile (fun a => 0 < cmp elm a) ++
          elm :: t.toList.dropWhile fun a => 0 < cmp elm a := by
  have hsweeps := sweeps_cmpDir hsorted
  have hroot : s.rbhRoot = t.root := h.frames
  have hplug := plug_seek (cmpDir (cmp elm)) [] t
  rw [plug_nil] at hplug
  have htop : ∀ f ∈ ([] : List (BitFrame α)).head?, ((0 : ℤ) < 0 ↔ f.side = .left) := by simp
  -- the search ends at a node with the key, or at a hole
  have hsearch := h.rbInsertSearch (cmp elm) htop ((height_le_rank hbal).trans_lt hfuel)
  rcases hsearch with ⟨a, ha, hfound⟩ | ⟨hnil, comp, hcomp, hhole⟩
  · refine .inl ⟨a, ?_, cmpDir_eq_none.mp (root_seek _ _ _ a ha), ?_⟩
    · rw [← hplug]
      exact mem_plug.mpr (.inr (root_mem ha))
    · rw [RbTree.rbInsert, hroot]
      simp only [up, List.head?_nil, Option.map_none] at hfound
      rw [hfound]
      rfl
  · obtain ⟨hbefore, hbehind, hne⟩ := seek_nil hsweeps hnil
    refine .inr ⟨fun a ha h0 => hne a ha (cmpDir_eq_none.mpr h0), ?_⟩
    generalize hc : (seek (cmpDir (cmp elm)) [] t).1 = c at *
    rw [hnil] at hplug
    -- the hole is between the smaller keys and the larger ones
    have hlist : t.toList.takeWhile (fun a => 0 < cmp elm a) ++
        elm :: t.toList.dropWhile (fun a => 0 < cmp elm a) = before c ++ elm :: behind c := by
      simp only [hbefore, hbehind, cmpDir_eq_right]
    subst hplug
    have hat := (at_plug.mp h).rbLink hnot hown
    have hlen : c.length < fuel := by
      have := length_add_le_rank (balanced_plug.mp hbal).2 (balanced_plug.mp hbal).1
      omega
    obtain ⟨s', hs', hat'⟩ := hat.rbInsertColor rfl (balanced_plug.mp hbal).1 balanced_leaf rfl
      (leaning_leaf elm) hlen
    refine ⟨s', insertAt c elm, ?_, hat', balanced_insertAt hbal, by rw [hlist, toList_insertAt]⟩
    rw [RbTree.rbInsert, hroot]
    simp only [up, List.head?_nil, Option.map_none] at hhole
    rw [hhole]
    simp only [Option.bind_eq_bind, Option.bind_some]
    rw [show Option.map BitFrame.val c.head? = up c from rfl, rbLink_eq hcomp, hs']
    rfl

end Koharu
