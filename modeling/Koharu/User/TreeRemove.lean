import Koharu.User.TreeInsert

/-!
# Deletion from a tree

`RB_REMOVE` takes a node out, or puts its successor in its place, and `RB_REMOVE_COLOR` does what
`fall` does from the hole that is left.

A node with at most one child is replaced by this child. A node with two children is replaced by its
successor, which has no left child: the successor is taken out where it is, and then gets the entry
of the node. So there are two places at which stores are made, the hole that the successor leaves
and the node above it, and the path from the hole to the root leads through the node under its new
name (`LaysFrames.rename`). The rank of the tree in the hole is one too small, and every iteration
of `RB_REMOVE_COLOR` is a step of `fall` on the path.
-/

namespace Koharu

open RankTree RankTree.BitTree RbEntry

variable {α : Type*} [DecidableEq α] {own : Set α} {e₀ : α → RbEntry α} {s : RbTree α}
  {c : List (BitFrame α)} {f : BitFrame α} {d : Side} {t x y z : BitTree α} {w w' w₁ w₂ : Bool}
  {a b p elm : α} {fuel k : ℕ}

/-! ### Demotions

The loop of `RB_REMOVE_COLOR` takes the path apart from its lower end. -/

/-- The rotations of `RB_REMOVE_COLOR`. -/
theorem At.rbRemoveRotate
    (h : At own e₀ s c (BitTree.mk d t true p false (BitTree.mk d x w₁ a w₂ y)))
    (hw : (w₁ && w₂) = false) (hx : w₁ = false → w₂ = true → x ≠ nil) :
    ∃ s', RbTree.rbRemoveRotate d s p a = some s' ∧
      At own e₀ s' c ((⟨d, true, p, false, z⟩ : BitFrame α).pullUp t x w₁ a w₂ y) := by
  -- the focus on the sibling, and back
  have hfocus : ∀ {s' : RbTree α} {u : BitTree α} {w w' : Bool},
      At own e₀ s' c (BitTree.mk d t w p w' u) ↔ At own e₀ s' (⟨d.opp, w', p, w, t⟩ :: c) u := by
    intro s' u w w'
    rw [at_cons, BitFrame.plug, mk_opp]
  have hflip := (hfocus.mp h).flip_opp
  rw [RbTree.rbRemoveRotate, RbTree.rbRemoveTurn, BitFrame.pullUp]
  simp only [hflip.entry, sided_red, sided_red_opp]
  cases w₁ with
  | true =>
      obtain rfl : w₂ = false := by simpa using hw
      obtain ⟨s', hrot, hat⟩ := (hfocus.mpr hflip).flip.rotate
      rw [if_pos rfl, if_pos rfl]
      simp only [Option.bind_eq_bind, Option.bind_some, hrot]
      exact ⟨s', rfl, hat⟩
  | false =>
      rw [if_neg Bool.false_ne_true, if_neg Bool.false_ne_true]
      cases w₂ with
      | false =>
          obtain ⟨s', hrot, hat⟩ := (hfocus.mpr hflip).rotate
          rw [if_neg (by decide), if_neg Bool.false_ne_true]
          simp only [Option.bind_eq_bind, Option.bind_some, hrot]
          exact ⟨s', rfl, hat⟩
      | true =>
          rcases eq_nil_or_eq_mk d x with rfl | ⟨z₁, u₁, b, u₂, z₂, rfl⟩
          · exact absurd rfl (hx rfl rfl)
          · obtain ⟨s₁, hrot, hat⟩ := (hfocus.mp (hfocus.mpr hflip).flip).rotate_opp
            rw [if_pos (by decide), if_pos rfl, hrot]
            simp only [Option.bind_eq_bind, Option.bind_some, Option.map_some, split_mk, hat.entry,
              sided_red_opp]
            -- the bits of the sibling, then those of the node above
            have hsib : At own e₀ (if u₂ then s₁.modify a (·.flip d) else s₁)
                (⟨d.opp, false, p, false, t⟩ :: c)
                (BitTree.mk d z₁ u₁ b u₂ (BitTree.mk d z₂ u₂ a false y)) := by
              cases u₂ with
              | false => exact hat
              | true =>
                  have hdown : At own e₀ s₁
                    (⟨d.opp, true, b, u₁, z₁⟩ :: ⟨d.opp, false, p, false, t⟩ :: c)
                      (BitTree.mk d z₂ false a false y) := by
                    rw [at_cons, BitFrame.plug, mk_opp]
                    exact hat
                  have := at_cons.mp hdown.flip
                  rwa [BitFrame.plug, mk_opp] at this
            generalize hs₂ : (if u₂ then s₁.modify a (·.flip d) else s₁) = s₂ at hsib ⊢
            rw [hsib.entry, sided_red]
            have hparent : At own e₀ (if u₁ then s₂.modify p (·.flip d.opp) else s₂) c
                (BitTree.mk d t false p u₁
                (BitTree.mk d z₁ u₁ b u₂ (BitTree.mk d z₂ u₂ a false y))) := by
              cases u₁ with
              | false => exact hfocus.mpr hsib
              | true => exact (hfocus.mpr hsib).flip_opp
            obtain ⟨s₃, hrot₃, hat₃⟩ := (hfocus.mpr ((hfocus.mp hparent).fill true)).rotate
            rw [hrot₃]
            exact ⟨s₃, rfl, hat₃⟩

/-- The loop of `RB_REMOVE_COLOR` does what `fall` does. -/
theorem At.rbRemoveColorLoop (h : At own e₀ s (f :: c) t) (hne : f.sib.root ≠ t.root)
    (hfits : FitsRank (f :: c) (k + 1)) (hbal : t.Balanced) (hk : t.rank = k)
    (hfuel : (f :: c).length ≤ fuel) :
    ∃ s', RbTree.rbRemoveColorLoop fuel s f.val t.root = some s' ∧
      At own e₀ s' [] (fall (f :: c) t) := by
  induction fuel generalizing s f c t k with
  | zero => cases hfuel
  | succ fuel ih =>
      obtain ⟨hs, hrank, hleaf, hup⟩ := hfits
      have hnode := at_cons.mp h
      have hside := h.side_eq hne
      -- the loop goes on above the node, unless that is the root
      have hnext : ∀ {s' : RbTree α} {t' : BitTree α}, At own e₀ s' c t' → t'.root = some f.val →
          t'.Balanced → FitsRank c (t'.rank + 1) → ∃ s'', (s'.rbAbove f.val fun up =>
            RbTree.rbRemoveColorLoop fuel s' up (some f.val)) = some s'' ∧
              At own e₀ s'' [] (fall c t') := by
        intro s' t' hat hroot hbal' hfits'
        rw [RbTree.rbAbove, hat.parent_eq hroot]
        cases c with
        | nil => exact ⟨s', rfl, hat⟩
        | cons g c =>
            have := ih hat (hroot ▸ hat.root_ne_sib hroot) hfits' hbal' rfl
              (Nat.le_of_succ_le_succ hfuel)
            rwa [hroot] at this
      obtain ⟨d, w, p, w', z⟩ := f
      simp only at hs hrank hleaf hup hside hne hnext ⊢
      have hentry : s.entry p = sided d t.root w z.root w' (up c) := hnode.entry
      rw [hentry] at hside
      unfold RbTree.rbRemoveColorLoop
      simp only [hentry, hside, sided_red, sided_red_opp, sided_child_opp, fall]
      cases w with
      | false =>
          simp only [Bool.not_false, if_true]
          exact ⟨_, rfl, at_plug.mpr hnode.flip⟩
      | true =>
          simp only [Bool.not_true, Bool.false_eq_true, if_false]
          rw [Bool.toNat_true] at hrank hup
          cases w' with
          | true =>
              simp only [if_true]
              rw [Bool.toNat_true] at hrank
              have heq : t.rank + true.toNat = z.rank + false.toNat := by
                simp only [Bool.toNat_false, Bool.toNat_true]
                omega
              refine hnext hnode.flip_opp (root_mk ..)
                (balanced_mk.mpr ⟨hbal, hs, heq, fun _ h0 => ?_⟩) ?_
              · omega
              · rwa [rank_mk heq, hk, Bool.toNat_true]
          | false =>
              simp only [Bool.false_eq_true, if_false]
              rw [Bool.toNat_false] at hrank
              rcases eq_nil_or_eq_mk d z with rfl | ⟨x, w₁, a, w₂, y, rfl⟩
              · rw [rank_nil] at hrank
                omega
              · obtain ⟨hx, hy, hxy, -⟩ := balanced_mk.mp hs
                have hfocus : At own e₀ s (⟨d.opp, false, p, true, t⟩ :: c)
                  (BitTree.mk d x w₁ a w₂ y) := by
                  rw [at_cons, BitFrame.plug, mk_opp]
                  exact hnode
                rw [rank_mk hxy] at hrank
                simp only [root_mk, split_mk, hfocus.entry, sided_red, sided_red_opp]
                cases hww : w₁ && w₂ with
                | true =>
                    obtain ⟨rfl, rfl⟩ := Bool.and_eq_true_iff.mp hww
                    simp only [if_true]
                    have hin : x.rank + false.toNat = y.rank + false.toNat := by
                      simp only [Bool.toNat_false, Bool.toNat_true] at *
                      omega
                    have heq : t.rank + true.toNat =
                        (BitTree.mk d x false a false y).rank + false.toNat := by
                      rw [rank_mk hin]
                      simp only [Bool.toNat_false, Bool.toNat_true] at *
                      omega
                    have hat := at_cons.mp (hfocus.fill false)
                    rw [BitFrame.plug, mk_opp] at hat
                    refine hnext hat (root_mk ..) (balanced_mk.mpr ⟨hbal,
                      balanced_mk.mpr ⟨hx, hy, hin, fun _ _ => rfl⟩, heq, fun _ h0 => ?_⟩) ?_
                    · rw [rank_mk hin] at h0
                      omega
                    · rwa [rank_mk heq, hk, Bool.toNat_true]
                | false =>
                    simp only [Bool.false_eq_true, if_false]
                    obtain ⟨s', hs', hat⟩ :=
                      At.rbRemoveRotate (z := BitTree.mk d x w₁ a w₂ y) hnode hww
                      fun h₁ h₂ hx0 => by
                        subst h₁ h₂ hx0
                        rw [rank_nil, Bool.toNat_true, Bool.toNat_false] at hxy
                        omega
                    exact ⟨s', hs', at_plug.mpr hat⟩

/-- `RB_REMOVE_COLOR` does what `collapse` does. -/
theorem At.rbRemoveColor (h : At own e₀ s (f :: c) t) (hfits : FitsRank (f :: c) (t.rank + 1))
    (hbal : t.Balanced) (hfuel : (f :: c).length ≤ fuel) :
    ∃ s', RbTree.rbRemoveColor fuel s f.val t.root = some s' ∧
      At own e₀ s' [] (collapse (f :: c) t) := by
  have hchildren : ((s.entry f.val).rbeLeft = t.root ∧ (s.entry f.val).rbeRight = t.root) ↔
      f.sib.root = t.root := by
    rw [h.entry_up]
    cases f.side <;> simp [sided]
  rw [RbTree.rbRemoveColor, collapse]
  by_cases hsib : f.sib.root = t.root
  · -- both children are null
    rw [if_pos (hchildren.mpr hsib)]
    have ht : t = nil := by
      rw [← root_eq_none]
      by_contra hne
      obtain ⟨a, ha⟩ := Option.ne_none_iff_exists'.mp hne
      exact h.root_ne_sib ha (hsib.trans ha)
    subst ht
    rw [root_nil, root_eq_none] at hsib
    obtain ⟨hs, hrank, -, hup⟩ := hfits
    have hleaf : At own e₀ (s.modify f.val (·.fill false)) c (leaf f.val) := by
      have := (at_cons.mp h).fill false
      rwa [hsib, ← leaf_eq_mk] at this
    rw [hsib, rank_nil] at hrank
    have hle := Bool.toNat_le f.sibWide
    rw [rank_nil, show f.wide.toNat = 0 by omega] at hup
    simp only [hsib, root_nil, Option.isNone_none, Bool.and_self, if_true, RbTree.rbAbove,
      hleaf.parent_eq rfl]
    cases c with
    | nil => exact ⟨_, rfl, hleaf⟩
    | cons g c =>
        exact hleaf.rbRemoveColorLoop (hleaf.root_ne_sib rfl) hup balanced_leaf rfl
          (Nat.le_of_succ_le hfuel)
  · rw [if_neg fun h => hsib (hchildren.mp h), if_neg]
    · exact h.rbRemoveColorLoop hsib hfits hbal rfl hfuel
    · rw [Bool.and_eq_true, Option.isNone_iff_eq_none, Option.isNone_iff_eq_none]
      exact fun hnil => hsib (hnil.2.trans hnil.1.symm)

/-! ### The successor

A node with two children is replaced by its successor, which takes over its place and its rank. -/

omit [DecidableEq α] in
theorem LaysFrames.drop {e : α → RbEntry α} {top q : Option α} {c' : List (BitFrame α)}
    (h : LaysFrames e top q (c' ++ c)) : ∃ p, LaysFrames e top p c := by
  induction c' generalizing q with
  | nil => exact ⟨q, h⟩
  | cons g c' ih => exact ih h.2.2

omit [DecidableEq α] in
/-- Another node gets the entry of a node on the path, and the pointers to the latter. -/
theorem LaysFrames.rename {e e' : α → RbEntry α} {top top' q : Option α} {c' : List (BitFrame α)}
    {m : α} (h : LaysFrames e top q (c' ++ f :: c)) (hnodup : (plug c' nil).toList.Nodup)
    (hlast : ∀ g ∈ c'.getLast?, e' g.val = (e g.val).setParent (some m))
    (hkeep : ∀ v ∈ (plug c' nil).toList, (∀ g ∈ c'.getLast?, v ≠ g.val) → e' v = e v)
    (hm : e' m = e f.val) (hsib : Lays e' (some m) f.sib) (hc : LaysFrames e' top' (some m) c) :
    LaysFrames e' top' q (c' ++ { f with val := m } :: c) := by
  induction c' generalizing q with
  | nil => exact ⟨hm.trans h.1, hsib, hc⟩
  | cons g c' ih =>
      obtain ⟨hg, hs, hrest⟩ := h
      rw [plug_cons, nodup_plug, BitFrame.plug, nodup_mk] at hnodup
      obtain ⟨hnc, ⟨-, -, -, hval, -⟩, hout⟩ := hnodup
      have hin : ∀ v, v = g.val ∨ v ∈ g.sib.toList ∨ v ∈ (plug c' nil).toList →
          v ∈ (plug (g :: c') nil).toList := by
        intro v hv
        rw [plug_cons, mem_plug, BitFrame.plug, mem_toList_mk]
        tauto
      have hgout : g.val ∉ (plug c' nil).toList := hout _ (mem_toList_mk.mpr (.inl rfl))
      -- the last frame of the upper part points to the renamed node, those above do not
      cases c' with
      | nil =>
          refine ⟨?_, hs.congr fun v hv => hkeep v (hin v (.inr (.inl hv))) ?_, hm.trans hrest.1,
            hsib, hc⟩
          · rw [hlast g rfl, hg]
            exact sided_setParent
          · intro g' hg'
            obtain rfl := Option.some.inj hg'
            exact ne_of_mem_of_not_mem hv hval
      | cons g' c'' =>
          have hlast' : (g :: g' :: c'').getLast? = (g' :: c'').getLast? := List.getLast?_cons_cons
          have hmem : ∀ u ∈ (g' :: c'').getLast?, u.val ∈ (plug (g' :: c'') nil).toList :=
            fun u hu => val_mem (List.mem_of_getLast? hu)
          refine ⟨?_, hs.congr fun v hv => hkeep v (hin v (.inr (.inl hv))) ?_,
            ih hrest hnc (by rwa [hlast'] at hlast) ?_⟩
          · rw [hkeep _ (hin _ (.inl rfl)), hg]
            · rfl
            · rw [hlast']
              exact fun u hu => (ne_of_mem_of_not_mem (hmem u hu) hgout).symm
          · rw [hlast']
            intro u hu hvu
            exact hout v (mem_toList_mk.mpr (.inr (.inr hv))) (hvu ▸ hmem u hu)
          · intro v hv hne
            rw [← hlast'] at hne
            exact hkeep v (hin v (.inr (.inr hv))) hne

/-- The pointers of the children and of the node above to a node, and its entry, go to another
one. -/
def RbTree.handOver (s : RbTree α) (c' : List (BitFrame α)) (f : BitFrame α) (m : α) : RbTree α :=
  let s := s.setParent? (c'.getLast?.map BitFrame.val) (some m)
  let s := s.setParent? f.sib.root (some m)
  let s := s.modify m fun _ => s.entry f.val
  s.rbSwapChild f.val (some m)

theorem AtUp.handOver {q : Option α} {c' : List (BitFrame α)} {m : α}
    (h : AtUp own e₀ s q (c' ++ f :: c) y) (hm : m ∉ (plug (c' ++ f :: c) y).toList)
    (hown : m ∈ own) : AtUp own e₀ (s.handOver c' f m) q (c' ++ { f with val := m } :: c) y := by
  obtain ⟨hframes, hlays, hnodup, hsub, hkept⟩ := h
  have hmp : ∀ {v}, v ∈ (plug c' y).toList ↔ v ∈ (plug c' nil).toList ∨ v ∈ y.toList := mem_plug
  -- the node above and the rest
  have hmem : ∀ {v}, v ∈ (plug (c' ++ f :: c) y).toList ↔
      v = f.val ∨ v ∈ (plug c' nil).toList ∨ v ∈ y.toList ∨ v ∈ f.sib.toList ∨
        v ∈ (plug c nil).toList := by
    intro v
    rw [plug_append, plug_cons, mem_plug, BitFrame.plug, mem_toList_mk, hmp]
    tauto
  rw [hmem] at hm
  push Not at hm
  obtain ⟨hmf, hmc', hmy, hmsib, hmc⟩ := hm
  have hsplit := hnodup
  rw [plug_append, plug_cons, nodup_plug, BitFrame.plug, nodup_mk] at hsplit
  simp only [mem_toList_mk, hmp] at hsplit
  obtain ⟨hc, ⟨hc'y, hsib, hfc', hfsib, hdisj⟩, hout⟩ := hsplit
  obtain ⟨hc', hy, hyc'⟩ := nodup_plug.mp hc'y
  push Not at hfc'
  have hupc : ∀ v, v = f.val ∨ (v ∈ (plug c' nil).toList ∨ v ∈ y.toList) ∨ v ∈ f.sib.toList →
      up c ≠ some v := fun v hv hup => hout v hv (up_mem hup)
  have hlastmem : ∀ v, some v = c'.getLast?.map BitFrame.val → v ∈ (plug c' nil).toList := by
    intro v hv
    obtain ⟨g, hg, rfl⟩ := Option.map_eq_some_iff.mp hv.symm
    exact val_mem (List.mem_of_getLast? hg)
  -- the states between the stores
  let s₁ := s.setParent? (c'.getLast?.map BitFrame.val) (some m)
  let s₂ := s₁.setParent? f.sib.root (some m)
  let s₃ := s₂.modify m fun _ => s₂.entry f.val
  have h₂ : ∀ v, some v ≠ c'.getLast?.map BitFrame.val → some v ≠ f.sib.root →
      s₂.entry v = s.entry v := fun v hv hv' => by
    rw [RbTree.entry_setParent?_of_ne hv', RbTree.entry_setParent?_of_ne hv]
  obtain ⟨p, hlf, hlsib, hlc⟩ := hframes.drop
  have hroot₃ : s₃.rbhRoot = s.rbhRoot := by
    rw [RbTree.rbhRoot_modify, RbTree.rbhRoot_setParent?, RbTree.rbhRoot_setParent?]
  have hlsib₂ : Lays s₂.entry (some m) f.sib := by
    refine (hlsib.congr fun v hv => RbTree.entry_setParent?_of_ne fun hl => ?_).reparent hsib
    exact hdisj v (.inl (hlastmem v hl)) hv
  have hlc₃ : LaysFrames s₃.entry s₃.rbhRoot (some f.val) c := by
    rw [hroot₃]
    apply hlc.congr
    intro v hv
    rw [RbTree.entry_modify_of_ne (ne_of_mem_of_not_mem hv hmc)]
    apply h₂ v (fun hl => hout v (.inr (.inl (.inl (hlastmem v hl)))) hv)
    intro hr
    exact hout v (.inr (.inr (root_mem hr.symm))) hv
  have hs₄ : s.handOver c' f m = s₃.setHole c (some m) := by
    refine hlc₃.rbSwapChild_eq ?_ (hout _ (.inl rfl))
    rw [RbTree.entry_modify_of_ne (Ne.symm hmf), h₂, hlf, sided_parent]
    · exact fun hl => hfc'.1 (hlastmem _ hl)
    · exact fun hr => hfsib (root_mem hr.symm)
  have h₄ : ∀ v, v ≠ m → up c ≠ some v → (s.handOver c' f m).entry v = s₂.entry v :=
    fun v hv hv' => by rw [hs₄, entry_setHole_of_ne hv', RbTree.entry_modify_of_ne hv]
  have hkeep : ∀ v, v ∉ (plug c' nil).toList → v ∉ f.sib.toList → v ≠ m → up c ≠ some v →
      (s.handOver c' f m).entry v = s.entry v := fun v hv hv' hvm hvc =>
    (h₄ v hvm hvc).trans
      (h₂ v (fun hl => hv (hlastmem v hl)) fun hr => hv' (root_mem hr.symm))
  refine ⟨?_, hlays.congr fun v hv => hkeep v ?_ ?_ ?_ (hupc v (by tauto)), ?_, fun v hv => ?_,
    fun v hv => ?_⟩
  · refine hframes.rename hc' (fun g hg => ?_) (fun v hv hne => ?_) ?_ ?_ ?_
    · have hgmem : g.val ∈ (plug c' nil).toList := val_mem (List.mem_of_getLast? hg)
      have hg' : c'.getLast?.map BitFrame.val = some g.val := by
        rw [Option.mem_def.mp hg]
        rfl
      rw [h₄ _ (ne_of_mem_of_not_mem hgmem hmc') (hupc _ (by tauto)),
        RbTree.entry_setParent?_of_ne fun hr => hdisj _ (.inl hgmem) (root_mem hr.symm)]
      simp only [s₁, hg', RbTree.setParent?, RbTree.entry_modify_self]
    · rw [h₄ v (ne_of_mem_of_not_mem hv hmc') (hupc v (by tauto)), h₂ v]
      · intro hl
        obtain ⟨g, hg, hgv⟩ := Option.map_eq_some_iff.mp hl.symm
        exact hne g hg hgv.symm
      · exact fun hr => hdisj v (.inl hv) (root_mem hr.symm)
    · rw [hs₄, entry_setHole_of_ne fun hup => hmc (up_mem hup), RbTree.entry_modify_self, h₂]
      · exact fun hl => hfc'.1 (hlastmem _ hl)
      · exact fun hr => hfsib (root_mem hr.symm)
    · exact hlsib₂.congr fun v hv => h₄ v (ne_of_mem_of_not_mem hv hmsib) (hupc v (by tauto))
    · rw [hs₄]
      exact hlc₃.setHole hc
  · exact hyc' v hv
  · exact fun hv' => hdisj v (.inr hv) hv'
  · exact ne_of_mem_of_not_mem hv hmy
  · rw [plug_append, plug_cons, nodup_plug, BitFrame.plug, nodup_mk]
    simp only [mem_toList_mk, hmp]
    refine ⟨hc, ⟨hc'y, hsib, ?_, hmsib, hdisj⟩, ?_⟩
    · tauto
    · rintro v (rfl | hv)
      · exact hmc
      · exact hout v (.inr hv)
  · have hcases : v = m ∨ v ∈ (plug (c' ++ f :: c) y).toList := by
      rw [hmem]
      rw [plug_append, plug_cons, mem_plug, BitFrame.plug, mem_toList_mk, hmp] at hv
      tauto
    rcases hcases with rfl | hv
    · exact hown
    · exact hsub v hv
  · have hvnot : ∀ u ∈ (plug (c' ++ f :: c) y).toList, v ≠ u := fun u hu hvu => hv (hvu ▸ hsub u hu)
    simp only [hmem] at hvnot
    rw [hkeep v (fun hv' => hvnot v (by tauto) rfl) (fun hv' => hvnot v (by tauto) rfl)
      (fun hvm => hv (hvm ▸ hown)) fun hup => hvnot v (by have := up_mem hup; tauto) rfl]
    exact hkept v hv

/-! ### The operation

By cases on the number of children. -/

omit [DecidableEq α] in
/-- The way down to one side ends at the first element from there. -/
theorem Lays.rbDescend {q : Option α} (h : Lays s.entry q t) (ht : t.root = some a)
    (hfuel : t.height ≤ fuel) : RbTree.rbDescend d s fuel a = (t.listFrom d).head? := by
  induction fuel generalizing t a q with
  | zero =>
      rcases eq_nil_or_eq_mk d t with rfl | ⟨x, w, b, w', y, rfl⟩
      · cases ht
      · rw [height_mk] at hfuel
        omega
  | succ fuel ih =>
      rcases eq_nil_or_eq_mk d t with rfl | ⟨x, w, b, w', y, rfl⟩
      · cases ht
      · rw [root_mk] at ht
        obtain rfl := Option.some.inj ht
        rw [height_mk] at hfuel
        obtain ⟨hb, hx, -⟩ := lays_mk.mp h
        rw [RbTree.rbDescend, hb, sided_child, listFrom_mk]
        -- no child on that side: this is the first node; otherwise the descent goes on there
        rcases eq_nil_or_eq_mk d x with rfl | ⟨x', v, b', v', y', rfl⟩
        · rw [listFrom_nil]
          rfl
        · rw [root_mk]
          simp only
          rw [ih hx (root_mk ..) (by omega), listFrom_mk, List.append_assoc]
          cases x'.listFrom d <;> rfl

/-- The end of `RB_REMOVE`, where the node in the hole is taken out. -/
theorem AtUp.recolor {q : Option α} (h : AtUp own e₀ s q c y) (hfits : FitsRank c (y.rank + 1))
    (hbal : y.Balanced) (hfuel : c.length ≤ fuel) :
    ∃ s', (match up c with
      | none => some (s.setParent? y.root (up c))
      | some p => RbTree.rbRemoveColor fuel (s.setParent? y.root (up c)) p y.root) = some s' ∧
        At own e₀ s' [] (collapse c y) := by
  have hat := h.reparent
  cases c with
  | nil => exact ⟨_, rfl, hat⟩
  | cons f c => exact hat.rbRemoveColor hfits hbal hfuel

/-- `RB_REMOVE` of a node with at most one child. -/
theorem At.rbReplace (h : At own e₀ s c (BitTree.mk d nil w a w' y))
    (hbal : (plug c (BitTree.mk d nil w a w' y)).Balanced) (hfuel : c.length ≤ fuel) :
    ∃ s', RbTree.rbReplace fuel s a y.root y.root (up c) = some s' ∧
      At own e₀ s' [] (collapse c y) := by
  obtain ⟨hfits, hy⟩ := fits_of_cut hbal
  have hframes := h.frames
  rw [root_mk] at hframes
  have hnot : a ∉ (plug c nil).toList :=
    (nodup_plug.mp h.nodup).2.2 a (mem_toList_mk.mpr (.inl rfl))
  obtain ⟨s', hs', hat⟩ := h.cut.recolor hfits hy hfuel
  refine ⟨s', ?_, hat⟩
  unfold RbTree.rbReplace
  rw [hframes.rbSwapChild_eq (h.parent_eq (root_mk ..)) hnot]
  exact hs'

/-- `RB_REMOVE` of a node with two children, from the entries on in which the successor is taken
out. -/
theorem AtUp.rbReplace {q : Option α} {c' : List (BitFrame α)} {m : α}
    (h : AtUp own e₀ s q (c' ++ f :: c) y) (hm : m ∉ (plug (c' ++ f :: c) y).toList)
    (hown : m ∈ own) (hfits : FitsRank (c' ++ f :: c) (y.rank + 1)) (hbal : y.Balanced)
    (hfuel : (c' ++ f :: c).length ≤ fuel) :
    ∃ s', (match up (c' ++ { f with val := m } :: c) with
      | none => some ((s.handOver c' f m).setParent? y.root (up (c' ++ { f with val := m } :: c)))
      | some p => RbTree.rbRemoveColor fuel
          ((s.handOver c' f m).setParent? y.root (up (c' ++ { f with val := m } :: c))) p y.root) =
            some s' ∧ At own e₀ s' [] (collapse (c' ++ { f with val := m } :: c) y) :=
  (h.handOver hm hown).recolor (fits_replace.mpr hfits) hbal (by simpa using hfuel)

/-- `RB_REMOVE` does what `removeAt` does. -/
theorem At.rbRemove {l r : BitTree α} (h : At own e₀ s c (node l w a w' r))
    (hbal : (plug c (node l w a w' r)).Balanced)
    (hfuel : (plug c (node l w a w' r)).rank ≤ fuel) :
    ∃ s', s.rbRemove fuel a = some s' ∧ At own e₀ s' [] (removeAt c (node l w a w' r)) := by
  have hentry : s.entry a = ⟨l.root, r.root, up c, w, w'⟩ := h.lays.1
  have hlen := length_add_le_rank (balanced_plug.mp hbal).2 (balanced_plug.mp hbal).1
  rw [RbTree.rbRemove, removeAt, hentry]
  by_cases hl : l = nil
  · subst hl
    exact At.rbReplace (d := .left) h hbal (by omega)
  · by_cases hr : r = nil
    · subst hr
      obtain ⟨x, hx⟩ := Option.ne_none_iff_exists'.mp (mt root_eq_none.mp hl)
      simp only [root_nil, hx, Option.isNone_some, Option.isNone_none, Bool.false_eq_true, if_false,
        if_true]
      rw [← hx]
      exact At.rbReplace (d := .right) h hbal (by omega)
    · obtain ⟨⟨c', m, y⟩, hq⟩ := Option.ne_none_iff_exists'.mp (splitMin_ne_none (f := []) hr)
      obtain ⟨x, hx⟩ := Option.ne_none_iff_exists'.mp (mt root_eq_none.mp hl)
      obtain ⟨u, u', hplug⟩ := plug_of_splitMin hq
      simp only [hx, Option.isNone_some, Bool.false_eq_true, if_false]
      -- the successor is in focus, and taken out
      have hright : At own e₀ s (⟨.right, w', a, w, l⟩ :: c) r := at_cons.mpr h
      have hfocus : At own e₀ s (c' ++ ⟨.right, w', a, w, l⟩ :: c) (node nil u m u' y) := by
        rw [at_append, hplug]
        exact hright
      have heq : plug (c' ++ ⟨.right, w', a, w, l⟩ :: c) (node nil u m u' y) =
          plug c (node l w a w' r) := by
        rw [plug_append, hplug]
        rfl
      rw [← heq] at hbal hfuel
      have hlen' : (c' ++ ⟨.right, w', a, w, l⟩ :: c).length ≤ fuel :=
        (Nat.le_add_right ..).trans ((length_add_le_rank (balanced_plug.mp hbal).2
          (balanced_plug.mp hbal).1).trans hfuel)
      obtain ⟨hfits, hy⟩ := fits_of_cut (d := .left) hbal
      have hmentry : s.entry m = ⟨none, y.root, up (c' ++ ⟨.right, w', a, w, l⟩ :: c), u, u'⟩ :=
        hfocus.lays.1
      have hnodup := nodup_plug.mp hfocus.nodup
      have hm : m ∉ (plug (c' ++ ⟨.right, w', a, w, l⟩ :: c) y).toList := by
        rw [mem_plug]
        rintro (hm | hm)
        · exact hnodup.2.2 m (mem_toList_mk (d := .left).mpr (.inl rfl)) hm
        · exact (nodup_mk (d := .left)).mp hnodup.2.1 |>.2.2.2.1 hm
      have hown : m ∈ own :=
        hfocus.sub m (mem_plug.mpr (.inr (mem_toList_mk (d := .left).mpr (.inl rfl))))
      obtain ⟨s', hs', hat⟩ := (At.cut (d := .left) hfocus).rbReplace hm hown hfits hy hlen'
      rcases eq_nil_or_eq_mk .left r with rfl | ⟨rl, v, b, v', rr, rfl⟩
      · exact absurd rfl hr
      · have hbentry : s.entry b = ⟨rl.root, rr.root, some a, v, v'⟩ := hright.entry
        simp only [root_mk, hbentry, hq]
        by_cases hrl : rl = nil
        · -- the right child is the successor
          subst hrl
          obtain ⟨rfl, rfl, rfl⟩ : c' = [] ∧ m = b ∧ y = rr := by
            simpa [splitMin, BitTree.mk, eq_comm] using hq
          refine ⟨s', ?_, hat⟩
          rw [← hs']
          simp only [root_nil, RbTree.rbReplace, RbTree.handOver, List.nil_append, hx]
          rfl
        · -- the successor is at the end of a way down to the left
          obtain ⟨⟨c₁, m', y'⟩, hq'⟩ :=
            Option.ne_none_iff_exists'.mp (splitMin_ne_none (f := []) hrl)
          have happend := splitMin_append [⟨.left, v, b, v', rr⟩] hq'
          rw [List.nil_append] at happend
          obtain ⟨rfl, rfl, rfl⟩ : c₁ ++ [⟨.left, v, b, v', rr⟩] = c' ∧ m' = m ∧ y' = y := by
            simpa [splitMin, BitTree.mk, happend] using hq
          obtain ⟨least, hleast⟩ := Option.ne_none_iff_exists'.mp (mt root_eq_none.mp hrl)
          have hdescend : RbTree.rbDescend .left s fuel least = some m' := by
            have hbal' : (plug (⟨.left, v, b, v', rr⟩ :: ⟨.right, w', a, w, l⟩ :: c)
              rl).Balanced := by
              rw [heq] at hbal
              exact hbal
            have hrank := length_add_le_rank (balanced_plug.mp hbal').2 (balanced_plug.mp hbal').1
            have hheight := height_le_rank (balanced_plug.mp hbal').2
            rw [(lays_mk.mp hright.lays).2.1.rbDescend hleast (hheight.trans ?_)]
            · obtain ⟨_, _, hplug₁⟩ := plug_of_splitMin hq'
              have hlist := congrArg toList hplug₁
              rw [toList_plug, before_splitMin hq', plug_nil] at hlist
              rw [listFrom, ← hlist]
              rfl
            · rw [heq] at hfuel
              exact (Nat.le_add_left ..).trans (hrank.trans hfuel)
          have hside := side_splitMin happend (by simp)
          obtain ⟨g, c₂, hc₂⟩ := List.exists_cons_of_ne_nil
            (List.append_ne_nil_of_right_ne_nil c₁ (List.cons_ne_nil ⟨.left, v, b, v', rr⟩ []))
          -- the stores, one after the other
          have hg : g ∈ c₁ ++ [⟨.left, v, b, v', rr⟩] := hc₂ ▸ List.mem_cons_self
          have har : a ∉ (BitTree.mk .left rl v b v' rr).toList :=
            ((nodup_mk (d := .left)).mp (nodup_plug.mp h.nodup).2.1).2.2.2.1
          have hga : g.val ≠ a := by
            have hgr := val_mem (t := node nil u m' u' y') hg
            rw [hplug, plug_nil] at hgr
            exact ne_of_mem_of_not_mem hgr har
          have hba : b ≠ a := ne_of_mem_of_not_mem (mem_toList_mk.mpr (.inl rfl)) har
          have hup : ∀ k, up (c₁ ++ [⟨.left, v, b, v', rr⟩] ++ k) = some g.val := by
            intro k
            rw [hc₂]
            rfl
          have hhole : s.setHole (c₁ ++ [⟨.left, v, b, v', rr⟩] ++ ⟨.right, w', a, w, l⟩ :: c)
            y'.root =
              s.modify g.val (·.setChild .left y'.root) := by
            rw [hc₂, List.cons_append, RbTree.setHole, hside g hg]
          have ha₁ : (s.modify g.val (·.setChild .left y'.root)).entry a =
              ⟨l.root, some b, up c, w, w'⟩ := by
            rw [RbTree.entry_modify_of_ne hga.symm, hentry, root_mk]
          have hlast : (c₁ ++ [(⟨.left, v, b, v', rr⟩ : BitFrame α)]).getLast?.map BitFrame.val =
            some b := by
            rw [List.getLast?_concat]
            rfl
          refine ⟨s', ?_, hat⟩
          rw [← hs']
          simp only [hleast, hdescend, Option.bind_eq_bind, Option.bind_some, hmentry, hup, ha₁,
            RbTree.entry_modify_of_ne hba.symm, hx, RbTree.rbReplace, RbTree.handOver, hhole, hlast,
            RbTree.setParent?]

end Koharu
