import Koharu.Lib.RankSearch
import Koharu.User.Tree

/-!
# Trees in memory

`At own e₀ s c t`: the entries in `s` are those of the tree `t` in the hole of the frames `c`. Each
element is one node, so that it is in one place, and only the nodes in `own` differ from the entries
`e₀` of before. `AtUp` is the same where the pointer to the parent is not yet right.

The stores of `tree.h` are described one by one. `At.modify` changes the bits of a node,
`At.rotate` is a rotation, and `At.place` puts another tree in the place of a node. The focus moves
between a node and its children by `at_cons`.
-/

namespace Koharu

open RankTree

variable {α : Type*}

/-! ### The entries of a node seen from one side

Left and right are treated alike, by a side as a parameter. -/

namespace RbEntry

/-- The entry with the child `x` on the side `d` and the child `y` on the other side. -/
def sided (d : Side) (x : Option α) (wx : Bool) (y : Option α) (wy : Bool) (up : Option α) :
    RbEntry α :=
  match d with
  | .left => ⟨x, y, up, wx, wy⟩
  | .right => ⟨y, x, up, wy, wx⟩

section Sided

variable {d : Side} {x y p up : Option α} {wx wy b : Bool}

/-- The child of a sided link on the side `d`. -/
@[simp] theorem sided_child : (sided d x wx y wy up).child d = x := by
  cases d <;> rfl

/-- The child of a sided link on the other side. -/
@[simp] theorem sided_child_opp : (sided d x wx y wy up).child d.opp = y := by
  cases d <;> rfl

/-- The colour of the edge to the child on the side `d`. -/
@[simp] theorem sided_red : (sided d x wx y wy up).red d = wx := by
  cases d <;> rfl

/-- The colour of the edge to the other child. -/
@[simp] theorem sided_red_opp : (sided d x wx y wy up).red d.opp = wy := by
  cases d <;> rfl

/-- The parent of a sided link. -/
@[simp] theorem sided_parent : (sided d x wx y wy up).rbeParent = up := by
  cases d <;> rfl

/-- Setting the child on the side `d` replaces the first child only. -/
@[simp] theorem sided_setChild :
    (sided d x wx y wy up).setChild d p = sided d p wx y wy up := by
  cases d <;> rfl

/-- Setting the child on the other side replaces the second child only. -/
@[simp] theorem sided_setChild_opp :
    (sided d x wx y wy up).setChild d.opp p = sided d x wx p wy up := by
  cases d <;> rfl

/-- A flip on the side `d` changes the colour of the first edge only. -/
@[simp] theorem sided_flip : (sided d x wx y wy up).flip d = sided d x (!wx) y wy up := by
  cases d <;> rfl

/-- A flip on the other side changes the colour of the second edge only. -/
@[simp] theorem sided_flip_opp : (sided d x wx y wy up).flip d.opp = sided d x wx y (!wy) up := by
  cases d <;> rfl

/-- `fill` gives both edges the same colour and keeps the pointers. -/
@[simp] theorem sided_fill : (sided d x wx y wy up).fill b = sided d x b y b up := by
  cases d <;> rfl

/-- Setting the parent keeps both children and both colours. -/
@[simp] theorem sided_setParent : (sided d x wx y wy up).setParent p = sided d x wx y wy p := by
  cases d <;> rfl

/-- Seen from the other side, the two children and their colours change places. -/
theorem sided_opp : sided d.opp x wx y wy up = sided d y wy x wx up := by
  cases d <;> rfl

end Sided

end RbEntry

open RankTree.BitTree RbEntry

/-! ### Stores

A store changes one entry. -/

namespace RbTree

variable [DecidableEq α] {s : RbTree α} {a b out : α} {f : RbEntry α → RbEntry α} {p q : Option α}

/-- The changed record holds the changed link. -/
@[simp] theorem entry_modify_self : (s.modify a f).entry a = f (s.entry a) :=
  Function.update_self ..

/-- A change of one record is not seen in another. -/
theorem entry_modify_of_ne (h : b ≠ a) : (s.modify a f).entry b = s.entry b :=
  Function.update_of_ne h ..

/-- A change of a record does not move the root pointer. -/
@[simp] theorem rbhRoot_modify : (s.modify a f).rbhRoot = s.rbhRoot := rfl

/-- Setting the parent of a node that may be missing is not seen in another record. -/
theorem entry_setParent?_of_ne (h : some b ≠ q) : (s.setParent? q p).entry b = s.entry b := by
  cases q with
  | none => rfl
  | some a =>
      rw [setParent?]
      exact entry_modify_of_ne fun hba => h (congrArg some hba)

/-- Setting a parent does not move the root pointer. -/
@[simp] theorem rbhRoot_setParent? : (s.setParent? q p).rbhRoot = s.rbhRoot := by
  cases q <;> rfl

/-- `RB_SWAP_CHILD` writes to no record but the parent of the node it takes out. -/
theorem entry_rbSwapChild_of_ne (h : (s.entry out).rbeParent ≠ some b) :
    (s.rbSwapChild out p).entry b = s.entry b := by
  unfold rbSwapChild
  cases hup : (s.entry out).rbeParent with
  | none => rfl
  | some up =>
      have hne : b ≠ up := fun hbu => h (hbu ▸ hup)
      simp only
      split_ifs
      · exact entry_modify_of_ne hne
      · exact entry_modify_of_ne hne

end RbTree

/-! ### Trees and frames in memory

A position in the tree is a subtree and the path above it, and both are found in memory. -/

/-- The entries `e` are those of the tree, below the node `up`. -/
def Lays (e : α → RbEntry α) (up : Option α) : BitTree α → Prop
  | .nil => True
  | .node l wl a wr r => e a = ⟨l.root, r.root, up, wl, wr⟩ ∧ Lays e (some a) l ∧ Lays e (some a) r

/-- The entries `e` are those of the frames, with the pointer `p` in the hole and the pointer `top`
to the root. -/
def LaysFrames (e : α → RbEntry α) (top : Option α) : Option α → List (BitFrame α) → Prop
  | p, [] => top = p
  | p, f :: c =>
      e f.val = sided f.side p f.wide f.sib.root f.sibWide (up c) ∧
        Lays e (some f.val) f.sib ∧ LaysFrames e top (some f.val) c

/-- The tree `t` is in the hole of the frames `c`, with the parent pointer `q`. -/
structure AtUp (own : Set α) (e₀ : α → RbEntry α) (s : RbTree α) (q : Option α)
    (c : List (BitFrame α)) (t : BitTree α) : Prop where
  frames : LaysFrames s.entry s.rbhRoot t.root c
  lays : Lays s.entry q t
  nodup : (plug c t).toList.Nodup
  /-- The nodes are among those that may change. -/
  sub : ∀ a ∈ (plug c t).toList, a ∈ own
  /-- All others are as before. -/
  kept : ∀ a, a ∉ own → s.entry a = e₀ a

/-- The tree `t` is in the hole of the frames `c`. -/
abbrev At (own : Set α) (e₀ : α → RbEntry α) (s : RbTree α) (c : List (BitFrame α))
    (t : BitTree α) :
    Prop := AtUp own e₀ s (up c) c t

section Lays

variable {e e' : α → RbEntry α} {up' top : Option α} {d : Side} {x y t : BitTree α} {wx wy : Bool}
  {a : α} {p q : Option α} {c : List (BitFrame α)} {f : BitFrame α}

/-- A tree whose root has its children on the sides of `d` is laid out when the root's link is the
sided one and both subtrees are laid out below it. -/
theorem lays_mk : Lays e p (BitTree.mk d x wx a wy y) ↔
    e a = sided d x.root wx y.root wy p ∧ Lays e (some a) x ∧ Lays e (some a) y := by
  cases d with
  | left => rfl
  | right =>
      rw [BitTree.mk, Lays, and_comm (a := Lays e (some a) y)]
      rfl

/-- Only the entries of the elements matter. -/
theorem Lays.congr (h : Lays e p t) (he : ∀ b ∈ t.toList, e' b = e b) : Lays e' p t := by
  induction t generalizing p with
  | nil => trivial
  | node l wl b wr r ihl ihr =>
      obtain ⟨hb, hl, hr⟩ := h
      simp only [toList, List.mem_append, List.mem_cons] at he
      refine ⟨(he b (.inr (.inl rfl))).trans hb, ihl hl fun v hv => he v (.inl hv), ihr hr ?_⟩
      exact fun v hv => he v (.inr (.inr hv))

/-- The layout of a path depends on the links of the records on it only. -/
theorem LaysFrames.congr (h : LaysFrames e top p c)
    (he : ∀ b ∈ (plug c nil).toList, e' b = e b) : LaysFrames e' top p c := by
  induction c generalizing p with
  | nil => exact h
  | cons f c ih =>
      obtain ⟨hf, hs, hc⟩ := h
      -- the nodes of the innermost frame are nodes of the whole
      have hmem : ∀ b, b ∈ (f.plug nil).toList → b ∈ (plug (f :: c) nil).toList := fun b hb => by
        rw [plug_cons]
        exact mem_plug.mpr (.inr hb)
      refine ⟨(he _ (hmem _ ?_)).trans hf, hs.congr fun b hb => he b (hmem b ?_), ih hc ?_⟩
      · exact mem_toList_mk.mpr (.inl rfl)
      · exact mem_toList_mk.mpr (.inr (.inr hb))
      · intro b hb
        apply he b
        rw [plug_cons]
        exact mem_plug.mpr (.inl hb)

/-- The parent of a tree changes by one store, unless the tree is empty. -/
theorem Lays.reparent [DecidableEq α] {s : RbTree α} (h : Lays s.entry p t)
    (hnodup : t.toList.Nodup) : Lays (s.setParent? t.root q).entry q t := by
  rcases eq_nil_or_eq_mk .left t with rfl | ⟨x, wx, a, wy, y, rfl⟩
  · trivial
  · obtain ⟨ha, hx, hy⟩ := lays_mk.mp h
    obtain ⟨-, -, hax, hay, -⟩ := nodup_mk.mp hnodup
    rw [root_mk, RbTree.setParent?]
    refine lays_mk.mpr ⟨?_, hx.congr fun b hb => ?_, hy.congr fun b hb => ?_⟩
    · rw [RbTree.entry_modify_self, ha, sided_setParent]
    · exact RbTree.entry_modify_of_ne (ne_of_mem_of_not_mem hb hax)
    · exact RbTree.entry_modify_of_ne (ne_of_mem_of_not_mem hb hay)

/-- Store a pointer in the hole. -/
def RbTree.setHole [DecidableEq α] (s : RbTree α) (c : List (BitFrame α)) (p : Option α) :
    RbTree α :=
  match c with
  | [] => { s with rbhRoot := p }
  | f :: _ => s.modify f.val (·.setChild f.side p)

section SetHole

variable [DecidableEq α] {s : RbTree α} {out : α}

/-- The pointer into a hole is kept in the record above it, or is the root pointer. -/
theorem entry_setHole_of_ne {b : α} (h : up c ≠ some b) : (s.setHole c p).entry b = s.entry b := by
  cases c with
  | nil => rfl
  | cons f c =>
      rw [RbTree.setHole]
      exact RbTree.entry_modify_of_ne fun hbf => h (congrArg some hbf.symm)

/-- Storing another pointer into the hole leaves the path around it laid out, with that pointer in
it.
-/
theorem LaysFrames.setHole (h : LaysFrames s.entry s.rbhRoot q c)
    (hnodup : (plug c nil).toList.Nodup) :
    LaysFrames (s.setHole c p).entry (s.setHole c p).rbhRoot p c := by
  cases c with
  | nil => rfl
  | cons f c =>
      obtain ⟨hf, hs, hc⟩ := h
      rw [plug_cons, nodup_plug, BitFrame.plug, nodup_mk] at hnodup
      obtain ⟨-, ⟨-, -, -, hval, -⟩, hout⟩ := hnodup
      unfold RbTree.setHole
      refine ⟨?_, hs.congr fun b hb => ?_, hc.congr fun b hb => ?_⟩
      · rw [RbTree.entry_modify_self, hf, sided_setChild]
      · exact RbTree.entry_modify_of_ne (ne_of_mem_of_not_mem hb hval)
      · exact RbTree.entry_modify_of_ne fun hbf => hout f.val (mem_toList_mk.mpr (.inl rfl))
          (hbf ▸ hb)

/-- `RB_SWAP_CHILD` stores in the hole, which it finds by the pointer that is in there. -/
theorem LaysFrames.rbSwapChild_eq (h : LaysFrames s.entry s.rbhRoot (some out) c)
    (hup : (s.entry out).rbeParent = up c) (hnot : out ∉ (plug c nil).toList) :
    s.rbSwapChild out p = s.setHole c p := by
  rw [RbTree.rbSwapChild, hup]
  cases c with
  | nil => rfl
  | cons f c =>
      have hf := h.1
      rw [plug_cons, mem_plug, BitFrame.plug, mem_toList_mk] at hnot
      push Not at hnot
      simp only [up, List.head?_cons, Option.map_some, RbTree.setHole]
      -- the parent's left child is compared first; the node is the right one only if it is not the
      -- left one
      cases hside : f.side with
      | left => rw [if_pos (by rw [hf, hside]; rfl)]
      | right =>
          rw [if_neg]
          rw [hf, hside]
          intro hroot
          exact hnot.2.2.2 (root_mem hroot.symm)

end SetHole

end Lays

/-! ### The tree in a hole

The position can be moved up and down without a change in memory. -/

section At

variable {own : Set α} {e₀ : α → RbEntry α} {s : RbTree α} {c : List (BitFrame α)} {f : BitFrame α}
  {d : Side} {t x y z : BitTree α} {w₁ w₂ w₃ w₄ : Bool} {a b : α}

/-- The focus moves between a node and its child. -/
theorem at_cons : At own e₀ s (f :: c) t ↔ At own e₀ s c (f.plug t) := by
  constructor
  · rintro ⟨⟨hf, hs, hc⟩, ht, hnodup, hsub, hkept⟩
    refine ⟨?_, lays_mk.mpr ⟨hf, ht, hs⟩, hnodup, hsub, hkept⟩
    rwa [BitFrame.plug, root_mk]
  · rintro ⟨hframes, hlays, hnodup, hsub, hkept⟩
    obtain ⟨hf, ht, hs⟩ := lays_mk.mp hlays
    rw [BitFrame.plug, root_mk] at hframes
    exact ⟨⟨hf, hs, hframes⟩, ht, hnodup, hsub, hkept⟩

/-- The focus may be moved up over a part of the path, which then belongs to the tree in focus. -/
theorem at_append {c' : List (BitFrame α)} :
    At own e₀ s (c' ++ c) t ↔ At own e₀ s c (plug c' t) := by
  induction c' generalizing t with
  | nil => rfl
  | cons f c' ih => rw [List.cons_append, at_cons, ih, plug_cons]

/-- The focus moves to the root. -/
theorem at_plug : At own e₀ s [] (plug c t) ↔ At own e₀ s c t := by
  rw [← at_append, List.append_nil]

/-- The entry of the node in focus. -/
theorem At.entry (h : At own e₀ s c (BitTree.mk d x w₁ a w₂ y)) :
    s.entry a = sided d x.root w₁ y.root w₂ (up c) := (lays_mk.mp h.lays).1

/-- The entry of the node above. -/
theorem At.entry_up (h : At own e₀ s (f :: c) t) :
    s.entry f.val = sided f.side t.root f.wide f.sib.root f.sibWide (up c) := h.frames.1

/-- The node above has the tree in focus on one side only. -/
theorem At.root_ne_sib (h : At own e₀ s (f :: c) t) (ht : t.root = some a) :
    f.sib.root ≠ some a := by
  intro hsib
  have hnodup := h.nodup
  rw [plug_cons, nodup_plug, BitFrame.plug, nodup_mk] at hnodup
  exact hnodup.2.1.2.2.2.2 a (root_mem ht) (root_mem hsib)

variable [DecidableEq α]

/-- The bits of the node in focus change. -/
theorem At.modify (h : At own e₀ s c (BitTree.mk d x w₁ a w₂ y)) {g : RbEntry α → RbEntry α}
    (hg : g (sided d x.root w₁ y.root w₂ (up c)) = sided d x.root w₃ y.root w₄ (up c)) :
    At own e₀ (s.modify a g) c (BitTree.mk d x w₃ a w₄ y) := by
  obtain ⟨ha, hx, hy⟩ := lays_mk.mp h.lays
  have hnodup := h.nodup
  rw [nodup_plug, nodup_mk] at hnodup
  obtain ⟨hc, ⟨hnx, hny, hax, hay, hxy⟩, hout⟩ := hnodup
  -- the node is neither in the context nor in its subtrees
  have hac : a ∉ (plug c nil).toList := hout a (mem_toList_mk.mpr (.inl rfl))
  have hmem : ∀ v, v ∈ (plug c (BitTree.mk d x w₃ a w₄ y)).toList →
      v ∈ (plug c (BitTree.mk d x w₁ a w₂ y)).toList := by
    intro v hv
    rw [mem_plug, mem_toList_mk] at hv ⊢
    exact hv
  refine ⟨?_, lays_mk.mpr ⟨?_, hx.congr fun v hv => ?_, hy.congr fun v hv => ?_⟩, ?_,
    fun v hv => h.sub v (hmem v hv), fun v hv => ?_⟩
  · have := h.frames
    rw [root_mk] at this ⊢
    exact this.congr fun v hv => RbTree.entry_modify_of_ne (ne_of_mem_of_not_mem hv hac)
  · rw [RbTree.entry_modify_self, ha, hg]
  · exact RbTree.entry_modify_of_ne (ne_of_mem_of_not_mem hv hax)
  · exact RbTree.entry_modify_of_ne (ne_of_mem_of_not_mem hv hay)
  · rw [nodup_plug, nodup_mk]
    exact ⟨hc, ⟨hnx, hny, hax, hay, hxy⟩, fun v hv => hout v (by rwa [mem_toList_mk] at hv ⊢)⟩
  · rw [RbTree.entry_modify_of_ne, h.kept v hv]
    rintro rfl
    exact hv (h.sub v (mem_plug.mpr (.inr (mem_toList_mk.mpr (.inl rfl)))))

/-- A flip of the colour on the side `d` in memory is one in the tree in focus. -/
theorem At.flip (h : At own e₀ s c (BitTree.mk d x w₁ a w₂ y)) :
    At own e₀ (s.modify a (·.flip d)) c (BitTree.mk d x (!w₁) a w₂ y) :=
  h.modify (g := (·.flip d)) sided_flip

/-- The same on the other side. -/
theorem At.flip_opp (h : At own e₀ s c (BitTree.mk d x w₁ a w₂ y)) :
    At own e₀ (s.modify a (·.flip d.opp)) c (BitTree.mk d x w₁ a (!w₂) y) :=
  h.modify (g := (·.flip d.opp)) sided_flip_opp

/-- Colouring both edges of the node in focus is one step of the memory as well. -/
theorem At.fill (h : At own e₀ s c (BitTree.mk d x w₁ a w₂ y)) (b : Bool) :
    At own e₀ (s.modify a (·.fill b)) c (BitTree.mk d x b a b y) :=
  h.modify (g := (·.fill b)) sided_fill

/-- A rotation. -/
theorem At.rotate (h : At own e₀ s c (BitTree.mk d x w₁ a w₂ (BitTree.mk d y w₃ b w₄ z))) :
    ∃ s', s.rbRotate d a = some (b, s') ∧
      At own e₀ s' c (BitTree.mk d (BitTree.mk d x w₁ a w₂ y) w₃ b w₄ z) := by
  obtain ⟨ha, hx, hb⟩ := lays_mk.mp h.lays
  obtain ⟨hb, hy, hz⟩ := lays_mk.mp hb
  have hframes := h.frames
  rw [root_mk] at ha hframes
  have hnodup := h.nodup
  rw [nodup_plug, nodup_mk, nodup_mk] at hnodup
  simp only [mem_toList_mk] at hnodup
  obtain ⟨hnc, ⟨hnx, ⟨hny, hnz, hby, hbz, hyz⟩, hax, hab, hxb⟩, hout⟩ := hnodup
  push Not at hab
  obtain ⟨hab, hay, haz⟩ := hab
  have hac := hout a (.inl rfl)
  have hbc := hout b (.inr (.inr (.inl rfl)))
  have hup : ∀ v, v ∈ x.toList ∨ v = b ∨ v = a ∨ v ∈ y.toList ∨ v ∈ z.toList → up c ≠ some v := by
    intro v hv hupv
    refine hout v ?_ (up_mem hupv)
    tauto
  -- the states between the stores
  let s₁ := s.modify a (·.setChild d.opp ((s.entry b).child d))
  let s₂ := s₁.setParent? ((s₁.entry a).child d.opp) (some a)
  let s₃ := s₂.modify b (·.setParent (s₂.entry a).rbeParent)
  let s₄ := s₃.rbSwapChild a (some b)
  let s₅ := s₄.modify b (·.setChild d (some a))
  let s₆ := s₅.modify a (·.setParent (some b))
  have ha₁ : s₁.entry a = sided d x.root w₁ y.root w₂ (up c) := by
    rw [RbTree.entry_modify_self, ha, hb, sided_child, sided_setChild_opp]
  have hs₂ : s₂ = s₁.setParent? y.root (some a) := by
    simp only [s₂, ha₁, sided_child_opp]
  have hne_root : ∀ v, v ∉ y.toList → some v ≠ y.root := fun v hv hroot => hv (root_mem hroot.symm)
  have ha₂ : s₂.entry a = sided d x.root w₁ y.root w₂ (up c) := by
    rw [hs₂, RbTree.entry_setParent?_of_ne (hne_root a hay), ha₁]
  have hb₂ : s₂.entry b = sided d y.root w₃ z.root w₄ (some a) := by
    rw [hs₂, RbTree.entry_setParent?_of_ne (hne_root b hby), RbTree.entry_modify_of_ne hab.symm, hb]
  have ha₃ : s₃.entry a = sided d x.root w₁ y.root w₂ (up c) := by
    rw [RbTree.entry_modify_of_ne hab, ha₂]
  have hb₃ : s₃.entry b = sided d y.root w₃ z.root w₄ (up c) := by
    rw [RbTree.entry_modify_self, hb₂, ha₂, sided_parent, sided_setParent]
  have hup₃ : (s₃.entry a).rbeParent = up c := by rw [ha₃, sided_parent]
  have ha₄ : s₄.entry a = sided d x.root w₁ y.root w₂ (up c) := by
    rw [RbTree.entry_rbSwapChild_of_ne (by rw [hup₃]; exact hup a (by tauto)), ha₃]
  have hb₄ : s₄.entry b = sided d y.root w₃ z.root w₄ (up c) := by
    rw [RbTree.entry_rbSwapChild_of_ne (by rw [hup₃]; exact hup b (by tauto)), hb₃]
  -- what the stores leave alone
  have h₃ : ∀ v, v ≠ a → v ≠ b → some v ≠ y.root → s₃.entry v = s.entry v := by
    intro v hva hvb hvy
    rw [RbTree.entry_modify_of_ne hvb, hs₂, RbTree.entry_setParent?_of_ne hvy,
      RbTree.entry_modify_of_ne hva]
  have h₆ : ∀ v, v ≠ a → v ≠ b → up c ≠ some v → s₆.entry v = s₃.entry v := by
    intro v hva hvb hvc
    rw [RbTree.entry_modify_of_ne hva, RbTree.entry_modify_of_ne hvb,
      RbTree.entry_rbSwapChild_of_ne (by rwa [hup₃])]
  have hrest : ∀ v, v ≠ a → v ≠ b → v ∉ y.toList → up c ≠ some v → s₆.entry v = s.entry v :=
    fun v hva hvb hvy hvc => (h₆ v hva hvb hvc).trans (h₃ v hva hvb (hne_root v hvy))
  have hframes₃ : LaysFrames s₃.entry s₃.rbhRoot (some a) c := by
    have hroot : s₃.rbhRoot = s.rbhRoot := by
      rw [RbTree.rbhRoot_modify, RbTree.rbhRoot_setParent?, RbTree.rbhRoot_modify]
    rw [hroot]
    refine hframes.congr fun v hv => h₃ v ?_ ?_ (hne_root v fun hvy => ?_)
    · exact ne_of_mem_of_not_mem hv hac
    · exact ne_of_mem_of_not_mem hv hbc
    · exact hout v (by tauto) hv
  have hs₄ : s₄ = s₃.setHole c (some b) := hframes₃.rbSwapChild_eq hup₃ hac
  have hframes₄ : LaysFrames s₄.entry s₄.rbhRoot (some b) c := by
    rw [hs₄]
    exact hframes₃.setHole hnc
  have hy₂ : Lays s₂.entry (some a) y := by
    rw [hs₂]
    exact (hy.congr fun v hv => RbTree.entry_modify_of_ne (ne_of_mem_of_not_mem hv hay)).reparent
      hny
  refine ⟨s₆, ?_, ?_, ?_, ?_, ?_, ?_⟩
  · rw [RbTree.rbRotate, ha, sided_child_opp]
    rfl
  · rw [root_mk]
    apply hframes₄.congr
    intro v hv
    rw [RbTree.entry_modify_of_ne (ne_of_mem_of_not_mem hv hac),
      RbTree.entry_modify_of_ne (ne_of_mem_of_not_mem hv hbc)]
  · refine lays_mk.mpr ⟨?_, lays_mk.mpr ⟨?_, hx.congr fun v hv => ?_, hy₂.congr fun v hv => ?_⟩,
      hz.congr fun v hv => ?_⟩
    · rw [RbTree.entry_modify_of_ne hab.symm, RbTree.entry_modify_self, hb₄, sided_setChild,
        root_mk]
    · rw [RbTree.entry_modify_self, RbTree.entry_modify_of_ne hab, ha₄, sided_setParent]
    · refine hrest v (ne_of_mem_of_not_mem hv hax) ?_ ?_ (hup v (by tauto))
      · exact fun hvb => hxb v hv (.inl hvb)
      · exact fun hvy => hxb v hv (.inr (.inl hvy))
    · have hva := ne_of_mem_of_not_mem hv hay
      have hvb := ne_of_mem_of_not_mem hv hby
      rw [h₆ v hva hvb (hup v (by tauto)), RbTree.entry_modify_of_ne hvb]
    · refine hrest v (ne_of_mem_of_not_mem hv haz)
        (ne_of_mem_of_not_mem hv hbz) ?_ (hup v (by tauto))
      exact fun hvy => hyz v hvy hv
  · have hperm := h.nodup
    rw [toList_plug] at hperm ⊢
    rwa [← toList_rotate]
  · intro v hv
    apply h.sub v
    rw [mem_plug] at hv ⊢
    simp only [mem_toList_mk] at hv ⊢
    tauto
  · intro v hv
    have hin : ∀ u, u ∈ (plug c nil).toList ∨
      u ∈ (BitTree.mk d x w₁ a w₂ (BitTree.mk d y w₃ b w₄ z)).toList →
        v ≠ u := by
      rintro u hu rfl
      exact hv (h.sub v (mem_plug.mpr hu))
    simp only [mem_toList_mk] at hin
    rw [hrest v (hin a (by tauto)) (hin b (by tauto)) (fun hvy => hin v (by tauto) rfl) ?_,
      h.kept v hv]
    exact fun hupv => hin v (.inl (up_mem hupv)) rfl

/-- A node with one child is taken out. -/
theorem At.cut (h : At own e₀ s c (BitTree.mk d nil w₁ a w₂ y)) :
    AtUp own e₀ (s.setHole c y.root) (some a) c y := by
  have hnodup := h.nodup
  rw [nodup_plug, nodup_mk] at hnodup
  obtain ⟨hc, ⟨-, hy, -, hay, -⟩, hout⟩ := hnodup
  have hyc : ∀ v ∈ y.toList, v ∉ (plug c nil).toList := fun v hv =>
    hout v (mem_toList_mk.mpr (.inr (.inr hv)))
  have hsub : ∀ v ∈ (plug c y).toList, v ∈ (plug c (BitTree.mk d nil w₁ a w₂ y)).toList := by
    intro v hv
    rw [mem_plug] at hv ⊢
    exact hv.imp_right fun hv => mem_toList_mk.mpr (.inr (.inr hv))
  refine ⟨h.frames.setHole hc, (lays_mk.mp h.lays).2.2.congr fun v hv => ?_,
    nodup_plug.mpr ⟨hc, hy, hyc⟩, fun v hv => h.sub v (hsub v hv), fun v hv => ?_⟩
  · exact entry_setHole_of_ne fun hup => hyc v hv (up_mem hup)
  · rw [entry_setHole_of_ne fun hup => hv (h.sub v (mem_plug.mpr (.inl (up_mem hup)))), h.kept v hv]

/-- The pointer to the parent is set right. -/
theorem AtUp.reparent {q : Option α} (h : AtUp own e₀ s q c t) :
    At own e₀ (s.setParent? t.root (up c)) c t := by
  obtain ⟨hc, ht, hout⟩ := nodup_plug.mp h.nodup
  refine ⟨?_, h.lays.reparent ht, h.nodup, h.sub, fun v hv => ?_⟩
  · rw [RbTree.rbhRoot_setParent?]
    refine h.frames.congr fun v hv => RbTree.entry_setParent?_of_ne fun hroot => ?_
    exact hout v (root_mem hroot.symm) hv
  · rw [RbTree.entry_setParent?_of_ne, h.kept v hv]
    exact fun hroot => hv (h.sub v (mem_plug.mpr (.inr (root_mem hroot.symm))))

end At

end Koharu
