import Koharu.User.TreeSearch

/-!
# What a tree holds

`RbTree.Holds s l`: the pointers from the root on are a balanced tree with the elements `l`, in this
order. Every operation is described by what it does to this list. `rbBound n` steps are enough for
each of its loops where the tree has `n` elements, and the entries of nodes that are not in the tree
stay as they are.
-/

namespace Koharu

open RankTree RankTree.BitTree RbEntry

variable {α : Type*}

/-- The tree has the elements `l`, in this order, and is balanced. -/
def RbTree.Holds (s : RbTree α) (l : List α) : Prop :=
  ∃ t, At {a | a ∈ l} s.entry s [] t ∧ t.Balanced ∧ t.toList = l

/-- A bound on the steps of a loop in a tree of `n` elements. -/
def rbBound (n : ℕ) : ℕ := 2 * Nat.log 2 (n + 1) + 1

/-- More nodes may need more fuel. -/
theorem rbBound_mono {m n : ℕ} (h : m ≤ n) : rbBound m ≤ rbBound n := by
  unfold rbBound
  have hlog : Nat.log 2 (m + 1) ≤ Nat.log 2 (n + 1) := Nat.log_mono_right (Nat.succ_le_succ h)
  omega

section Holds

variable {own own' : Set α} {e₀ : α → RbEntry α} {s : RbTree α} {c : List (BitFrame α)}
  {t : BitTree α} {l l₁ l₂ : List α} {a b elm : α} {fuel : ℕ}

/-- A focus with its records stays one among more records. -/
theorem AtUp.mono {q : Option α} (h : AtUp own e₀ s q c t) (hle : ∀ a ∈ own, a ∈ own') :
    AtUp own' e₀ s q c t :=
  ⟨h.frames, h.lays, h.nodup, fun a ha => hle a (h.sub a ha),
    fun a ha => h.kept a fun hown => ha (hle a hown)⟩

/-- A balanced tree in focus at the root is held by memory. -/
theorem At.holds (h : At own e₀ s [] t) (hbal : t.Balanced) : s.Holds t.toList :=
  ⟨t, ⟨h.frames, h.lays, h.nodup, fun _ ha => ha, fun _ _ => rfl⟩, hbal, rfl⟩

/-- `RB_INIT` holds the empty list. -/
theorem holds_init (e : α → RbEntry α) : RbTree.Holds ⟨none, e⟩ [] :=
  ⟨nil, ⟨rfl, trivial, List.nodup_nil, fun _ ha => ha, fun _ _ => rfl⟩, trivial, rfl⟩

/-- No record is in the tree twice. -/
theorem RbTree.Holds.nodup (h : s.Holds l) : l.Nodup := by
  obtain ⟨t, hat, -, rfl⟩ := h
  exact hat.nodup

/-- The fuel is more than the rank of the tree. -/
theorem rank_lt_of_bound (hbal : t.Balanced) (hfuel : rbBound t.toList.length ≤ fuel) :
    t.rank < fuel :=
  lt_of_lt_of_le (Nat.lt_succ_of_le (rank_le_log hbal)) hfuel

/-- The node of an element. -/
theorem exists_plug (h : a ∈ t.toList) : ∃ c l w w' r, plug c (node l w a w' r) = t := by
  induction t with
  | nil => cases h
  | node l w b w' r ihl ihr =>
      rcases List.mem_append.mp h with h | h
      · obtain ⟨c, l', u, u', r', rfl⟩ := ihl h
        exact ⟨c ++ [⟨.left, w, b, w', r⟩], l', u, u', r', plug_append⟩
      · rcases List.mem_cons.mp h with rfl | h
        · exact ⟨[], l, w, w', r, rfl⟩
        · obtain ⟨c, l', u, u', r', rfl⟩ := ihr h
          exact ⟨c ++ [⟨.right, w', b, w, l⟩], l', u, u', r', plug_append⟩

/-- The nodes of a tree around one of them. -/
theorem toList_plug_node {l r : BitTree α} {w w' : Bool} :
    (plug c (node l w a w' r)).toList = (before c ++ l.toList) ++ a :: (r.toList ++ behind c) := by
  simp [toList_plug, toList]

section Search

variable {K : Type*} {cmp : K → α → ℤ} {key : K}

/-- `RB_FIND` gives the first record that compares equal. -/
theorem RbTree.Holds.rbFind (h : s.Holds l) (hfuel : rbBound l.length ≤ fuel)
    (hsorted : l.Pairwise fun a b => cmp key a ≤ 0 → cmp key b < 0) :
    s.rbFind cmp fuel key = some (l.find? fun a => cmp key a = 0) := by
  obtain ⟨t, hat, hbal, rfl⟩ := h
  exact hat.rbFind ((height_le_rank hbal).trans_lt (rank_lt_of_bound hbal hfuel)) hsorted

/-- `RB_NFIND` gives the first record that does not compare less. -/
theorem RbTree.Holds.rbNfind (h : s.Holds l) (hfuel : rbBound l.length ≤ fuel)
    (hsorted : l.Pairwise fun a b => cmp key a ≤ 0 → cmp key b < 0) :
    s.rbNfind cmp fuel key = some (l.find? fun a => cmp key a ≤ 0) := by
  obtain ⟨t, hat, hbal, rfl⟩ := h
  exact hat.rbNfind ((height_le_rank hbal).trans_lt (rank_lt_of_bound hbal hfuel)) hsorted

/-- `RB_MINMAX` gives the first or the last record. -/
theorem RbTree.Holds.rbMinmax (h : s.Holds l) (hfuel : rbBound l.length ≤ fuel) (val : ℤ) :
    s.rbMinmax fuel val = some (if val < 0 then l.head? else l.getLast?) := by
  obtain ⟨t, hat, hbal, rfl⟩ := h
  exact hat.rbMinmax ((height_le_rank hbal).trans_lt (rank_lt_of_bound hbal hfuel))

end Search

/-- The two parts of a list around an element. -/
theorem parts_eq {l₁' l₂' : List α} (hnodup : (l₁ ++ a :: l₂).Nodup)
    (h : l₁ ++ a :: l₂ = l₁' ++ a :: l₂') : l₁ = l₁' ∧ l₂ = l₂' := by
  have hnot : a ∉ l₁ := fun ha => (List.nodup_append.mp hnodup).2.2 a ha a List.mem_cons_self rfl
  have hnot₂ : a ∉ l₂ := (List.nodup_cons.mp (List.nodup_append.mp hnodup).2.1).1
  obtain ⟨h₁, -, h₂⟩ := (List.append_cons_inj_of_notMem hnot hnot₂).mp h
  exact ⟨h₁, h₂⟩

variable [DecidableEq α]

/-- The neighbours of a node, in its list of elements. -/
theorem RbTree.Holds.rbStep (h : s.Holds (l₁ ++ a :: l₂))
    (hfuel : rbBound (l₁ ++ a :: l₂).length ≤ fuel) :
    s.rbNext fuel a = some l₂.head? ∧ s.rbPrev fuel a = some l₁.getLast? := by
  obtain ⟨t, hat, hbal, ht⟩ := h
  rw [← ht] at hfuel
  have hrank := rank_lt_of_bound hbal hfuel
  -- the tree seen from the node, with `l₁` on its left and `l₂` on its right
  obtain ⟨c, l, w, w', r, rfl⟩ := exists_plug (t := t) (a := a) (by simp [ht])
  have hnodup := hat.nodup
  rw [plug_nil, ht] at hnodup
  rw [toList_plug_node] at ht
  obtain ⟨rfl, rfl⟩ := parts_eq hnodup ht.symm
  have hnode := at_plug.mp hat
  have hsum := length_add_le_rank (balanced_plug.mp hbal).2 (balanced_plug.mp hbal).1
  have hheight := height_le_rank (balanced_plug.mp hbal).2
  constructor
  · exact At.rbStep (d := .right) (x := r)
      (y := l) hnode (by change (node l w a w' r).height + _ < _; omega)
  · rw [RbTree.rbPrev, At.rbStep (d := .left) (x := l) (y := r) hnode
      (by change (node l w a w' r).height + _ < _; omega)]
    rw [Side.opp, listFrom, beyond, ← List.reverse_append, List.head?_reverse]

/-- `RB_INSERT` puts the node where it belongs, unless the key is in the tree. -/
theorem RbTree.Holds.rbInsert (cmp : α → α → ℤ) (h : s.Holds l)
    (hfuel : rbBound l.length ≤ fuel) (hnot : elm ∉ l)
    (hsorted : l.Pairwise fun a b => cmp elm a ≤ 0 → cmp elm b < 0) :
    (∃ a ∈ l, cmp elm a = 0 ∧ s.rbInsert cmp fuel elm = some (some a, s)) ∨
    (∀ a ∈ l, cmp elm a ≠ 0) ∧ ∃ s', s.rbInsert cmp fuel elm = some (none, s') ∧
      s'.Holds (l.takeWhile (fun a => 0 < cmp elm a) ++
        elm :: l.dropWhile fun a => 0 < cmp elm a) ∧
        ∀ b, b ∉ l → b ≠ elm → s'.entry b = s.entry b := by
  obtain ⟨t, hat, hbal, rfl⟩ := h
  -- the tree may now also use the new node
  have hat' : At {a | a = elm ∨ a ∈ t.toList} s.entry s [] t := hat.mono fun _ ha => .inr ha
  have hrank := rank_lt_of_bound hbal hfuel
  rcases hat'.rbInsert hbal hsorted hnot (.inl rfl) hrank with
    hfound | ⟨hne, s', t', hs', hat', hbal', ht'⟩
  · exact .inl hfound
  · refine .inr ⟨hne, s', hs', ht' ▸ hat'.holds hbal', fun b hb hbe => hat'.kept b ?_⟩
    rintro (rfl | hb')
    · exact hbe rfl
    · exact hb hb'

/-- `RB_REMOVE` takes the node out. -/
theorem RbTree.Holds.rbRemove (h : s.Holds l) (hfuel : rbBound l.length ≤ fuel) (ha : a ∈ l) :
    ∃ s', s.rbRemove fuel a = some s' ∧ s'.Holds (l.erase a) ∧ ∀ b, b ∉ l →
      s'.entry b = s.entry b := by
  obtain ⟨t, hat, hbal, rfl⟩ := h
  have hrank := rank_lt_of_bound hbal hfuel
  obtain ⟨c, l, w, w', r, rfl⟩ := exists_plug ha
  obtain ⟨s', hs', hat'⟩ := (at_plug.mp hat).rbRemove hbal hrank.le
  refine ⟨s', hs', ?_, fun b hb => hat'.kept b hb⟩
  have hnodup := hat.nodup
  -- without duplicates the list loses the one place where `a` was
  have herase : (plug c (node l w a w' r)).toList.erase a =
    (removeAt c (node l w a w' r)).toList := by
    rw [plug_nil, toList_plug_node] at hnodup
    rw [toList_plug_node, toList_removeAt, List.erase_append_right _ fun h => ?_,
      List.erase_cons_head]
    · simp
    · exact (List.nodup_append.mp hnodup).2.2 a h a List.mem_cons_self rfl
  rw [herase]
  exact hat'.holds (balanced_removeAt hbal)

end Holds

end Koharu
