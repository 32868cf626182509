import Koharu.Lib.Calls
import Koharu.User.TreeHolds
import Mathlib.Data.Fin.VecNotation
import Mathlib.Data.Fintype.Card
import Mathlib.Data.List.Sort

/-!
# Programs that use a tree

`RbMap` is what a program sees of a tree: its elements in order, and the keys that the nodes have in
memory, whether they are in the tree or not. `RbProgram` is the tree itself. The latter refines the
former (`rbProgram_refines`), so that no sequence of calls can tell them apart.

The relation between the two is that the tree is laid out in memory with some balanced shape, and
that its elements, from left to right, are those of the list. The shape is not seen from outside.
What is to be shown of a call is that the loops end within the number of iterations that `RB_` calls
are given, that the result is that of the list, and that the relation holds again.
-/

namespace Koharu

variable {α κ : Type*} [DecidableEq α] [LinearOrder κ]

/-- The calls of a program. -/
inductive RbCall (α κ : Type*)
  /-- Give a node that is not in the tree a key. -/
  | setKey (a : α) (k : κ)
  | insert (a : α)
  | remove (a : α)
  /-- Give a node of the tree another key, and reinsert it. -/
  | reinsert (a : α) (k : κ)
  | find (k : κ)
  | nfind (k : κ)
  | next (a : α)
  | prev (a : α)
  | minmax (val : ℤ)

/-- The elements of a tree in order, and the keys of all nodes. -/
@[ext]
structure RbMap (α κ : Type*) where
  elems : List α
  key : α → κ

namespace RbMap

/-- Put a node where it belongs, unless there is one with its key. -/
def insert (m : RbMap α κ) (a : α) : Option α × RbMap α κ :=
  match m.elems.find? fun b => m.key b = m.key a with
  | some b => (some b, m)
  | none => (none, { m with elems := m.elems.orderedInsert (fun b c => m.key b ≤ m.key c) a })

/-- A node that is in the tree is not inserted, and one that is not there is not removed and has no
neighbours. -/
def call (m : RbMap α κ) : RbCall α κ → Option (Option α × RbMap α κ)
  | .setKey a k =>
      if a ∈ m.elems then none else some (none, { m with key := Function.update m.key a k })
  | .insert a => if a ∈ m.elems then none else some (m.insert a)
  | .remove a => if a ∈ m.elems then some (some a, { m with elems := m.elems.erase a }) else none
  | .reinsert a k =>
      if a ∈ m.elems then some (insert ⟨m.elems.erase a, Function.update m.key a k⟩ a) else none
  | .find k => some (m.elems.find? fun b => m.key b = k, m)
  | .nfind k => some (m.elems.find? fun b => k ≤ m.key b, m)
  | .next a =>
      if a ∈ m.elems then some ((m.elems.dropWhile (· ≠ a)).tail.head?, m) else none
  | .prev a => if a ∈ m.elems then some ((m.elems.takeWhile (· ≠ a)).getLast?, m) else none
  | .minmax val => some (if val < 0 then m.elems.head? else m.elems.getLast?, m)

end RbMap

/-- A tree, and the keys of the nodes. -/
structure RbProgram (α κ : Type*) where
  tree : RbTree α
  key : α → κ

/-- The calls, where `cmp` compares two keys. -/
def RbProgram.call (cmp : κ → κ → ℤ) (fuel : ℕ) (p : RbProgram α κ) :
    RbCall α κ → Option (Option α × RbProgram α κ)
  | .setKey a k => some (none, { p with key := Function.update p.key a k })
  | .insert a =>
      (p.tree.rbInsert (fun b c => cmp (p.key b) (p.key c)) fuel a).map fun q =>
        (q.1, { p with tree := q.2 })
  | .remove a => (p.tree.rbRemove fuel a).map fun t => (some a, { p with tree := t })
  | .reinsert a k =>
      let key := Function.update p.key a k
      (p.tree.rbReinsert (fun b c => cmp (key b) (key c)) fuel a).map fun q => (q.1, ⟨q.2, key⟩)
  | .find k => (p.tree.rbFind (fun k b => cmp k (p.key b)) fuel k).map fun r => (r, p)
  | .nfind k => (p.tree.rbNfind (fun k b => cmp k (p.key b)) fuel k).map fun r => (r, p)
  | .next a => (p.tree.rbNext fuel a).map fun r => (r, p)
  | .prev a => (p.tree.rbPrev fuel a).map fun r => (r, p)
  | .minmax val => (p.tree.rbMinmax fuel val).map fun r => (r, p)

/-- `cmp` compares as the order does. -/
structure IsCmp (cmp : κ → κ → ℤ) : Prop where
  neg : ∀ k k', cmp k k' < 0 ↔ k < k'
  pos : ∀ k k', 0 < cmp k k' ↔ k' < k

/-- The tree has the elements of the map, whose keys grow. -/
structure RbRel (m : RbMap α κ) (p : RbProgram α κ) : Prop where
  holds : p.tree.Holds m.elems
  key_eq : p.key = m.key
  sorted : m.elems.Pairwise fun a b => m.key a < m.key b

section Refines

variable [Fintype α] {cmp : κ → κ → ℤ} {m m' : RbMap α κ} {p : RbProgram α κ} {fuel : ℕ}
  {a : α} {k : κ} {r : Option α}

/-- Keys compare equal when they are. -/
theorem IsCmp.eq_zero (h : IsCmp cmp) (k k' : κ) : cmp k k' = 0 ↔ k = k' := by
  have hn := h.neg k k'
  have hp := h.pos k k'
  constructor
  · intro h0
    rw [h0] at hn hp
    exact le_antisymm (not_lt.mp fun hlt => lt_irrefl _ (hp.mpr hlt))
      (not_lt.mp fun hlt => lt_irrefl _ (hn.mpr hlt))
  · rintro rfl
    exact le_antisymm (not_lt.mp fun hlt => lt_irrefl _ (hp.mp hlt))
      (not_lt.mp fun hlt => lt_irrefl _ (hn.mp hlt))

/-- They compare less or equal when they are. -/
theorem IsCmp.le_zero (h : IsCmp cmp) (k k' : κ) : cmp k k' ≤ 0 ↔ k ≤ k' := by
  rw [← not_lt, h.pos, not_lt]

omit [DecidableEq α] [Fintype α] in
/-- The comparison with a key sweeps over sorted elements. -/
theorem IsCmp.pairwise (h : IsCmp cmp) {key : α → κ} {l : List α}
    (hsorted : l.Pairwise fun a b => key a < key b) (k : κ) :
    l.Pairwise fun a b => cmp k (key a) ≤ 0 → cmp k (key b) < 0 :=
  hsorted.imp fun hab hle => (h.neg _ _).mpr (((h.le_zero _ _).mp hle).trans_lt hab)

omit [DecidableEq α] in
/-- The fuel for all nodes is enough for the tree. -/
theorem RbTree.Holds.bound {s : RbTree α} {l : List α} (h : s.Holds l)
    (hfuel : rbBound (Fintype.card α) ≤ fuel) : rbBound l.length ≤ fuel :=
  (rbBound_mono h.nodup.length_le_card).trans hfuel

omit [DecidableEq α] [Fintype α] in
/-- Elements of a sorted list with one key are the same. -/
theorem eq_of_key_eq {key : α → κ} {l : List α} (hsorted : l.Pairwise fun a b => key a < key b)
    {b c : α} (hb : b ∈ l) (hc : c ∈ l) (h : key b = key c) : b = c := by
  have hnodup : (l.map key).Nodup := List.pairwise_map.mpr (hsorted.imp fun hab => ne_of_lt hab)
  exact List.inj_on_of_nodup_map hnodup hb hc h

omit [DecidableEq α] [Fintype α] in
/-- A new key in its place keeps the list sorted. -/
theorem pairwise_orderedInsert {key : α → κ} {l : List α}
    (hsorted : l.Pairwise fun a b => key a < key b) (hne : ∀ b ∈ l, key b ≠ key a) :
    (l.orderedInsert (fun b c => key b ≤ key c) a).Pairwise fun b c => key b < key c := by
  induction l with
  | nil => simp
  | cons b l ih =>
      obtain ⟨hb, hl⟩ := List.pairwise_cons.mp hsorted
      rw [List.orderedInsert_cons]
      -- before the first larger key, or further down
      split_ifs with hle
      · have hlt : key a < key b := lt_of_le_of_ne hle (hne b List.mem_cons_self).symm
        refine List.pairwise_cons.mpr ⟨fun c hc => ?_, hsorted⟩
        rcases List.mem_cons.mp hc with rfl | hc
        · exact hlt
        · exact hlt.trans (hb c hc)
      · refine List.pairwise_cons.mpr ⟨fun c hc => ?_,
          ih hl fun c hc => hne c (List.mem_cons_of_mem b hc)⟩
        rcases (List.mem_orderedInsert _).mp hc with rfl | hc
        · exact not_le.mp hle
        · exact hb c hc

/-- `RB_INSERT` of a node that is not in the tree. -/
theorem RbRel.insert (h : RbRel m p) (hcmp : IsCmp cmp) (hfuel : rbBound (Fintype.card α) ≤ fuel)
    (ha : a ∉ m.elems) :
    ∃ t, p.tree.rbInsert (fun b c => cmp (p.key b) (p.key c)) fuel a = some ((m.insert a).1, t) ∧
      RbRel (m.insert a).2 ⟨t, m.key⟩ := by
  rw [h.key_eq, RbMap.insert]
  rcases h.holds.rbInsert (fun b c => cmp (m.key b) (m.key c)) (h.holds.bound hfuel) ha
    (hcmp.pairwise h.sorted (m.key a)) with ⟨b, hb, hzero, hins⟩ | ⟨hne, t, hins, hholds, -⟩
  · -- the key is in the tree
    rw [hcmp.eq_zero] at hzero
    have hfind : m.elems.find? (fun b => m.key b = m.key a) = some b := by
      cases hc : m.elems.find? fun b => m.key b = m.key a with
      | none =>
          have := List.find?_eq_none.mp hc b hb
          rw [decide_eq_true_iff] at this
          exact absurd hzero.symm this
      | some c =>
          have hck := List.find?_some hc
          rw [decide_eq_true_iff, hzero] at hck
          rw [eq_of_key_eq h.sorted (List.mem_of_find?_eq_some hc) hb hck]
    rw [hfind]
    exact ⟨p.tree, hins, ⟨h.holds, rfl, h.sorted⟩⟩
  · have hne' : ∀ b ∈ m.elems, m.key b ≠ m.key a := fun b hb heq =>
      hne b hb ((hcmp.eq_zero _ _).mpr heq.symm)
    have hfind : m.elems.find? (fun b => m.key b = m.key a) = none := by
      rw [List.find?_eq_none]
      exact fun b hb => by simpa using hne' b hb
    rw [hfind]
    refine ⟨t, hins, ⟨?_, rfl, pairwise_orderedInsert h.sorted hne'⟩⟩
    have hfun : (fun b => decide (0 < cmp (m.key a) (m.key b))) =
        fun b => decide ¬ m.key a ≤ m.key b := by
      funext b
      rw [decide_eq_decide, hcmp.pos, not_le]
    rw [hfun] at hholds
    rwa [List.orderedInsert_eq_take_drop]

/-- `RB_REMOVE`. -/
theorem RbRel.remove (h : RbRel m p) (hfuel : rbBound (Fintype.card α) ≤ fuel) (ha : a ∈ m.elems) :
    ∃ t, p.tree.rbRemove fuel a = some t ∧ t.Holds (m.elems.erase a) := by
  obtain ⟨t, hrem, hholds, -⟩ := h.holds.rbRemove (h.holds.bound hfuel) ha
  exact ⟨t, hrem, hholds⟩

omit [DecidableEq α] [Fintype α] in
/-- The last element has the greatest key. -/
theorem forall_lt_of_getLast? {key : α → κ} {l : List α}
    (hsorted : l.Pairwise fun a b => key a < key b) (h : ∀ b ∈ l.getLast?, key b < k) :
    ∀ b ∈ l, key b < k := by
  rcases l.eq_nil_or_concat with rfl | ⟨l, c, rfl⟩
  · simp
  · rw [List.concat_eq_append] at *
    have hc : key c < k := h c (by simp)
    intro b hb
    rcases List.mem_append.mp hb with hb | hb
    · exact ((List.pairwise_append.mp hsorted).2.2 b hb c (List.mem_singleton_self c)).trans hc
    · rwa [List.mem_singleton.mp hb]

omit [DecidableEq α] [Fintype α] in
/-- A key below the first is below all. -/
theorem forall_lt_of_head? {key : α → κ} {l : List α}
    (hsorted : l.Pairwise fun a b => key a < key b) (h : ∀ b ∈ l.head?, k < key b) :
    ∀ b ∈ l, k < key b := by
  cases l with
  | nil => simp
  | cons c l =>
      have hc : k < key c := h c rfl
      intro b hb
      rcases List.mem_cons.mp hb with rfl | hb
      · exact hc
      · exact hc.trans ((List.pairwise_cons.mp hsorted).1 b hb)

/-- `RB_REINSERT` of a node whose key has changed. -/
theorem RbRel.reinsert (h : RbRel m p) (hcmp : IsCmp cmp) (hfuel : rbBound (Fintype.card α) ≤ fuel)
    (ha : a ∈ m.elems) :
    let key := Function.update m.key a k
    let m' : Option α × RbMap α κ := RbMap.insert ⟨m.elems.erase a, key⟩ a
    ∃ t, p.tree.rbReinsert (fun b c => cmp (key b) (key c)) fuel a = some (m'.1, t) ∧
      RbRel m'.2 ⟨t, key⟩ := by
  intro key m'
  obtain ⟨l₁, l₂, hl⟩ := List.append_of_mem ha
  have hnodup := h.holds.nodup
  have hbound := h.holds.bound hfuel
  have hsorted := h.sorted
  have hholds := h.holds
  rw [hl] at hnodup hbound hholds hsorted
  have hnot₁ : a ∉ l₁ := fun h => (List.nodup_append.mp hnodup).2.2 a h a List.mem_cons_self rfl
  have hnot₂ : a ∉ l₂ := (List.nodup_cons.mp (List.nodup_append.mp hnodup).2.1).1
  have herase : m.elems.erase a = l₁ ++ l₂ := by
    rw [hl, List.erase_append_right _ hnot₁, List.erase_cons_head]
  have hkey : ∀ b ∈ l₁ ++ l₂, key b = m.key b := by
    intro b hb
    refine Function.update_of_ne ?_ _ _
    rintro rfl
    exact (List.mem_append.mp hb).elim hnot₁ hnot₂
  have hkeya : key a = k := Function.update_self ..
  have hsub : (l₁ ++ l₂).Sublist (l₁ ++ a :: l₂) := (List.sublist_cons_self a l₂).append_left l₁
  -- the others are sorted under the new keys as well
  have hrest : (l₁ ++ l₂).Pairwise fun b c => key b < key c :=
    (hsorted.sublist hsub).imp_of_mem fun hb hc hlt => by rwa [hkey _ hb, hkey _ hc]
  -- where `a` is out of order, it is taken out and inserted
  have hagain : ∃ t, (p.tree.rbRemove fuel a).bind
      (fun t => t.rbInsert (fun b c => cmp (key b) (key c)) fuel a) = some (m'.1, t) ∧
        RbRel m'.2 ⟨t, key⟩ := by
    obtain ⟨t, hrem, hrem'⟩ := h.remove hfuel ha
    have hrel : RbRel ⟨m.elems.erase a, key⟩ ⟨t, key⟩ := ⟨hrem', rfl, herase ▸ hrest⟩
    obtain ⟨t', ht', hrel'⟩ := hrel.insert hcmp hfuel (a := a) (by rw [herase]; simp [hnot₁, hnot₂])
    exact ⟨t', by rw [hrem, Option.bind_some, ht'], hrel'⟩
  obtain ⟨hnext, hprev⟩ := hholds.rbStep hbound
  rw [RbTree.rbReinsert, hprev, hnext]
  simp only [Option.bind_eq_bind, Option.bind_some]
  split_ifs with hp hn
  · exact hagain
  · exact hagain
  · -- it is still in order
    have hlt₁ : ∀ b ∈ l₁, key b < k := by
      apply forall_lt_of_getLast? (List.pairwise_append.mp hrest).1
      intro b hb
      rw [hb] at hp
      rw [← hkeya, ← hcmp.neg]
      simpa using hp
    have hlt₂ : ∀ b ∈ l₂, k < key b := by
      apply forall_lt_of_head? (List.pairwise_append.mp hrest).2.1
      intro b hb
      rw [hb] at hn
      rw [← hkeya, ← hcmp.neg]
      simpa using hn
    have hne : ∀ b ∈ l₁ ++ l₂, key b ≠ key a := by
      intro b hb
      rw [hkeya]
      exact (List.mem_append.mp hb).elim (fun hb => (hlt₁ b hb).ne) fun hb => (hlt₂ b hb).ne'
    have hins : (l₁ ++ l₂).orderedInsert (fun b c => key b ≤ key c) a = l₁ ++ a :: l₂ := by
      have hpass : ∀ b ∈ l₁, ¬ key a ≤ key b := fun b hb => by
        rw [hkeya]
        exact not_le.mpr (hlt₁ b hb)
      have hstop : ∀ b ∈ l₂.head?, ¬ ¬ key a ≤ key b := fun b hb => by
        rw [hkeya]
        exact not_not.mpr (hlt₂ b (List.mem_of_mem_head? hb)).le
      rw [List.orderedInsert_eq_take_drop, RankTree.takeWhile_append_eq hpass hstop,
        RankTree.dropWhile_append_eq hpass hstop]
    have hm' : m' = (none, ⟨l₁ ++ a :: l₂, key⟩) := by
      simp only [m', RbMap.insert, herase, hins]
      rw [List.find?_eq_none.mpr fun b hb => by simpa using hne b hb]
    rw [hm']
    exact ⟨p.tree, rfl, ⟨hholds, rfl, hins ▸ pairwise_orderedInsert hrest hne⟩⟩

/-- The tree answers every call as the map does. -/
theorem rbProgram_refines (hcmp : IsCmp cmp) (hfuel : rbBound (Fintype.card α) ≤ fuel) :
    Calls.Refines RbMap.call (RbProgram.call (α := α) cmp fuel) RbRel := by
  intro m p call r m' h hcall
  have hbound := h.holds.bound hfuel
  -- a search leaves both alone
  have hsearch : ∀ {x : Option (Option α)} {y : Option α}, x = some y →
      some (y, m) = some (r, m') → ∃ p', x.map (fun r => (r, p)) = some (r, p') ∧ RbRel m' p' := by
    intro x y hx hy
    obtain ⟨rfl, rfl⟩ := Prod.ext_iff.mp (Option.some.inj hy)
    exact ⟨p, by rw [hx]; rfl, h⟩
  -- around a node of the tree
  have hparts : ∀ {a : α}, a ∈ m.elems → ∃ l₁ l₂, m.elems = l₁ ++ a :: l₂ ∧
      m.elems.takeWhile (· ≠ a) = l₁ ∧ (m.elems.dropWhile (· ≠ a)).tail = l₂ := by
    intro a ha
    obtain ⟨l₁, l₂, hl⟩ := List.append_of_mem ha
    have hnodup := h.holds.nodup
    rw [hl] at hnodup ⊢
    have hne : ∀ b ∈ l₁, b ≠ a := fun b hb hba =>
      (List.nodup_append.mp hnodup).2.2 b hb a List.mem_cons_self hba
    have hstop : ∀ b ∈ (a :: l₂).head?, ¬ b ≠ a := fun b hb hba => hba (Option.some.inj hb).symm
    refine ⟨l₁, l₂, rfl, ?_, ?_⟩
    · exact RankTree.takeWhile_append_eq hne hstop
    · rw [RankTree.dropWhile_append_eq hne hstop]
      rfl
  cases call with
  | setKey a k =>
      rw [RbMap.call] at hcall
      split_ifs at hcall with ha
      obtain ⟨rfl, rfl⟩ := Prod.ext_iff.mp (Option.some.inj hcall)
      refine ⟨_, rfl, ⟨h.holds, by rw [h.key_eq], h.sorted.imp_of_mem fun hb hc hlt => ?_⟩⟩
      simp only at hb hc ⊢
      rwa [Function.update_of_ne (ne_of_mem_of_not_mem hb ha),
        Function.update_of_ne (ne_of_mem_of_not_mem hc ha)]
  | insert a =>
      rw [RbMap.call] at hcall
      split_ifs at hcall with ha
      obtain ⟨t, ht, hrel⟩ := h.insert hcmp hfuel ha
      rw [Option.some.inj hcall] at ht hrel
      refine ⟨⟨t, m.key⟩, ?_, hrel⟩
      rw [RbProgram.call, ht, ← h.key_eq]
      rfl
  | remove a =>
      rw [RbMap.call] at hcall
      split_ifs at hcall with ha
      obtain ⟨rfl, rfl⟩ := Prod.ext_iff.mp (Option.some.inj hcall)
      obtain ⟨t, ht, hholds⟩ := h.remove hfuel ha
      refine ⟨⟨t, p.key⟩, ?_, ⟨hholds, h.key_eq, h.sorted.sublist (List.erase_sublist ..)⟩⟩
      rw [RbProgram.call, ht]
      rfl
  | reinsert a k =>
      rw [RbMap.call] at hcall
      split_ifs at hcall with ha
      obtain ⟨t, ht, hrel⟩ := h.reinsert (k := k) hcmp hfuel ha
      rw [Option.some.inj hcall] at ht hrel
      refine ⟨⟨t, Function.update m.key a k⟩, ?_, hrel⟩
      rw [RbProgram.call, h.key_eq]
      simp only [ht, Option.map_some]
  | find k =>
      refine hsearch (h.holds.rbFind hbound ?_) ?_
      · rw [h.key_eq]
        exact hcmp.pairwise h.sorted k
      · rw [← hcall, RbMap.call, h.key_eq]
        congr 4
        funext b
        rw [decide_eq_decide, hcmp.eq_zero, eq_comm]
  | nfind k =>
      refine hsearch (h.holds.rbNfind hbound ?_) ?_
      · rw [h.key_eq]
        exact hcmp.pairwise h.sorted k
      · rw [← hcall, RbMap.call, h.key_eq]
        congr 4
        funext b
        rw [decide_eq_decide, hcmp.le_zero]
  | next a =>
      rw [RbMap.call] at hcall
      split_ifs at hcall with ha
      obtain ⟨l₁, l₂, hl, -, htail⟩ := hparts ha
      rw [htail] at hcall
      have hholds := h.holds
      rw [hl] at hholds hbound
      exact hsearch (hholds.rbStep hbound).1 hcall
  | prev a =>
      rw [RbMap.call] at hcall
      split_ifs at hcall with ha
      obtain ⟨l₁, l₂, hl, htake, -⟩ := hparts ha
      rw [htake] at hcall
      have hholds := h.holds
      rw [hl] at hholds hbound
      exact hsearch (hholds.rbStep hbound).2 hcall
  | minmax val => exact hsearch (h.holds.rbMinmax hbound val) hcall

/-- Over any sequence of calls, from `RB_INIT` on, the tree gives the answers of the map, with
`rbBound` steps for each loop at most and without following a null pointer. At the end its nodes are
the elements of the map, in a balanced tree and sorted by their keys. -/
theorem rbTree_calls_of_map (hcmp : IsCmp cmp) (hfuel : rbBound (Fintype.card α) ≤ fuel)
    (entry : α → RbEntry α) (key : α → κ) (calls : List (RbCall α κ)) {rs : List (Option α)}
    (hcalls : Calls.callAll RbMap.call ⟨[], key⟩ calls = some (rs, m)) :
    ∃ t, Calls.callAll (RbProgram.call cmp fuel) ⟨⟨none, entry⟩, key⟩ calls =
        some (rs, ⟨t, m.key⟩) ∧
      t.Holds m.elems ∧ m.elems.Pairwise fun a b => m.key a < m.key b := by
  have hinit : RbRel ⟨[], key⟩ (⟨⟨none, entry⟩, key⟩ : RbProgram α κ) :=
    ⟨holds_init entry, rfl, List.Pairwise.nil⟩
  obtain ⟨⟨t, key'⟩, ht, hholds, hkey, hsorted⟩ :=
    Calls.callAll_refines (rbProgram_refines hcmp hfuel) hinit hcalls
  obtain rfl := hkey
  exact ⟨t, ht, hholds, hsorted⟩

end Refines

/-- Five nodes, of which one has the key of another one, one gets the greatest key and one is taken
out. -/
theorem rbTree_calls_of_map_five : ∃ t : RbTree (Fin 5), t.Holds [1, 2, 0] ∧
    Calls.callAll (RbProgram.call (fun k k' : ℤ => k - k') 5)
      ⟨⟨none, fun _ => .zero⟩, ![10, 4, 8, 6, 4]⟩
      [.insert 0, .insert 1, .insert 2, .insert 3, .insert 4, .reinsert 0 12, .next 2, .remove 3] =
        some ([none, none, none, none, some 1, none, some 0, some 3],
          ⟨t, Function.update ![10, 4, 8, 6, 4] 0 12⟩) := by
  have hcmp : IsCmp fun k k' : ℤ => k - k' := ⟨fun _ _ => by omega, fun _ _ => by omega⟩
  have hfuel : rbBound (Fintype.card (Fin 5)) ≤ 5 := by decide
  have hcalls : Calls.callAll RbMap.call (⟨[], ![10, 4, 8, 6, 4]⟩ : RbMap (Fin 5) ℤ)
      [.insert 0, .insert 1, .insert 2, .insert 3, .insert 4, .reinsert 0 12, .next 2, .remove 3] =
        some ([none, none, none, none, some 1, none, some 0, some 3],
          ⟨[1, 2, 0], Function.update ![10, 4, 8, 6, 4] 0 12⟩) := rfl
  obtain ⟨t, ht, hholds, -⟩ := rbTree_calls_of_map hcmp hfuel (fun _ => .zero) _ _ hcalls
  exact ⟨t, hholds, ht⟩

end Koharu
