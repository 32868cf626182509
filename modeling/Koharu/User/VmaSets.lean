import Koharu.User.Vma
import Mathlib.Data.List.TakeWhile
import Mathlib.Data.List.FinRange
import Mathlib.Data.Fintype.Basic

/-!
# Runs of the memory areas

Any sequence of `vma_set_init`, `vma_insert` and `vma_remove`, over any number of sets. The
invariant `VmaState.Rep` is `Consistent` with one more fact: not only are the intervals disjoint,
each ends before the next one starts. This is what the two checks of `vma_insert` look at, and for
the intervals that are empty it says more.

The calls for which the two structures stay in agreement are those of `VmaState.CallOk`. An interval
that is empty passes both checks when the set has a record with the same start; it is then put on
the list, but not into the tree. `vma_set_init` makes all records free when none of them is, also
those that other sets use.

`Rep` is proved for the three operations one by one. An insertion looks at two neighbours only, the
last record below the new start and the first one from there on, and the order of the records says
that no other record is closer. A removal is the same step backwards, and gives the record to the
free list. The other direction, that the two structures disagree after a call that is not `CallOk`,
is a computation on the state after that call.
-/

namespace Koharu

/-- The calls. -/
inductive VmaCall (S : Type*)
  | setInit (i : S)
  | insert (i : S) (start endAddr prot kind : BitVec 64)
  | remove (i : S) (v : VmaId)

namespace VmaState

variable {S : Type*} {s s' : VmaState S} {i : S} {v : VmaId} {l₁ l₂ : List VmaId}

/-- The invariant. -/
structure Rep (s : VmaState S) : Prop where
  forward : ∀ i, Chain.Segment (fun v => (s.vmaPool v).next) (s.sets i).first (s.sets i).tree none
  backward :
    ∀ i, Chain.Segment (fun v => (s.vmaPool v).prev) (s.sets i).last (s.sets i).tree.reverse none
  start_lt : ∀ i, (s.sets i).tree.Pairwise fun v w => (s.vmaPool v).start < (s.vmaPool w).start
  end_le : ∀ i, (s.sets i).tree.Pairwise fun v w => (s.vmaPool v).endAddr ≤ (s.vmaPool w).start
  one_place : ∃ free, Chain.Segment (fun v => (s.vmaPool v).next) s.vmaFree free none ∧ free.Nodup ∧
    ∀ v, v ∈ free ∧ (∀ i, v ∉ (s.sets i).tree) ∨ v ∉ free ∧ ∃! i, v ∈ (s.sets i).tree

/-- The part of it that the answers of `vma_insert` rest on. It is kept by every call, also by one
that puts an empty interval on the list only. -/
structure Ordered (s : VmaState S) : Prop where
  start_lt : ∀ i, (s.sets i).tree.Pairwise fun v w => (s.vmaPool v).start < (s.vmaPool w).start
  end_le : ∀ i, (s.sets i).tree.Pairwise fun v w => (s.vmaPool v).endAddr ≤ (s.vmaPool w).start
  free : ∃ free, Chain.Segment (fun v => (s.vmaPool v).next) s.vmaFree free none ∧ free.Nodup ∧
    ∀ v ∈ free, ∀ i, v ∉ (s.sets i).tree

/-- The sets are in order. -/
theorem Rep.ordered (h : s.Rep) : s.Ordered := by
  obtain ⟨free, hchain, hnodup, hplace⟩ := h.one_place
  refine ⟨h.start_lt, h.end_le, free, hchain, hnodup, fun v hv => ?_⟩
  rcases hplace v with ⟨-, hnot⟩ | ⟨hnot, -⟩
  · exact hnot
  · exact absurd hv hnot

/-- No area is twice in a set. -/
theorem Ordered.nodup (h : s.Ordered) (i : S) : (s.sets i).tree.Nodup := by
  refine (h.start_lt i).imp fun {v w} hlt => ?_
  rintro rfl
  rw [BitVec.lt_def] at hlt
  omega

/-- The first of the free records is in no tree. -/
theorem Ordered.notMem_tree (h : s.Ordered) (hfree : s.vmaFree = some v) (i : S) :
    v ∉ (s.sets i).tree := by
  obtain ⟨free, hchain, -, hnot⟩ := h.free
  cases free with
  | nil => cases hfree.symm.trans hchain
  | cons w rest =>
      obtain rfl := Option.some.inj (hchain.1.symm.trans hfree)
      exact hnot w List.mem_cons_self i

/-- The trees, the lists and the areas agree. -/
theorem Rep.consistent (h : s.Rep) : s.Consistent where
  list_eq_tree := h.forward
  list_eq_tree_reverse := h.backward
  start_lt := h.start_lt
  disjoint i := by
    refine (h.end_le i).imp fun {v w} hle => ?_
    rw [Set.disjoint_left]
    rintro a ⟨-, hlt⟩ ⟨hge, -⟩
    rw [BitVec.lt_def] at hlt
    rw [BitVec.le_def] at hle hge
    omega
  one_place := h.one_place

/-- A record is in the tree of one set only. -/
theorem Rep.tree_unique (h : s.Rep) {i j : S} (hi : v ∈ (s.sets i).tree)
    (hj : v ∈ (s.sets j).tree) :
    i = j := by
  obtain ⟨free, -, -, hplace⟩ := h.one_place
  rcases hplace v with ⟨-, hnot⟩ | ⟨-, hunique⟩
  · exact absurd hi (hnot i)
  · exact hunique.unique hi hj

/-- The first of the free records is in no tree, and behind it are the others. -/
theorem Rep.free_cons (h : s.Rep) (hfree : s.vmaFree = some v) : ∃ rest,
    Chain.Segment (fun v => (s.vmaPool v).next) (s.vmaPool v).next rest none ∧ (v :: rest).Nodup ∧
      ∀ w, w ∈ v :: rest ∧ (∀ i, w ∉ (s.sets i).tree) ∨
        w ∉ v :: rest ∧ ∃! i, w ∈ (s.sets i).tree := by
  obtain ⟨free, hchain, hnodup, hplace⟩ := h.one_place
  cases free with
  | nil => cases hfree.symm.trans hchain
  | cons w rest =>
      obtain rfl := Option.some.inj (hchain.1.symm.trans hfree)
      exact ⟨rest, hchain.2, hnodup, hplace⟩

/-- An order on a list, with one more element in the middle of it. -/
theorem pairwise_insert {R : VmaId → VmaId → Prop} (h : (l₁ ++ l₂).Pairwise R)
    (hlow : ∀ w ∈ l₁, R w v) (hhigh : ∀ w ∈ l₂, R v w) : (l₁ ++ v :: l₂).Pairwise R := by
  obtain ⟨h₁, h₂, hcross⟩ := List.pairwise_append.mp h
  refine List.pairwise_append.mpr ⟨h₁, List.pairwise_cons.mpr ⟨hhigh, h₂⟩, fun u hu w hw => ?_⟩
  rcases List.mem_cons.mp hw with rfl | hw
  · exact hlow u hu
  · exact hcross u hu w hw

/-! ### A new record

What linking a record in does to all the others. -/

variable [DecidableEq S]

/-- The state after the record `v` was taken from the free list and linked in. -/
def inserted (s : VmaState S) (i : S) (v : VmaId) (r : Vma) (tree : List VmaId) : VmaState S where
  vmaPool w := if w = v then r else
    { s.vmaPool w with
      next := if r.prev = some w then some v else (s.vmaPool w).next
      prev := if r.next = some w then some v else (s.vmaPool w).prev }
  vmaFree := (s.vmaPool v).next
  sets := Function.update s.sets i
    ⟨tree, if r.prev = none then some v else (s.sets i).first,
      if r.next = none then some v else (s.sets i).last⟩

/-- The links of a record that stays where it is. -/
theorem inserted_of_ne {r : Vma} {tree : List VmaId} {w : VmaId} (hw : w ≠ v) :
    (s.inserted i v r tree).vmaPool w =
      { s.vmaPool w with
        next := if r.prev = some w then some v else (s.vmaPool w).next
        prev := if r.next = some w then some v else (s.vmaPool w).prev } := if_neg hw

/-- The record of the new area. -/
theorem inserted_self {r : Vma} {tree : List VmaId} : (s.inserted i v r tree).vmaPool v = r :=
  if_pos rfl

/-- The set has the new tree, and maybe another first or last area. -/
theorem inserted_sets_self {r : Vma} {tree : List VmaId} : (s.inserted i v r tree).sets i =
    ⟨tree, if r.prev = none then some v else (s.sets i).first,
      if r.next = none then some v else (s.sets i).last⟩ := Function.update_self ..

/-- Other sets are as before. -/
theorem inserted_sets_of_ne {r : Vma} {tree : List VmaId} {j : S} (hj : j ≠ i) :
    (s.inserted i v r tree).sets j = s.sets j := Function.update_of_ne hj ..

/-- The other free records stay free. -/
theorem Rep.inserted_free (h : s.Rep) {r : Vma} (tree : List VmaId) (hfree : s.vmaFree = some v)
    (hprev : ∀ w, r.prev = some w → w ∈ (s.sets i).tree) : ∃ rest,
    Chain.Segment (fun w => ((s.inserted i v r tree).vmaPool w).next)
      (s.inserted i v r tree).vmaFree rest none ∧ (v :: rest).Nodup ∧
      ∀ w, w ∈ v :: rest ∧ (∀ i, w ∉ (s.sets i).tree) ∨
        w ∉ v :: rest ∧ ∃! i, w ∈ (s.sets i).tree := by
  obtain ⟨rest, hchain, hnodup, hplace⟩ := h.free_cons hfree
  refine ⟨rest, hchain.congr fun w hw => ?_, hnodup, hplace⟩
  -- the rest of the free list is none of the records that the insertion links
  have hne : w ≠ v := by
    rintro rfl
    exact (List.nodup_cons.mp hnodup).1 hw
  rw [inserted_of_ne hne]
  apply if_neg
  intro heq
  rcases hplace w with ⟨-, hnot⟩ | ⟨hnot, -⟩
  · exact hnot i (hprev w heq)
  · exact hnot (List.mem_cons_of_mem v hw)

/-- A record between two parts of the list keeps the invariant. -/
theorem Rep.inserted (h : s.Rep) {r : Vma} (hfree : s.vmaFree = some v)
    (htree : (s.sets i).tree = l₁ ++ l₂) (hprev : r.prev = l₁.getLast?) (hnext : r.next = l₂.head?)
    (hlow : ∀ w ∈ l₁, (s.vmaPool w).start < r.start ∧ (s.vmaPool w).endAddr ≤ r.start)
    (hhigh : ∀ w ∈ l₂, r.start < (s.vmaPool w).start ∧ r.endAddr ≤ (s.vmaPool w).start) :
    (s.inserted i v r (l₁ ++ v :: l₂)).Rep := by
  -- only records of the set get new links
  have hprev_mem : ∀ w, r.prev = some w → w ∈ (s.sets i).tree := by
    intro w hw
    rw [htree]
    exact List.mem_append_left _ (List.mem_of_getLast? (hprev.symm.trans hw))
  obtain ⟨rest, hchain, hnodup, hplace⟩ := h.inserted_free (l₁ ++ v :: l₂) hfree hprev_mem
  obtain ⟨hnotMem, hnodup⟩ := List.nodup_cons.mp hnodup
  have hnew : ∀ j, v ∉ (s.sets j).tree := h.ordered.notMem_tree hfree
  have hne : ∀ {j w}, w ∈ (s.sets j).tree → w ≠ v := by
    rintro j w hw rfl
    exact hnew j hw
  have hnext_mem : ∀ w, r.next = some w → w ∈ (s.sets i).tree := by
    intro w hw
    rw [htree]
    exact List.mem_append_right _ (List.mem_of_head? (hnext.symm.trans hw))
  have hnext_eq : ∀ w ≠ v, w ∉ (s.sets i).tree →
      ((s.inserted i v r (l₁ ++ v :: l₂)).vmaPool w).next = (s.vmaPool w).next := by
    intro w hwv hw
    rw [inserted_of_ne hwv]
    exact if_neg fun heq => hw (hprev_mem w heq)
  have hprev_eq : ∀ w ≠ v, w ∉ (s.sets i).tree →
      ((s.inserted i v r (l₁ ++ v :: l₂)).vmaPool w).prev = (s.vmaPool w).prev := by
    intro w hwv hw
    rw [inserted_of_ne hwv]
    exact if_neg fun heq => hw (hnext_mem w heq)
  have hnodup_tree : (l₁ ++ l₂).Nodup := htree ▸ h.ordered.nodup i
  have hmem : ∀ {w}, w ∈ l₁ ++ l₂ → w ≠ v := fun hw => hne (htree ▸ hw)
  refine ⟨fun j => ?_, fun j => ?_, fun j => ?_, fun j => ?_, rest, hchain, hnodup, fun w => ?_⟩
  · by_cases hj : j = i
    · subst hj
      rw [inserted_sets_self]
      have hold := htree ▸ h.forward j
      refine hold.insert hnodup_tree ?_ (fun w hw => ?_) (fun w hw hlast => ?_) (by rw [hprev])
      · rw [inserted_self, hnext]
      · rw [inserted_of_ne (hmem (List.mem_append_left _ (List.mem_of_getLast? hw))), hprev]
        exact if_pos hw
      · rw [inserted_of_ne (hmem hw), hprev]
        exact if_neg hlast
    · rw [inserted_sets_of_ne hj]
      exact (h.forward j).congr fun w hw =>
        hnext_eq w (hne hw) fun hw' => hj (h.tree_unique hw hw')
  · by_cases hj : j = i
    · subst hj
      rw [inserted_sets_self]
      have hold := h.backward j
      rw [htree, List.reverse_append] at hold
      simp only [List.reverse_append, List.reverse_cons, List.append_assoc, List.singleton_append]
      refine hold.insert ?_ ?_ (fun w hw => ?_) (fun w hw hlast => ?_) ?_
      · rw [← List.reverse_append]
        exact List.nodup_reverse.mpr hnodup_tree
      · rw [inserted_self, hprev, List.head?_reverse]
      · rw [List.getLast?_reverse] at hw
        rw [inserted_of_ne (hmem (List.mem_append_right _ (List.mem_of_head? hw))), hnext]
        exact if_pos hw
      · rw [List.getLast?_reverse] at hlast
        rw [← List.reverse_append, List.mem_reverse] at hw
        rw [inserted_of_ne (hmem hw), hnext]
        exact if_neg hlast
      · rw [List.getLast?_reverse, hnext]
    · rw [inserted_sets_of_ne hj]
      exact (h.backward j).congr fun w hw =>
        hprev_eq w (hne (List.mem_reverse.mp hw)) fun hw' =>
          hj (h.tree_unique (List.mem_reverse.mp hw) hw')
  · by_cases hj : j = i
    · subst hj
      rw [inserted_sets_self]
      refine pairwise_insert ?_ (fun w hw => ?_) fun w hw => ?_
      · refine (htree ▸ h.start_lt j).imp_of_mem fun {u w} hu hw hlt => ?_
        rw [inserted_of_ne (hmem hu), inserted_of_ne (hmem hw)]
        exact hlt
      · rw [inserted_of_ne (hmem (List.mem_append_left _ hw)), inserted_self]
        exact (hlow w hw).1
      · rw [inserted_of_ne (hmem (List.mem_append_right _ hw)), inserted_self]
        exact (hhigh w hw).1
    · rw [inserted_sets_of_ne hj]
      refine (h.start_lt j).imp_of_mem fun {u w} hu hw hlt => ?_
      rw [inserted_of_ne (hne hu), inserted_of_ne (hne hw)]
      exact hlt
  · by_cases hj : j = i
    · subst hj
      rw [inserted_sets_self]
      refine pairwise_insert ?_ (fun w hw => ?_) fun w hw => ?_
      · refine (htree ▸ h.end_le j).imp_of_mem fun {u w} hu hw hle => ?_
        rw [inserted_of_ne (hmem hu), inserted_of_ne (hmem hw)]
        exact hle
      · rw [inserted_of_ne (hmem (List.mem_append_left _ hw)), inserted_self]
        exact (hlow w hw).2
      · rw [inserted_of_ne (hmem (List.mem_append_right _ hw)), inserted_self]
        exact (hhigh w hw).2
    · rw [inserted_sets_of_ne hj]
      refine (h.end_le j).imp_of_mem fun {u w} hu hw hle => ?_
      rw [inserted_of_ne (hne hu), inserted_of_ne (hne hw)]
      exact hle
  · -- the trees have the same records as before, and `v`
    have hmem_tree : ∀ j, w ∈ ((s.inserted i v r (l₁ ++ v :: l₂)).sets j).tree ↔
        w ∈ (s.sets j).tree ∨ j = i ∧ w = v := by
      intro j
      by_cases hj : j = i
      · subst hj
        rw [inserted_sets_self, htree]
        simp only [List.mem_append, List.mem_cons]
        tauto
      · rw [inserted_sets_of_ne hj]
        simp [hj]
    simp only [hmem_tree]
    by_cases hw : w = v
    · subst hw
      refine Or.inr ⟨hnotMem, i, Or.inr ⟨rfl, rfl⟩, ?_⟩
      rintro j (hj | ⟨hj, -⟩)
      · exact absurd hj (hnew j)
      · exact hj
    · simpa [hw] using hplace w

/-! ### Stores

Lemmas for the stores, one for each field. -/

section Stores

variable (s : VmaState S) (i : S) (p q : Option VmaId)

omit [DecidableEq S] in
/-- One record is changed. -/
theorem setVma_vmaPool (v w : VmaId) (f : Vma → Vma) :
    (s.setVma v f).vmaPool w = if w = v then f (s.vmaPool v) else s.vmaPool w :=
  Function.update_apply s.vmaPool v (f (s.vmaPool v)) w

omit [DecidableEq S] in
/-- The sets are not. -/
theorem setVma_sets (v : VmaId) (f : Vma → Vma) : (s.setVma v f).sets = s.sets := rfl

/-- A set is changed, and no record. -/
theorem setSet_vmaPool (f : VmaSet → VmaSet) : (s.setSet i f).vmaPool = s.vmaPool := rfl

/-- The list of free records is not changed, either. -/
theorem setSet_vmaFree (f : VmaSet → VmaSet) : (s.setSet i f).vmaFree = s.vmaFree := rfl

/-- One record gets another `next`, if there is one before. -/
theorem linkNext_vmaPool (w : VmaId) : (s.linkNext i p q).vmaPool w =
    { s.vmaPool w with next := if p = some w then q else (s.vmaPool w).next } := by
  cases p with
  | none => rfl
  | some p =>
      rw [linkNext, setNext, setVma_vmaPool]
      by_cases hw : w = p
      · subst hw
        simp
      · simp [hw, Ne.symm hw]

/-- One record gets another `prev`, if there is one behind. -/
theorem linkPrev_vmaPool (w : VmaId) : (s.linkPrev i p q).vmaPool w =
    { s.vmaPool w with prev := if p = some w then q else (s.vmaPool w).prev } := by
  cases p with
  | none => rfl
  | some p =>
      rw [linkPrev, setPrev, setVma_vmaPool]
      by_cases hw : w = p
      · subst hw
        simp
      · simp [hw, Ne.symm hw]

/-- Without a record before, the set gets another first area. -/
theorem linkNext_sets : (s.linkNext i p q).sets = Function.update s.sets i
    { s.sets i with first := if p = none then q else (s.sets i).first } := by
  cases p with
  | none => rfl
  | some p => exact (Function.update_eq_self i s.sets).symm

/-- Without a record behind, the set gets another last area. -/
theorem linkPrev_sets : (s.linkPrev i p q).sets = Function.update s.sets i
    { s.sets i with last := if p = none then q else (s.sets i).last } := by
  cases p with
  | none => rfl
  | some p => exact (Function.update_eq_self i s.sets).symm

/-- The list of free records is not changed. -/
theorem linkNext_vmaFree : (s.linkNext i p q).vmaFree = s.vmaFree := by
  cases p <;> rfl

/-- The list of free records is not changed. -/
theorem linkPrev_vmaFree : (s.linkPrev i p q).vmaFree = s.vmaFree := by
  cases p <;> rfl

end Stores

/-! ### `vma_insert`

The record goes to its place in the list and in the tree. -/

omit [DecidableEq S] in
/-- What the comparison function means by less. -/
theorem vmaCmp_lt {a b : Vma} : vmaCmp a b < 0 ↔ a.start < b.start := by
  rw [vmaCmp]
  split
  · simp [*]
  · split <;> simp [*]

omit [DecidableEq S] in
/-- What it means by not greater. -/
theorem vmaCmp_le {a b : Vma} : vmaCmp a b ≤ 0 ↔ ¬ b.start < a.start := by
  rw [vmaCmp]
  split
  next hlt =>
    rw [BitVec.lt_def] at hlt
    simp [BitVec.lt_def]
    omega
  next => split <;> simp [*]

omit [DecidableEq S] in
/-- What it means by equal. -/
theorem vmaCmp_eq {a b : Vma} : vmaCmp a b = 0 ↔ a.start = b.start := by
  rw [vmaCmp, ← BitVec.toNat_inj]
  simp only [BitVec.lt_def]
  split
  · simp; omega
  · split
    · simp; omega
    · simp; omega

/-- The records of a set below an address. -/
def below (s : VmaState S) (i : S) (start : BitVec 64) : List VmaId :=
  (s.sets i).tree.takeWhile fun w => (s.vmaPool w).start < start

/-- The records of a set from an address on. -/
def above (s : VmaState S) (i : S) (start : BitVec 64) : List VmaId :=
  (s.sets i).tree.dropWhile fun w => (s.vmaPool w).start < start

section Split

omit [DecidableEq S]

/-- An address splits the set in two. -/
theorem below_append_above (s : VmaState S) (i : S) (start : BitVec 64) :
    s.below i start ++ s.above i start = (s.sets i).tree := List.takeWhile_append_dropWhile

/-- The areas below start below. -/
theorem lt_of_mem_below {start : BitVec 64} {w : VmaId} (hw : w ∈ s.below i start) :
    (s.vmaPool w).start < start := by
  simpa using List.mem_takeWhile_imp hw

/-- The areas above do not. -/
theorem Ordered.le_of_mem_above (h : s.Ordered) {start : BitVec 64} {w : VmaId}
    (hw : w ∈ s.above i start) : start ≤ (s.vmaPool w).start := by
  have hsorted := h.start_lt i
  rw [← s.below_append_above i start, List.pairwise_append] at hsorted
  cases hcase : s.above i start with
  | nil => rw [hcase] at hw; cases hw
  | cons n l =>
      -- the first record above is not below `start`, and the others follow it
      have hn : ¬ (s.vmaPool n).start < start := by
        have := List.head?_dropWhile_not (fun w => decide ((s.vmaPool w).start < start))
          (s.sets i).tree
        rw [show (s.sets i).tree.dropWhile _ = n :: l from hcase] at this
        simpa using this
      have hfirst := List.pairwise_cons.mp (hcase ▸ hsorted.2.1)
      rw [hcase] at hw
      rw [BitVec.lt_def] at hn
      rw [BitVec.le_def]
      rcases List.mem_cons.mp hw with rfl | hw
      · omega
      · have := BitVec.lt_def.mp (hfirst.1 w hw)
        omega

/-- `RB_NFIND` finds the first area that does not start below. -/
theorem rbNfind_eq {r : Vma} : s.rbNfind (s.sets i).tree r = (s.above i r.start).head? := by
  rw [rbNfind, above, List.find?_eq_head?_dropWhile_not]
  congr 2
  funext w
  simp only [vmaCmp_le, decide_not, Bool.not_not]

/-- `RB_PREV` of that one is the last area that starts below. -/
theorem Ordered.rbPrev_eq (h : s.Ordered) {start : BitVec 64} {n : VmaId}
    (hn : (s.above i start).head? = some n) :
    rbPrev (s.sets i).tree n = (s.below i start).getLast? := by
  obtain ⟨l, hl⟩ := List.head?_eq_some_iff.mp hn
  have hnodup := h.nodup i
  rw [← s.below_append_above i start, hl] at hnodup ⊢
  have hnot := (List.nodup_append'.mp hnodup).2.2
  rw [rbPrev, List.takeWhile_append_of_pos]
  · simp
  · intro w hw
    rw [bne_iff_ne]
    rintro rfl
    exact hnot hw List.mem_cons_self

end Split

/-- The record that `vma_insert` makes. -/
def newVma (s : VmaState S) (i : S) (start endAddr prot kind : BitVec 64) : Vma :=
  ⟨start, endAddr, prot, kind, (s.below i start).getLast?, (s.above i start).head?⟩

/-- Neither of the neighbours overlaps. -/
def Fits (s : VmaState S) (i : S) (start endAddr : BitVec 64) : Prop :=
  (∀ p, (s.below i start).getLast? = some p → (s.vmaPool p).endAddr ≤ start) ∧
    ∀ n, (s.above i start).head? = some n → endAddr ≤ (s.vmaPool n).start

/-- The tree after `vma_insert`: a record with the same start keeps the new one out. -/
def newTree (s : VmaState S) (i : S) (v : VmaId) (start : BitVec 64) : List VmaId :=
  if ∃ w ∈ (s.sets i).tree, (s.vmaPool w).start = start then (s.sets i).tree
  else s.below i start ++ v :: s.above i start

omit [DecidableEq S] in
/-- So it is if there is no area that does not start below. -/
theorem Ordered.vmaPrev_eq (h : s.Ordered) {start : BitVec 64} :
    vmaPrev (s.sets i).tree (s.above i start).head? = (s.below i start).getLast? := by
  cases hcase : (s.above i start).head? with
  | none =>
      have hnil := List.head?_eq_none_iff.mp hcase
      rw [vmaPrev, rbMax, ← s.below_append_above i start, hnil, List.append_nil]
  | some n => exact h.rbPrev_eq hcase

omit [DecidableEq S] in
/-- What is taken depends on the test for the elements. -/
theorem takeWhile_congr {f g : VmaId → Bool} {l : List VmaId} (h : ∀ w ∈ l, f w = g w) :
    l.takeWhile f = l.takeWhile g ∧ l.dropWhile f = l.dropWhile g := by
  induction l with
  | nil => exact ⟨rfl, rfl⟩
  | cons w l ih =>
      obtain ⟨htake, hdrop⟩ := ih fun u hu => h u (List.mem_cons_of_mem w hu)
      rw [List.takeWhile_cons, List.takeWhile_cons, List.dropWhile_cons, List.dropWhile_cons,
        h w List.mem_cons_self, htake, hdrop]
      exact ⟨rfl, rfl⟩

omit [DecidableEq S] in
/-- The tree looks at the starts of its records only. -/
theorem rbInsert_eq {t : VmaState S} {start : BitVec 64} (hstart : (t.vmaPool v).start = start)
    (hsame : ∀ w ∈ (s.sets i).tree, (t.vmaPool w).start = (s.vmaPool w).start) :
    t.rbInsert (s.sets i).tree v = s.newTree i v start := by
  have hany : ((s.sets i).tree.any fun w => vmaCmp (t.vmaPool v) (t.vmaPool w) = 0) =
      decide (∃ w ∈ (s.sets i).tree, (s.vmaPool w).start = start) := by
    rw [Bool.eq_iff_iff, List.any_eq_true, decide_eq_true_eq]
    refine exists_congr fun w => and_congr_right fun hw => ?_
    rw [decide_eq_true_eq, vmaCmp_eq, hstart, hsame w hw]
    exact eq_comm
  have hlt : ∀ w ∈ (s.sets i).tree, decide (vmaCmp (t.vmaPool w) (t.vmaPool v) < 0) =
      decide ((s.vmaPool w).start < start) := by
    intro w hw
    simp only [vmaCmp_lt, hstart, hsame w hw]
  rw [rbInsert, newTree, hany, below, above, (takeWhile_congr hlt).1, (takeWhile_congr hlt).2]
  simp only [decide_eq_true_eq]

/-- A record that is not in the set is linked in as `inserted` says. -/
theorem vmaLink_eq {r : Vma} {free : Option VmaId} (hv : v ∉ (s.sets i).tree)
    (hfree : free = (s.vmaPool v).next) (hprev : r.prev ≠ some v) (hnext : r.next ≠ some v) :
    ({ s with vmaFree := free } : VmaState S).vmaLink i v r =
      s.inserted i v r (s.newTree i v r.start) := by
  subst hfree
  unfold vmaLink
  refine VmaState.ext (funext fun w => ?_) ?_ ?_
  · rw [setSet_vmaPool, linkPrev_vmaPool, linkNext_vmaPool]
    by_cases hw : w = v
    · subst hw
      simp [setVma, inserted_self, hprev, hnext]
    · simp [setVma, inserted_of_ne hw, hw]
  · rw [setSet_vmaFree, linkPrev_vmaFree, linkNext_vmaFree]
    rfl
  -- the starts that the search compares are those before the links are set
  · have htree : ∀ t : VmaState S, (∀ w, (t.vmaPool w).start =
        ((s.setVma v fun _ => r).vmaPool w).start) →
        t.rbInsert (s.sets i).tree v = s.newTree i v r.start := by
      intro t hstart
      apply rbInsert_eq (by rw [hstart, setVma_vmaPool, if_pos rfl])
      intro w hw
      rw [hstart, setVma_vmaPool, if_neg]
      rintro rfl
      exact hv hw
    rw [setSet, linkPrev_sets, linkNext_sets, inserted]
    simp only [Function.update_self, Function.update_idem, setVma_sets]
    rw [htree]
    · intro w
      rw [linkPrev_vmaPool, linkNext_vmaPool]
      rfl

/-- What `vma_insert` does. -/
theorem Ordered.vmaInsert (h : s.Ordered) (i : S) (start endAddr prot kind : BitVec 64) :
    s.vmaInsert i start endAddr prot kind = (false, s) ∧
        (s.vmaFree ≠ none → ¬ s.Fits i start endAddr) ∨
      ∃ v, s.vmaFree = some v ∧ s.Fits i start endAddr ∧
        s.vmaInsert i start endAddr prot kind =
          (true, s.inserted i v (s.newVma i start endAddr prot kind) (s.newTree i v start)) := by
  rw [VmaState.vmaInsert, rbNfind_eq, h.vmaPrev_eq]
  -- the two tests compare with the neighbours, the third takes a record
  split
  next hoverlap =>
    refine Or.inl ⟨rfl, fun _ hfits => ?_⟩
    obtain ⟨p, hp, hlt⟩ := (Option.any_eq_true _ _).mp hoverlap
    have hle := hfits.1 p hp
    rw [decide_eq_true_eq, BitVec.lt_def] at hlt
    rw [BitVec.le_def] at hle
    omega
  next hprev_ok =>
  split
  next hoverlap =>
    refine Or.inl ⟨rfl, fun _ hfits => ?_⟩
    obtain ⟨n, hn, hlt⟩ := (Option.any_eq_true _ _).mp hoverlap
    have hle := hfits.2 n hn
    rw [decide_eq_true_eq, BitVec.lt_def] at hlt
    rw [BitVec.le_def] at hle
    omega
  next hnext_ok =>
  unfold vmaAlloc
  cases hfree : s.vmaFree with
  | none => exact Or.inl ⟨rfl, fun hne => absurd rfl hne⟩
  | some v =>
    have hv : v ∉ (s.sets i).tree := h.notMem_tree hfree i
    have hmem : ∀ w, w ∈ s.below i start ++ s.above i start → w ≠ v := by
      rintro w hw rfl
      rw [s.below_append_above i start] at hw
      exact hv hw
    refine Or.inr ⟨v, rfl, ⟨fun p hp => ?_, fun n hn => ?_⟩, ?_⟩
    · rw [hp] at hprev_ok
      simpa using hprev_ok
    · rw [hn] at hnext_ok
      simpa using hnext_ok
    · refine congrArg (Prod.mk true) (vmaLink_eq hv rfl ?_ ?_)
      · intro hprev
        exact hmem v (List.mem_append_left _ (List.mem_of_getLast? hprev)) rfl
      · intro hnext
        exact hmem v (List.mem_append_right _ (List.mem_of_head? hnext)) rfl

omit [DecidableEq S] in
/-- The check speaks of the neighbour below, the order of all others. -/
theorem Ordered.endAddr_le_of_below (h : s.Ordered) {start endAddr : BitVec 64}
    (hfits : s.Fits i start endAddr) {w : VmaId} (hw : w ∈ s.below i start) :
    (s.vmaPool w).endAddr ≤ start := by
  have hends := h.end_le i
  rw [← s.below_append_above i start, List.pairwise_append] at hends
  obtain ⟨l, p, hl⟩ := (List.eq_nil_or_concat' (s.below i start)).resolve_left
    (List.ne_nil_of_mem hw)
  -- the last record below ends before `start`, and the others end before it
  have hp := hfits.1 p (by rw [hl, List.getLast?_concat])
  rw [hl] at hw hends
  rcases List.mem_append.mp hw with hw | hw
  · have hwp := (List.pairwise_append.mp hends.1).2.2 w hw p (by simp)
    have hlt : (s.vmaPool p).start < start := lt_of_mem_below (i := i) (by simp [hl])
    rw [BitVec.lt_def] at hlt
    rw [BitVec.le_def] at hwp ⊢
    omega
  · rwa [List.mem_singleton.mp hw]

omit [DecidableEq S] in
/-- The same for the neighbour above. -/
theorem Ordered.le_start_of_above (h : s.Ordered) {start endAddr : BitVec 64}
    (hfits : s.Fits i start endAddr) {w : VmaId} (hw : w ∈ s.above i start) :
    endAddr ≤ (s.vmaPool w).start := by
  have hsorted := h.start_lt i
  rw [← s.below_append_above i start, List.pairwise_append] at hsorted
  obtain ⟨n, l, hl⟩ := List.exists_cons_of_ne_nil (List.ne_nil_of_mem hw)
  have hn := hfits.2 n (by rw [hl]; rfl)
  rw [hl] at hw hsorted
  rcases List.mem_cons.mp hw with rfl | hw
  · exact hn
  · have := (List.pairwise_cons.mp hsorted.2.1).1 w hw
    rw [BitVec.lt_def] at this
    rw [BitVec.le_def] at hn ⊢
    omega

/-- `vma_insert` keeps the invariant, when no record has the start of an empty interval. -/
theorem Rep.insert (h : s.Rep) {start endAddr : BitVec 64} (prot kind : BitVec 64)
    (hok : s.vmaFree ≠ none → endAddr ≤ start →
      ∀ w ∈ (s.sets i).tree, (s.vmaPool w).start ≠ start) :
    (s.vmaInsert i start endAddr prot kind).2.Rep := by
  rcases h.ordered.vmaInsert i start endAddr prot kind with ⟨heq, -⟩ | ⟨v, hfree, hfits, heq⟩
  · rw [heq]
    exact h
  · have hlow : ∀ w ∈ s.below i start, (s.vmaPool w).endAddr ≤ start :=
      fun w hw => h.ordered.endAddr_le_of_below hfits hw
    have hhigh : ∀ w ∈ s.above i start, endAddr ≤ (s.vmaPool w).start :=
      fun w hw => h.ordered.le_start_of_above hfits hw
    -- a record with the same start would be behind the new interval, which is empty then
    have hnone : ¬ ∃ w ∈ (s.sets i).tree, (s.vmaPool w).start = start := by
      rintro ⟨w, hw, rfl⟩
      have habove : w ∈ s.above i (s.vmaPool w).start := by
        have hw' := hw
        rw [← s.below_append_above i (s.vmaPool w).start, List.mem_append] at hw'
        rcases hw' with hbelow | habove
        · have := lt_of_mem_below hbelow
          rw [BitVec.lt_def] at this
          omega
        · exact habove
      exact hok (by simp [hfree]) (hhigh w habove) w hw rfl
    rw [heq, newTree, if_neg hnone]
    refine h.inserted hfree (s.below_append_above i start).symm rfl rfl
      (fun w hw => ⟨lt_of_mem_below hw, hlow w hw⟩) fun w hw => ⟨?_, hhigh w hw⟩
    have hge := h.ordered.le_of_mem_above hw
    have hne : (s.vmaPool w).start ≠ start := fun heq => hnone
      ⟨w, by rw [← s.below_append_above i start]; exact List.mem_append_right _ hw, heq⟩
    rw [Ne, ← BitVec.toNat_inj] at hne
    rw [BitVec.le_def] at hge
    rw [BitVec.lt_def]
    show start.toNat < _
    omega

/-! ### Any intervals

What holds even where two records start at one address. -/

section Ordered

variable {start endAddr : BitVec 64} {w : VmaId}

omit [DecidableEq S] in
/-- Every area is below or above. -/
theorem mem_tree_iff (start : BitVec 64) :
    w ∈ (s.sets i).tree ↔ w ∈ s.below i start ∨ w ∈ s.above i start := by
  rw [← List.mem_append, s.below_append_above i start]

omit [DecidableEq S] in
/-- Nothing but the new record comes to the tree. -/
theorem mem_of_mem_newTree (hw : w ∈ s.newTree i v start) : w ∈ (s.sets i).tree ∨ w = v := by
  rw [newTree] at hw
  split at hw
  · exact Or.inl hw
  · rw [List.mem_append, List.mem_cons] at hw
    rw [mem_tree_iff start]
    tauto

omit [DecidableEq S] in
/-- And nothing leaves it. -/
theorem mem_newTree_of_mem (hw : w ∈ (s.sets i).tree) : w ∈ s.newTree i v start := by
  rw [newTree]
  split
  · exact hw
  · rw [mem_tree_iff start] at hw
    rw [List.mem_append, List.mem_cons]
    tauto

omit [DecidableEq S] in
/-- An order of the tree is one with the new record, too, if it is between its neighbours. -/
theorem pairwise_newTree {R R' : VmaId → VmaId → Prop} (h : (s.sets i).tree.Pairwise R)
    (himp : ∀ u ∈ (s.sets i).tree, ∀ w ∈ (s.sets i).tree, R u w → R' u w)
    (hlow : ∀ w ∈ s.below i start, R' w v)
    (hhigh : (¬ ∃ w ∈ (s.sets i).tree, (s.vmaPool w).start = start) → ∀ w ∈ s.above i start,
    R' v w) :
    (s.newTree i v start).Pairwise R' := by
  have h' := h.imp_of_mem fun {u w} hu hw => himp u hu w hw
  rw [newTree]
  split
  next => exact h'
  next hnone =>
    rw [← s.below_append_above i start] at h'
    exact pairwise_insert h' hlow (hhigh hnone)

/-- `vma_insert` keeps the order, whatever the interval is. -/
theorem Ordered.insert (h : s.Ordered) (i : S) (start endAddr prot kind : BitVec 64) :
    (s.vmaInsert i start endAddr prot kind).2.Ordered := by
  rcases h.vmaInsert i start endAddr prot kind with ⟨heq, -⟩ | ⟨v, hfree, hfits, heq⟩
  · rw [heq]
    exact h
  rw [heq]
  -- the record that is taken is free, so it is in no set
  have hv := h.notMem_tree hfree
  have hne : ∀ {j w}, w ∈ (s.sets j).tree → w ≠ v := by
    rintro j w hw rfl
    exact hv j hw
  have hmem : ∀ {w}, w ∈ s.below i start ∨ w ∈ s.above i start → w ≠ v :=
    fun hw => hne ((mem_tree_iff _).mpr hw)
  refine ⟨fun j => ?_, fun j => ?_, ?_⟩
  · by_cases hj : j = i
    · subst hj
      rw [inserted_sets_self]
      dsimp only
      refine pairwise_newTree (h.start_lt j) (fun u hu w hw hlt => ?_) (fun w hw => ?_)
        fun hnone w hw => ?_
      · rwa [inserted_of_ne (hne hu), inserted_of_ne (hne hw)]
      · rw [inserted_of_ne (hmem (Or.inl hw)), inserted_self]
        exact lt_of_mem_below hw
      · rw [inserted_of_ne (hmem (Or.inr hw)), inserted_self]
        refine BitVec.lt_of_le_ne (h.le_of_mem_above hw) fun hstart => hnone ⟨w, ?_, hstart.symm⟩
        exact (mem_tree_iff _).mpr (Or.inr hw)
    · rw [inserted_sets_of_ne hj]
      refine (h.start_lt j).imp_of_mem fun {u w} hu hw hlt => ?_
      rwa [inserted_of_ne (hne hu), inserted_of_ne (hne hw)]
  · by_cases hj : j = i
    · subst hj
      rw [inserted_sets_self]
      dsimp only
      refine pairwise_newTree (h.end_le j) (fun u hu w hw hle => ?_) (fun w hw => ?_)
        fun hnone w hw => ?_
      · rwa [inserted_of_ne (hne hu), inserted_of_ne (hne hw)]
      · rw [inserted_of_ne (hmem (Or.inl hw)), inserted_self]
        exact h.endAddr_le_of_below hfits hw
      · rw [inserted_of_ne (hmem (Or.inr hw)), inserted_self]
        exact h.le_start_of_above hfits hw
    · rw [inserted_sets_of_ne hj]
      refine (h.end_le j).imp_of_mem fun {u w} hu hw hle => ?_
      rwa [inserted_of_ne (hne hu), inserted_of_ne (hne hw)]
  -- the free list loses its first record
  · obtain ⟨free, hchain, hnodup, hnot⟩ := h.free
    cases free with
    | nil => cases hfree.symm.trans hchain
    | cons u rest =>
        obtain rfl := Option.some.inj (hchain.1.symm.trans hfree)
        have hrest : ∀ w ∈ rest, w ≠ u := by
          rintro w hw rfl
          exact (List.nodup_cons.mp hnodup).1 hw
        refine ⟨rest, hchain.2.congr fun w hw => ?_, (List.nodup_cons.mp hnodup).2,
          fun w hw j hj => ?_⟩
        · rw [inserted_of_ne (hrest w hw)]
          refine if_neg fun hprev => hnot w (List.mem_cons_of_mem u hw) i ?_
          exact (mem_tree_iff _).mpr (Or.inl (List.mem_of_getLast? hprev))
        · by_cases hi : j = i
          · subst hi
            rw [inserted_sets_self] at hj
            dsimp only at hj
            rcases mem_of_mem_newTree hj with hj | rfl
            · exact hnot w (List.mem_cons_of_mem u hw) j hj
            · exact hrest w hw rfl
          · rw [inserted_sets_of_ne hi] at hj
            exact hnot w (List.mem_cons_of_mem u hw) j hj

/-- An interval that is taken is apart from those on the tree. -/
theorem Ordered.apart (h : s.Ordered) {prot kind : BitVec 64}
    (hins : (s.vmaInsert i start endAddr prot kind).1 = true) (hw : w ∈ (s.sets i).tree) :
    (s.vmaPool w).endAddr ≤ start ∨ endAddr ≤ (s.vmaPool w).start := by
  rcases h.vmaInsert i start endAddr prot kind with ⟨heq, -⟩ | ⟨v, -, hfits, -⟩
  · rw [heq] at hins
    cases hins
  · rcases (mem_tree_iff _).mp hw with hbelow | habove
    · exact Or.inl (h.endAddr_le_of_below hfits hbelow)
    · exact Or.inr (h.le_start_of_above hfits habove)

/-- `[start, end)` is the interval of a record on the tree. -/
def Holds (s : VmaState S) (i : S) (start endAddr : BitVec 64) : Prop :=
  ∃ v ∈ (s.sets i).tree, (s.vmaPool v).start = start ∧ (s.vmaPool v).endAddr = endAddr

/-- An interval stays on the tree when other ones come to it. -/
theorem Ordered.holds_mono (h : s.Ordered) {a b : BitVec 64} (hholds : s.Holds i a b)
    (start endAddr prot kind : BitVec 64) :
    (s.vmaInsert i start endAddr prot kind).2.Holds i a b := by
  obtain ⟨w, hw, hstart, hend⟩ := hholds
  rcases h.vmaInsert i start endAddr prot kind with ⟨heq, -⟩ | ⟨v, hfree, -, heq⟩
  · rw [heq]
    exact ⟨w, hw, hstart, hend⟩
  -- the record is in a tree, so that it is not the free one used for the new range
  · have hne : w ≠ v := by
      rintro rfl
      exact h.notMem_tree hfree i hw
    rw [heq]
    refine ⟨w, ?_, ?_⟩
    · rw [inserted_sets_self]
      dsimp only
      exact mem_newTree_of_mem hw
    · rw [inserted_of_ne hne]
      exact ⟨hstart, hend⟩

/-- An interval that is taken and not empty comes to the tree. -/
theorem Ordered.holds_insert (h : s.Ordered) {prot kind : BitVec 64} (hlt : start < endAddr)
    (hins : (s.vmaInsert i start endAddr prot kind).1 = true) :
    (s.vmaInsert i start endAddr prot kind).2.Holds i start endAddr := by
  rcases h.vmaInsert i start endAddr prot kind with ⟨heq, -⟩ | ⟨v, -, hfits, heq⟩
  · rw [heq] at hins
    cases hins
  -- no record has this start, for its range would overlap the new one
  · have hnone : ¬ ∃ w ∈ (s.sets i).tree, (s.vmaPool w).start = start := by
      rintro ⟨w, hw, rfl⟩
      rcases (mem_tree_iff _).mp hw with hbelow | habove
      · exact absurd (lt_of_mem_below hbelow) (BitVec.lt_irrefl _)
      · exact absurd (h.le_start_of_above hfits habove) (BitVec.not_le.mpr hlt)
    rw [heq]
    refine ⟨v, ?_, ?_⟩
    · rw [inserted_sets_self, newTree, if_neg hnone]
      exact List.mem_append_right _ List.mem_cons_self
    · rw [inserted_self]
      exact ⟨rfl, rfl⟩

end Ordered

/-! ### `vma_remove`

The reverse, with the record back on the free list. -/

/-- The state after the record `v` was taken out and put on the free list. -/
def removed (s : VmaState S) (i : S) (v : VmaId) : VmaState S where
  vmaPool w := if w = v then { s.vmaPool v with next := s.vmaFree } else
    { s.vmaPool w with
      next := if (s.vmaPool v).prev = some w then (s.vmaPool v).next else (s.vmaPool w).next
      prev := if (s.vmaPool v).next = some w then (s.vmaPool v).prev else (s.vmaPool w).prev }
  vmaFree := some v
  sets := Function.update s.sets i
    ⟨(s.sets i).tree.erase v,
      if (s.vmaPool v).prev = none then (s.vmaPool v).next else (s.sets i).first,
      if (s.vmaPool v).next = none then (s.vmaPool v).prev else (s.sets i).last⟩

/-- Other records lose their links to the area. -/
theorem removed_of_ne {w : VmaId} (hw : w ≠ v) : (s.removed i v).vmaPool w =
    { s.vmaPool w with
      next := if (s.vmaPool v).prev = some w then (s.vmaPool v).next else (s.vmaPool w).next
      prev := if (s.vmaPool v).next = some w then (s.vmaPool v).prev else (s.vmaPool w).prev } :=
  if_neg hw

/-- The set loses the area, and maybe its first or last one. -/
theorem removed_sets_self : (s.removed i v).sets i =
    ⟨(s.sets i).tree.erase v,
      if (s.vmaPool v).prev = none then (s.vmaPool v).next else (s.sets i).first,
      if (s.vmaPool v).next = none then (s.vmaPool v).prev else (s.sets i).last⟩ :=
  Function.update_self ..

/-- Other sets are as before. -/
theorem removed_sets_of_ne {j : S} (hj : j ≠ i) : (s.removed i v).sets j = s.sets j :=
  Function.update_of_ne hj ..

/-- `vma_remove` does this. -/
theorem vmaRemove_eq (hprev : (s.vmaPool v).prev ≠ some v) (hnext : (s.vmaPool v).next ≠ some v) :
    s.vmaRemove i v = s.removed i v := by
  -- a record that is not linked to itself still has its links when they are read again
  have hnext₁ : ((s.linkNext i (s.vmaPool v).prev (s.vmaPool v).next).vmaPool v).next =
      (s.vmaPool v).next := by
    rw [linkNext_vmaPool]
    exact if_neg hprev
  have hprev₁ : ((s.linkNext i (s.vmaPool v).prev (s.vmaPool v).next).vmaPool v).prev =
      (s.vmaPool v).prev := by
    rw [linkNext_vmaPool]
  rw [vmaRemove, hnext₁, hprev₁]
  refine VmaState.ext (funext fun w => ?_) rfl ?_
  · rw [vmaRelease, setNext, setVma_vmaPool, setSet_vmaPool, linkPrev_vmaPool, linkNext_vmaPool,
      linkPrev_vmaPool, linkNext_vmaPool, setSet_vmaFree, linkPrev_vmaFree, linkNext_vmaFree]
    by_cases hw : w = v
    · subst hw
      simp [removed, hnext]
    · simp [removed_of_ne hw, hw]
  · rw [vmaRelease, setNext, setVma_sets, setSet, linkPrev_sets, linkNext_sets]
    simp only [Function.update_self, Function.update_idem]
    rfl

/-- `vma_remove` keeps the invariant. -/
theorem Rep.remove (h : s.Rep) (hv : v ∈ (s.sets i).tree) : (s.vmaRemove i v).Rep := by
  obtain ⟨l₁, l₂, htree⟩ := List.append_of_mem hv
  have hnodup := htree ▸ h.ordered.nodup i
  obtain ⟨hnodup₁, hnodup₂, hdisjoint⟩ := List.nodup_append'.mp hnodup
  have hv₁ : v ∉ l₁ := fun hmem => hdisjoint hmem List.mem_cons_self
  have hv₂ : v ∉ l₂ := (List.nodup_cons.mp hnodup₂).1
  have herase : (s.sets i).tree.erase v = l₁ ++ l₂ := by
    rw [htree, List.erase_append_right _ hv₁, List.erase_cons_head]
  have hforward := htree ▸ h.forward i
  have hbackward := h.backward i
  rw [htree, List.reverse_append, List.reverse_cons, List.append_assoc, List.singleton_append]
    at hbackward
  -- the links of `v` are its neighbours
  have hnext : (s.vmaPool v).next = l₂.head? := by
    obtain ⟨r, -, -, hseg⟩ := Chain.segment_append.mp hforward
    exact hseg.head
  have hprev : (s.vmaPool v).prev = l₁.getLast? := by
    obtain ⟨r, -, -, hseg⟩ := Chain.segment_append.mp hbackward
    exact hseg.head.trans List.head?_reverse
  have hmem : ∀ {w}, w ∈ l₁ ++ l₂ → w ≠ v := by
    rintro w hw rfl
    exact (List.mem_append.mp hw).elim hv₁ hv₂
  have hprev_ne : (s.vmaPool v).prev ≠ some v := fun heq =>
    hv₁ (List.mem_of_getLast? (hprev.symm.trans heq))
  have hnext_ne : (s.vmaPool v).next ≠ some v := fun heq =>
    hv₂ (List.mem_of_head? (hnext.symm.trans heq))
  rw [vmaRemove_eq hprev_ne hnext_ne]
  obtain ⟨free, hchain, hnodup_free, hplace⟩ := h.one_place
  have hfree : ∀ w ∈ free, ∀ j, w ∉ (s.sets j).tree := by
    intro w hw
    rcases hplace w with ⟨-, hnot⟩ | ⟨hnot, -⟩
    · exact hnot
    · exact absurd hw hnot
  have hne : ∀ {j w}, j ≠ i → w ∈ (s.sets j).tree → w ≠ v := by
    rintro j w hj hw rfl
    exact hj (h.tree_unique hw hv)
  -- only records of the set get new links
  have hnext_eq : ∀ w ≠ v, w ∉ (s.sets i).tree →
      ((s.removed i v).vmaPool w).next = (s.vmaPool w).next := by
    intro w hwv hw
    rw [removed_of_ne hwv]
    refine if_neg fun heq => hw ?_
    rw [htree]
    exact List.mem_append_left _ (List.mem_of_getLast? (hprev.symm.trans heq))
  have hprev_eq : ∀ w ≠ v, w ∉ (s.sets i).tree →
      ((s.removed i v).vmaPool w).prev = (s.vmaPool w).prev := by
    intro w hwv hw
    rw [removed_of_ne hwv]
    refine if_neg fun heq => hw ?_
    rw [htree]
    exact List.mem_append_right _
      (List.mem_cons_of_mem v (List.mem_of_head? (hnext.symm.trans heq)))
  have hsublist : (l₁ ++ l₂).Sublist (s.sets i).tree := by
    rw [← herase]
    exact List.erase_sublist
  refine ⟨fun j => ?_, fun j => ?_, fun j => ?_, fun j => ?_, v :: free, ⟨rfl, ?_⟩, ?_, fun w => ?_⟩
  · by_cases hj : j = i
    · subst hj
      rw [removed_sets_self, herase]
      refine hforward.erase hnodup (fun w hw => ?_) (fun w hw hlast => ?_) (by rw [hprev])
      · rw [removed_of_ne (hmem (List.mem_append_left _ (List.mem_of_getLast? hw))), hprev]
        exact if_pos hw
      · rw [removed_of_ne (hmem hw), hprev]
        exact if_neg hlast
    · rw [removed_sets_of_ne hj]
      exact (h.forward j).congr fun w hw =>
        hnext_eq w (hne hj hw) fun hw' => hj (h.tree_unique hw hw')
  · by_cases hj : j = i
    · subst hj
      rw [removed_sets_self, herase, List.reverse_append]
      refine hbackward.erase ?_ (fun w hw => ?_) (fun w hw hlast => ?_) ?_
      · have := List.nodup_reverse.mpr hnodup
        simpa using this
      · rw [List.getLast?_reverse] at hw
        rw [removed_of_ne (hmem (List.mem_append_right _ (List.mem_of_head? hw))), hnext]
        exact if_pos hw
      · rw [List.getLast?_reverse] at hlast
        rw [← List.reverse_append, List.mem_reverse] at hw
        rw [removed_of_ne (hmem hw), hnext]
        exact if_neg hlast
      · rw [List.getLast?_reverse, hnext]
    · rw [removed_sets_of_ne hj]
      exact (h.backward j).congr fun w hw =>
        hprev_eq w (hne hj (List.mem_reverse.mp hw)) fun hw' =>
          hj (h.tree_unique (List.mem_reverse.mp hw) hw')
  · by_cases hj : j = i
    · subst hj
      rw [removed_sets_self, herase]
      refine ((h.start_lt j).sublist hsublist).imp_of_mem fun {u w} hu hw hlt => ?_
      rw [removed_of_ne (hmem hu), removed_of_ne (hmem hw)]
      exact hlt
    · rw [removed_sets_of_ne hj]
      refine (h.start_lt j).imp_of_mem fun {u w} hu hw hlt => ?_
      rw [removed_of_ne (hne hj hu), removed_of_ne (hne hj hw)]
      exact hlt
  · by_cases hj : j = i
    · subst hj
      rw [removed_sets_self, herase]
      refine ((h.end_le j).sublist hsublist).imp_of_mem fun {u w} hu hw hle => ?_
      rw [removed_of_ne (hmem hu), removed_of_ne (hmem hw)]
      exact hle
    · rw [removed_sets_of_ne hj]
      refine (h.end_le j).imp_of_mem fun {u w} hu hw hle => ?_
      rw [removed_of_ne (hne hj hu), removed_of_ne (hne hj hw)]
      exact hle
  · have hself : ((s.removed i v).vmaPool v).next = s.vmaFree := by
      simp [removed]
    show Chain.Segment _ ((s.removed i v).vmaPool v).next free none
    rw [hself]
    refine hchain.congr fun w hw => hnext_eq w ?_ (hfree w hw i)
    rintro rfl
    exact hfree w hw i hv
  · exact List.nodup_cons.mpr ⟨fun hmem => hfree v hmem i hv, hnodup_free⟩
  · have hmem_tree : ∀ j, w ∈ ((s.removed i v).sets j).tree ↔ w ∈ (s.sets j).tree ∧ w ≠ v := by
      intro j
      by_cases hj : j = i
      · subst hj
        rw [removed_sets_self, List.Nodup.mem_erase_iff (h.ordered.nodup j), and_comm]
      · rw [removed_sets_of_ne hj]
        exact ⟨fun hw => ⟨hw, hne hj hw⟩, fun hw => hw.1⟩
    simp only [hmem_tree, List.mem_cons]
    by_cases hw : w = v
    · simp [hw]
    · simpa [hw] using hplace w

/-! ### `vma_set_init`

All records become free ones. -/

/-- The loop of `vma_set_init` makes a chain of all records. -/
theorem segment_vmaPoolAt : Chain.Segment (fun v : VmaId => vmaPoolAt (v + 1)) (vmaPoolAt 0)
    (List.finRange vmaPoolMax) none := by
  decide +kernel

omit [DecidableEq S] in
/-- With all trees empty, all records may be made free. -/
theorem rep_of_empty {pool : VmaId → Vma} {sets : S → VmaSet}
    (hsets : ∀ j, sets j = ⟨[], none, none⟩) :
    (⟨fun v => { pool v with next := vmaPoolAt (v + 1) }, vmaPoolAt 0, sets⟩ : VmaState S).Rep := by
  refine ⟨fun j => ?_, fun j => ?_, fun j => ?_, fun j => ?_, List.finRange vmaPoolMax,
    segment_vmaPoolAt, List.nodup_finRange _, fun v => Or.inl ⟨List.mem_finRange v, fun j => ?_⟩⟩
  · simp [hsets, Chain.segment_nil]
  · simp [hsets, Chain.segment_nil]
  · simp [hsets]
  · simp [hsets]
  · simp [hsets]

omit [DecidableEq S] in
/-- A set without areas is empty. -/
theorem Rep.eq_empty (h : s.Rep) (htree : (s.sets i).tree = []) : s.sets i = ⟨[], none, none⟩ := by
  have hfirst := (htree ▸ h.forward i).head
  have hlast := h.backward i
  rw [htree] at hlast
  have hlast := hlast.head
  cases hset : s.sets i with
  | mk tree first last =>
      rw [hset] at hfirst hlast htree
      dsimp only at hfirst hlast htree
      rw [hfirst, hlast, htree]
      rfl

/-- `vma_set_init` when no record is free. -/
theorem vmaSetInit_of_none (hfree : s.vmaFree = none) : s.vmaSetInit i =
    ⟨fun v => { s.vmaPool v with next := vmaPoolAt (v + 1) }, vmaPoolAt 0,
      Function.update s.sets i ⟨[], none, none⟩⟩ := by
  simp [vmaSetInit, setSet, hfree]

/-- `vma_set_init` when a record is free. -/
theorem vmaSetInit_of_some (hfree : s.vmaFree = some v) :
    s.vmaSetInit i = s.setSet i fun _ => ⟨[], none, none⟩ := by
  simp [vmaSetInit, setSet, hfree]

/-! ### Runs

Calls in any order, for any number of sets over one pool. -/

/-- One call. `vma_remove` is for the records of its set. -/
def step (s : VmaState S) : VmaCall S → Option (VmaState S)
  | .setInit i => some (s.vmaSetInit i)
  | .insert i start endAddr prot kind => some (s.vmaInsert i start endAddr prot kind).2
  | .remove i v => if v ∈ (s.sets i).tree then some (s.vmaRemove i v) else none

/-- The calls after which the structures agree: an empty interval is not inserted at the start of
another one, a set is set up when it has no records, and while records of other sets are in use one
record is left. -/
def CallOk (s : VmaState S) : VmaCall S → Prop
  | .setInit i =>
      (s.vmaFree ≠ none → (s.sets i).tree = []) ∧
        (s.vmaFree = none → ∀ j, j ≠ i → (s.sets j).tree = [])
  | .insert i start endAddr _ _ =>
      s.vmaFree ≠ none → endAddr ≤ start → ∀ v ∈ (s.sets i).tree, (s.vmaPool v).start ≠ start
  | .remove _ _ => True

instance [Fintype S] (s : VmaState S) : (c : VmaCall S) → Decidable (s.CallOk c)
  | .setInit i => inferInstanceAs (Decidable ((s.vmaFree ≠ none → (s.sets i).tree = []) ∧
      (s.vmaFree = none → ∀ j, j ≠ i → (s.sets j).tree = [])))
  | .insert i start endAddr _ _ => inferInstanceAs (Decidable
      (s.vmaFree ≠ none → endAddr ≤ start → ∀ v ∈ (s.sets i).tree, (s.vmaPool v).start ≠ start))
  | .remove _ _ => inferInstanceAs (Decidable True)

/-- `vma_set_init`, for a set without areas. -/
theorem Rep.setInit (h : s.Rep) (hok : s.CallOk (.setInit i)) : (s.vmaSetInit i).Rep := by
  cases hfree : s.vmaFree with
  | none =>
      rw [vmaSetInit_of_none hfree]
      apply rep_of_empty
      intro j
      by_cases hj : j = i
      · rw [hj, Function.update_self]
      · rw [Function.update_of_ne hj, h.eq_empty (hok.2 hfree j hj)]
  | some v =>
      have hempty := h.eq_empty (hok.1 (by simp [hfree]))
      rw [vmaSetInit_of_some hfree, setSet, ← hempty, Function.update_eq_self]
      exact h

/-- One call keeps the invariant. -/
theorem Rep.step (h : s.Rep) {c : VmaCall S} (hok : s.CallOk c) (hstep : s.step c = some s') :
    s'.Rep := by
  -- one lemma for each operation
  cases c with
  | setInit i =>
      obtain rfl := Option.some.inj hstep
      exact h.setInit hok
  | insert i start endAddr prot kind =>
      obtain rfl := Option.some.inj hstep
      exact h.insert prot kind hok
  | remove i v =>
      rw [VmaState.step] at hstep
      split at hstep
      next hv =>
        obtain rfl := Option.some.inj hstep
        exact h.remove hv
      next => cases hstep

/-- The first `vma_set_init` makes all records free. -/
theorem rep_zero (i : S) : (zero.vmaSetInit i).Rep := by
  rw [vmaSetInit_of_none rfl]
  apply rep_of_empty
  intro j
  rw [Function.update_apply]
  split <;> rfl

/-! ### The other calls

What goes wrong after a call outside of the condition. -/

omit [DecidableEq S] in
/-- An empty interval fits where another one starts. -/
theorem Rep.fits_of_empty (h : s.Rep) {start endAddr : BitVec 64} (hempty : endAddr ≤ start)
    {w : VmaId} (hw : w ∈ (s.sets i).tree) (hstart : (s.vmaPool w).start = start) :
    s.Fits i start endAddr := by
  have hends := h.end_le i
  rw [← s.below_append_above i start] at hends hw
  -- the record with the same start counts as above
  have habove : w ∈ s.above i start := by
    rcases List.mem_append.mp hw with hbelow | habove
    · have := lt_of_mem_below hbelow
      rw [hstart, BitVec.lt_def] at this
      omega
    · exact habove
  constructor
  · intro p hp
    have := (List.pairwise_append.mp hends).2.2 p (List.mem_of_getLast? hp) w habove
    rwa [hstart] at this
  · intro n hn
    have hge := h.ordered.le_of_mem_above (List.mem_of_head? hn)
    rw [BitVec.le_def] at hempty hge ⊢
    omega

/-- A second interval at the same start is lost for the tree. -/
theorem Rep.not_consistent_insert (h : s.Rep) {start endAddr : BitVec 64} (prot kind : BitVec 64)
    (hfree : s.vmaFree ≠ none) (hempty : endAddr ≤ start) {w : VmaId} (hw : w ∈ (s.sets i).tree)
    (hstart : (s.vmaPool w).start = start) :
    ¬ (s.vmaInsert i start endAddr prot kind).2.Consistent := by
  intro hc
  rcases h.ordered.vmaInsert i start endAddr prot kind with ⟨-, hnot⟩ | ⟨v, hv, -, heq⟩
  · exact hnot hfree (h.fits_of_empty hempty hw hstart)
  · rw [heq, newTree, if_pos ⟨w, hw, hstart⟩] at hc
    obtain ⟨rest, hchain, hnodup, -⟩ := h.inserted_free (s.sets i).tree hv
      (r := s.newVma i start endAddr prot kind) fun p hp => by
        rw [← s.below_append_above i start]
        exact List.mem_append_left _ (List.mem_of_getLast? hp)
    -- the new record is neither free nor in a tree
    have htree : ∀ j, v ∉ ((s.inserted i v (s.newVma i start endAddr prot kind)
        (s.sets i).tree).sets j).tree := by
      intro j
      by_cases hj : j = i
      · rw [hj, inserted_sets_self]
        exact h.ordered.notMem_tree hv i
      · rw [inserted_sets_of_ne hj]
        exact h.ordered.notMem_tree hv j
    obtain ⟨free, hfree', -, hplace⟩ := hc.one_place
    rcases hplace v with ⟨hmem, -⟩ | ⟨-, j, hj, -⟩
    · rw [hfree'.unique hchain] at hmem
      exact (List.nodup_cons.mp hnodup).1 hmem
    · exact htree j hj

/-- A set that still has records loses them. -/
theorem Rep.not_consistent_setInit (h : s.Rep) (hfree : s.vmaFree = some v) {w : VmaId}
    (hw : w ∈ (s.sets i).tree) : ¬ (s.vmaSetInit i).Consistent := by
  intro hc
  rw [vmaSetInit_of_some hfree] at hc
  obtain ⟨free, hchain, -, hplace⟩ := h.one_place
  obtain ⟨free', hchain', -, hplace'⟩ := hc.one_place
  obtain rfl := Chain.Segment.unique hchain hchain'
  rcases hplace' w with ⟨hmem, -⟩ | ⟨-, j, hj, -⟩
  · rcases hplace w with ⟨-, hnot⟩ | ⟨hnot, -⟩
    · exact hnot i hw
    · exact hnot hmem
  · by_cases hji : j = i
    · simp [setSet, hji] at hj
    · simp only [setSet, Function.update_of_ne hji] at hj
      exact hji (h.tree_unique hj hw)

/-- Records of other sets are made free. -/
theorem not_consistent_setInit_of_none (hfree : s.vmaFree = none) {j : S} (hj : j ≠ i)
    {w : VmaId} (hw : w ∈ (s.sets j).tree) : ¬ (s.vmaSetInit i).Consistent := by
  intro hc
  rw [vmaSetInit_of_none hfree] at hc
  obtain ⟨free, hchain, -, hplace⟩ := hc.one_place
  obtain rfl := Chain.Segment.unique hchain segment_vmaPoolAt
  rcases hplace w with ⟨-, hnot⟩ | ⟨hnot, -⟩
  · apply hnot j
    simpa only [Function.update_of_ne hj] using hw
  · exact hnot (List.mem_finRange w)

/-- The condition on the calls is exact. -/
theorem Rep.consistent_iff (h : s.Rep) {c : VmaCall S} (hstep : s.step c = some s') :
    s'.Consistent ↔ s.CallOk c := by
  refine ⟨fun hc => ?_, fun hok => (h.step hok hstep).consistent⟩
  -- where the condition of an operation fails, the state that it leaves is shown to be inconsistent
  cases c with
  | setInit i =>
      obtain rfl := Option.some.inj hstep
      constructor
      · intro hfree
        obtain ⟨v, hv⟩ := Option.ne_none_iff_exists'.mp hfree
        rw [List.eq_nil_iff_forall_not_mem]
        exact fun w hw => h.not_consistent_setInit hv hw hc
      · intro hfree j hj
        rw [List.eq_nil_iff_forall_not_mem]
        exact fun w hw => not_consistent_setInit_of_none hfree hj hw hc
  | insert i start endAddr prot kind =>
      obtain rfl := Option.some.inj hstep
      exact fun hfree hempty w hw hstart =>
        h.not_consistent_insert prot kind hfree hempty hw hstart hc
  | remove i v => trivial

/-- The invariant holds in every run of calls that satisfy `CallOk`. -/
theorem rep_of_calls (hrun : Machine.Run step CallOk (zero.vmaSetInit i) s) : s.Rep := by
  apply hrun.invariant (rep_zero i)
  intro s s' c h hok hstep
  exact h.step hok hstep

/-- In every run of calls that satisfy `CallOk`, the list and the tree of each set agree and each
record is in one place; and the first call that does not satisfy it breaks this. -/
theorem sets_consistent_of_run (hrun : Machine.Run step CallOk (zero.vmaSetInit i) s) :
    s.Consistent ∧ ∀ c s', s.step c = some s' → (s'.Consistent ↔ s.CallOk c) := by
  have h : s.Rep := rep_of_calls hrun
  exact ⟨h.consistent, fun c s' hstep => h.consistent_iff hstep⟩

/-- Two sets, an empty interval, and a record that goes back to the free list. -/
theorem sets_consistent_of_run_twoSets : ∃ s : VmaState Bool,
    Machine.Run step CallOk (zero.vmaSetInit true) s ∧ (s.sets true).tree.length = 1 ∧
      (s.sets false).tree.length = 1 ∧ s.Consistent := by
  obtain ⟨s, hrun, hcheck⟩ := Machine.exists_run_of_execAll step CallOk
    (zero.vmaSetInit true : VmaState Bool)
    [.setInit false, .insert true 0x3000#64 0x5000#64 3#64 4#64,
      .insert true 0x1000#64 0x1000#64 3#64 4#64, .insert false 0x1000#64 0x2000#64 3#64 4#64,
      .remove true ⟨0, by decide⟩]
    (fun s => (s.sets true).tree.length == 1 && (s.sets false).tree.length == 1) (by decide +kernel)
  rw [Bool.and_eq_true, beq_iff_eq, beq_iff_eq] at hcheck
  exact ⟨s, hrun, hcheck.1, hcheck.2, (sets_consistent_of_run hrun).1⟩

/-- Two requests of size zero, as `serve` passes them on: both records are on the list of the set,
but one only is in its tree. -/
theorem not_consistent_of_sameStart : ∃ s : VmaState Unit,
    Machine.Run step (fun _ _ => True) (zero.vmaSetInit ()) s ∧ (s.sets ()).tree.length = 1 ∧
      (∃ l, Chain.Segment (fun v => (s.vmaPool v).next) (s.sets ()).first l none ∧ l.length = 2) ∧
      ¬ s.Consistent := by
  obtain ⟨s, hrun, hcheck⟩ := Machine.exists_run_of_execAll step (fun _ _ => True)
    (zero.vmaSetInit () : VmaState Unit)
    [.insert () 0x700000000000#64 0x700000000000#64 3#64 4#64,
      .insert () 0x700000000000#64 0x700000000000#64 3#64 4#64]
    (fun s => (s.sets ()).tree.length == 1 && decide (Chain.Segment (fun v => (s.vmaPool v).next)
      (s.sets ()).first [⟨1, by decide⟩, ⟨0, by decide⟩] none)) (by decide +kernel)
  rw [Bool.and_eq_true, beq_iff_eq, decide_eq_true_eq] at hcheck
  obtain ⟨htree, hlist⟩ := hcheck
  refine ⟨s, hrun, htree, ⟨_, hlist, rfl⟩, fun hc => ?_⟩
  rw [← hlist.unique (hc.list_eq_tree ())] at htree
  cases htree

end VmaState

end Koharu
