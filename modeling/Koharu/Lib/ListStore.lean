import Mathlib.Data.List.Nodup
import Mathlib.Logic.Function.Basic

/-!
# Families of intrusive lists

An intrusive list threads the objects themselves: the links live in a node inside the object,
so one node is on at most one list at a time, and unlinking takes the node alone, from
whichever list it is on. `ListStore H N` is such a family, with list heads `H` and nodes `N`.
Next to the contents of every list it records the list each node is on, and it carries the
proof that the two agree; a node on two lists, or twice on one, cannot be written down.

The three operations are partial. Linking a node that is already linked, and unlinking a node
that is not, are the two uses that corrupt the links of a real intrusive list; both give
`none` here.

* `pushFront`, `pushBack`: link a node at the front or at the back of a list;
* `unlink`: take a node off the list it is on.
-/

/-- A family of lists with heads `H` that share the nodes `N`. -/
@[ext]
structure ListStore (H N : Type*) where
  /-- The nodes on each list, from the front. -/
  queue : H → List N
  /-- The list a node is on. -/
  home : N → Option H
  /-- No list holds a node twice. -/
  nodup : ∀ h, (queue h).Nodup
  /-- The two views agree. -/
  mem_queue : ∀ h n, n ∈ queue h ↔ home n = some h

namespace ListStore

variable {H N : Type*}

/-- The store with every list empty. -/
def empty : ListStore H N where
  queue _ := []
  home _ := none
  nodup _ := List.nodup_nil
  mem_queue := by simp

/-- An unlinked node is on no list. -/
theorem notMem_queue {st : ListStore H N} {n : N} (hn : st.home n = none) (h : H) :
    n ∉ st.queue h := by
  simp [st.mem_queue, hn]

/-- A node on a list is linked there. -/
theorem home_of_mem {st : ListStore H N} {n : N} {h : H} (hmem : n ∈ st.queue h) :
    st.home n = some h :=
  (st.mem_queue h n).mp hmem

variable [DecidableEq H] [DecidableEq N]

/-- Replace the list at `h`, and with it the home of the one node that moved. -/
private def setQueue (st : ListStore H N) (h : H) (l : List N) (n : N) (dest : Option H)
    (hl : l.Nodup) (hdest : dest = none ∨ dest = some h)
    (hfrom : st.home n = none ∨ st.home n = some h)
    (hn : n ∈ l ↔ dest = some h) (hrest : ∀ m, m ≠ n → (m ∈ l ↔ m ∈ st.queue h)) :
    ListStore H N where
  queue := Function.update st.queue h l
  home := Function.update st.home n dest
  nodup g := by
    by_cases hg : g = h
    · subst hg; rwa [Function.update_self]
    · rw [Function.update_of_ne hg]; exact st.nodup g
  mem_queue g m := by
    by_cases hg : g = h <;> by_cases hm : m = n
    · subst hg hm; rwa [Function.update_self, Function.update_self]
    · subst hg
      rw [Function.update_self, Function.update_of_ne hm, hrest m hm, st.mem_queue]
    · -- the moved node was, and is, on no other list
      subst hm
      rw [Function.update_of_ne hg, Function.update_self, st.mem_queue]
      have hfrom' : st.home m ≠ some g := by
        rcases hfrom with hf | hf <;> simp [hf, Ne.symm hg]
      have hdest' : dest ≠ some g := by
        rcases hdest with ht | ht <;> simp [ht, Ne.symm hg]
      simp [hfrom', hdest']
    · rw [Function.update_of_ne hg, Function.update_of_ne hm, st.mem_queue]

/-- The store with the unlinked node `n` put at the front of the list at `h`. -/
def consAt (st : ListStore H N) (n : N) (h : H) (hn : st.home n = none) : ListStore H N :=
  st.setQueue h (n :: st.queue h) n (some h)
    (List.nodup_cons.mpr ⟨notMem_queue hn h, st.nodup h⟩) (Or.inr rfl) (Or.inl hn)
    (by simp) (fun m hm => by simp [hm])

/-- The store with the unlinked node `n` put at the back of the list at `h`. -/
def snocAt (st : ListStore H N) (n : N) (h : H) (hn : st.home n = none) : ListStore H N :=
  st.setQueue h (st.queue h ++ [n]) n (some h)
    (by simpa [List.nodup_append, st.nodup h] using
      fun m hm (hmn : m = n) => notMem_queue hn h (hmn ▸ hm))
    (Or.inr rfl) (Or.inl hn) (by simp) (fun m hm => by simp [hm])

/-- The store with the node `n` taken off the list at `h`. -/
def eraseAt (st : ListStore H N) (n : N) (h : H) (hn : st.home n = some h) : ListStore H N :=
  st.setQueue h ((st.queue h).erase n) n none ((st.nodup h).erase n) (Or.inl rfl) (Or.inr hn)
    (by simp [(st.nodup h).mem_erase_iff])
    (fun m hm => by simp [(st.nodup h).mem_erase_iff, hm])

/-- The store in which all nodes of the list at `h` are on the list at `g`, which was empty. -/
def moveAll (st : ListStore H N) (h g : H) (hg : st.queue g = []) (hne : h ≠ g) :
    ListStore H N where
  queue := Function.update (Function.update st.queue h []) g (st.queue h)
  home n := if st.home n = some h then some g else st.home n
  nodup i := by
    by_cases hi : i = g
    · rw [hi, Function.update_self]
      exact st.nodup h
    · rw [Function.update_of_ne hi]
      by_cases hi' : i = h
      · rw [hi', Function.update_self]
        exact List.nodup_nil
      · rw [Function.update_of_ne hi']
        exact st.nodup i
  mem_queue i n := by
    have hnone : st.home n ≠ some g := by
      intro heq
      have hmem := (st.mem_queue g n).mpr heq
      rw [hg] at hmem
      cases hmem
    -- the list that is filled, the one that is emptied, and the others
    by_cases hi : i = g
    · rw [hi, Function.update_self, st.mem_queue]
      split
      case isTrue hn => exact iff_of_true hn rfl
      case isFalse hn => exact iff_of_false hn hnone
    · rw [Function.update_of_ne hi]
      by_cases hi' : i = h
      · rw [hi', Function.update_self]
        split
        case isTrue => exact iff_of_false List.not_mem_nil fun heq => hne (Option.some.inj heq).symm
        case isFalse hn => exact iff_of_false List.not_mem_nil hn
      · rw [Function.update_of_ne hi', st.mem_queue]
        split
        case isTrue hn =>
          rw [hn]
          exact iff_of_false (fun heq => hi' (Option.some.inj heq).symm)
            fun heq => hi (Option.some.inj heq).symm
        case isFalse => rfl

omit [DecidableEq N] in
/-- The queues after a move, one at a time. -/
theorem moveAll_queue_apply (st : ListStore H N) {h g : H} (hg : st.queue g = []) (hne : h ≠ g)
    (i : H) : (st.moveAll h g hg hne).queue i =
      if i = g then st.queue h else if i = h then [] else st.queue i := by
  show Function.update (Function.update st.queue h []) g (st.queue h) i = _
  rw [Function.update_apply, Function.update_apply]

omit [DecidableEq N] in
/-- The homes after a move, one node at a time. -/
theorem moveAll_home_apply (st : ListStore H N) {h g : H} (hg : st.queue g = []) (hne : h ≠ g)
    (n : N) : (st.moveAll h g hg hne).home n = if st.home n = some h then some g else st.home n :=
  rfl

/-- The node is the first of the queue. -/
@[simp]
theorem consAt_queue (st : ListStore H N) (n : N) (h : H) (hn : st.home n = none) :
    (st.consAt n h hn).queue = Function.update st.queue h (n :: st.queue h) := rfl

/-- The node is in the queue. -/
@[simp]
theorem consAt_home (st : ListStore H N) (n : N) (h : H) (hn : st.home n = none) :
    (st.consAt n h hn).home = Function.update st.home n (some h) := rfl

/-- The node is the last of the queue. -/
@[simp]
theorem snocAt_queue (st : ListStore H N) (n : N) (h : H) (hn : st.home n = none) :
    (st.snocAt n h hn).queue = Function.update st.queue h (st.queue h ++ [n]) := rfl

/-- The node is in the queue. -/
@[simp]
theorem snocAt_home (st : ListStore H N) (n : N) (h : H) (hn : st.home n = none) :
    (st.snocAt n h hn).home = Function.update st.home n (some h) := rfl

/-- The node is gone from its queue. -/
@[simp]
theorem eraseAt_queue (st : ListStore H N) (n : N) (h : H) (hn : st.home n = some h) :
    (st.eraseAt n h hn).queue = Function.update st.queue h ((st.queue h).erase n) := rfl

/-- The node is in no queue. -/
@[simp]
theorem eraseAt_home (st : ListStore H N) (n : N) (h : H) (hn : st.home n = some h) :
    (st.eraseAt n h hn).home = Function.update st.home n none := rfl

/-! ### The lists after an operation, list by list and node by node

The operations change one list and the home of one node. Each is stated for a single list or node,
so that `simp` can decide by comparing them. -/

/-- The queues after a node was put at the end of one, one queue at a time. -/
@[grind =]
theorem snocAt_queue_apply (st : ListStore H N) (n : N) (h g : H) (hn : st.home n = none) :
    (st.snocAt n h hn).queue g = if g = h then st.queue h ++ [n] else st.queue g :=
  Function.update_apply ..

/-- The homes after it, one node at a time. -/
@[grind =]
theorem snocAt_home_apply (st : ListStore H N) (n m : N) (h : H) (hn : st.home n = none) :
    (st.snocAt n h hn).home m = if m = n then some h else st.home m :=
  Function.update_apply ..

/-- The queues after a node was put at the front of one, one queue at a time. -/
theorem consAt_queue_apply (st : ListStore H N) (n : N) (h g : H) (hn : st.home n = none) :
    (st.consAt n h hn).queue g = if g = h then n :: st.queue h else st.queue g :=
  Function.update_apply ..

/-- The homes after it, one node at a time. -/
theorem consAt_home_apply (st : ListStore H N) (n m : N) (h : H) (hn : st.home n = none) :
    (st.consAt n h hn).home m = if m = n then some h else st.home m :=
  Function.update_apply ..

/-- The queues after a node was taken out, one queue at a time. -/
@[grind =]
theorem eraseAt_queue_apply (st : ListStore H N) (n : N) (h g : H) (hn : st.home n = some h) :
    (st.eraseAt n h hn).queue g = if g = h then (st.queue h).erase n else st.queue g :=
  Function.update_apply ..

/-- The homes after it, one node at a time. -/
@[grind =]
theorem eraseAt_home_apply (st : ListStore H N) (n m : N) (h : H) (hn : st.home n = some h) :
    (st.eraseAt n h hn).home m = if m = n then none else st.home m :=
  Function.update_apply ..

/-! ### The partial operations

The operations of an intrusive list are undefined on a node that is linked in the wrong place; here
they give `none` there. -/

/-- Link `n` at the front of the list at `h`; undefined when `n` is linked already. -/
def pushFront (st : ListStore H N) (n : N) (h : H) : Option (ListStore H N) :=
  if hn : st.home n = none then some (st.consAt n h hn) else none

/-- Link `n` at the back of the list at `h`; undefined when `n` is linked already. -/
def pushBack (st : ListStore H N) (n : N) (h : H) : Option (ListStore H N) :=
  if hn : st.home n = none then some (st.snocAt n h hn) else none

/-- Take `n` off the list it is on; undefined when it is on none. -/
def unlink (st : ListStore H N) (n : N) : Option (ListStore H N) :=
  match hn : st.home n with
  | none => none
  | some h => some (st.eraseAt n h hn)

/-- A node in no queue can be put at the front of one. -/
theorem pushFront_eq_some {st : ListStore H N} {n : N} (h : H) (hn : st.home n = none) :
    st.pushFront n h = some (st.consAt n h hn) :=
  dif_pos hn

/-- It can be put at the end of one. -/
theorem pushBack_eq_some {st : ListStore H N} {n : N} (h : H) (hn : st.home n = none) :
    st.pushBack n h = some (st.snocAt n h hn) :=
  dif_pos hn

/-- A node in a queue can be taken out. -/
theorem unlink_eq_some {st : ListStore H N} {n : N} {h : H} (hn : st.home n = some h) :
    st.unlink n = some (st.eraseAt n h hn) := by
  unfold unlink
  split
  next hnone => rw [hn] at hnone; cases hnone
  next g hg =>
    obtain rfl : g = h := Option.some.inj (hg.symm.trans hn)
    rfl

/-- Linking is undefined on a linked node. -/
theorem pushBack_eq_none {st : ListStore H N} {n : N} (h : H) (hn : st.home n ≠ none) :
    st.pushBack n h = none :=
  dif_neg hn

omit [DecidableEq H] in
/-- The length of the list a node is unlinked from drops by one. -/
theorem length_erase_add_one {st : ListStore H N} {n : N} {h : H} (hn : st.home n = some h) :
    ((st.queue h).erase n).length + 1 = (st.queue h).length := by
  have hmem : n ∈ st.queue h := (st.mem_queue h n).mpr hn
  have hpos := List.length_pos_of_mem hmem
  rw [List.length_erase_of_mem hmem]
  omega

/-! ### Stores without some of the nodes

What is left when some of the nodes are taken off, in the same order. -/

/-- The lists of `st'` are those of `st`, in the same order, without the nodes that satisfy `p`. -/
def Without (p : N → Prop) [DecidablePred p] (st st' : ListStore H N) : Prop :=
  ∀ h, st'.queue h = (st.queue h).filter fun n => ¬ p n

omit [DecidableEq H] [DecidableEq N] in
/-- Nothing has to be taken off if none of these nodes is linked. -/
theorem without_self_iff {p : N → Prop} [DecidablePred p] {st : ListStore H N} :
    Without p st st ↔ ∀ n, p n → st.home n = none := by
  constructor
  · intro h n hn
    by_contra hne
    obtain ⟨g, hg⟩ := Option.ne_none_iff_exists'.mp hne
    have hmem := (st.mem_queue g n).mpr hg
    rw [h g, List.mem_filter] at hmem
    simp [hn] at hmem
  · intro h g
    refine (List.filter_eq_self.mpr fun n hn => ?_).symm
    have hp : ¬ p n := by
      intro hp
      have hnone := h n hp
      rw [(st.mem_queue g n).mp hn] at hnone
      cases hnone
    simpa using hp

end ListStore
