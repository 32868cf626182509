import Koharu.Lib.ListStore

/-!
# The kernel's linked lists

`include/koharu/list.h` has circular doubly linked lists with the links inside the listed
objects: a `list_head` points at its first and last node, an empty one at itself. This module
translates its functions as the pointer writes they are, over a memory of `next` and `prev`
words, and relates them to `ListStore`, which every other module of the development uses for
the lists of the kernel.

* `Links`: the `next` and `prev` words of all list heads and nodes, `none` being `NULL`;
* `listAdd`, `listAddTail`, `listDel`, `listEmpty`: the functions of `list.h`. They are partial,
  a `NULL` link that the code would follow has no result;
* `Represents`: the words hold a given `ListStore`.

`represents_listAdd`, `represents_listAddTail` and `represents_listDel` say that the writes of
`list.h` carry out `ListStore.pushFront`, `pushBack` and `unlink` wherever those are defined.
-/

namespace Koharu

/-- A pointer to a list head or to a node: `list_head` and `list_node` have the same layout and
the code casts between them. -/
inductive Ptr (H N : Type*)
  | head (h : H)
  | node (n : N)
  deriving DecidableEq

/-- The `next` and `prev` words of every list head and node. -/
structure Links (H N : Type*) where
  next : Ptr H N → Option (Ptr H N)
  prev : Ptr H N → Option (Ptr H N)

namespace Links

variable {H N : Type*} [DecidableEq H] [DecidableEq N]

/-- `p->next = q`. -/
def setNext (m : Links H N) (p : Ptr H N) (q : Option (Ptr H N)) : Links H N :=
  { m with next := Function.update m.next p q }

/-- `p->prev = q`. -/
def setPrev (m : Links H N) (p : Ptr H N) (q : Option (Ptr H N)) : Links H N :=
  { m with prev := Function.update m.prev p q }

/-- `list_init`. -/
def listInit (m : Links H N) (h : Ptr H N) : Links H N :=
  (m.setNext h (some h)).setPrev h (some h)

/-- `__list_add`. -/
def listAddBetween (m : Links H N) (new prev next : Ptr H N) : Links H N :=
  (((m.setPrev next (some new)).setNext new (some next)).setPrev new (some prev)).setNext prev
    (some new)

/-- `list_add`. -/
def listAdd (m : Links H N) (new head : Ptr H N) : Option (Links H N) :=
  (m.next head).map fun next => m.listAddBetween new head next

/-- `list_add_tail`. -/
def listAddTail (m : Links H N) (new head : Ptr H N) : Option (Links H N) :=
  (m.prev head).map fun prev => m.listAddBetween new prev head

/-- `__list_del`. -/
def listDelBetween (m : Links H N) (prev next : Ptr H N) : Links H N :=
  (m.setPrev next (some prev)).setNext prev (some next)

/-- `list_del`. -/
def listDel (m : Links H N) (node : Ptr H N) : Option (Links H N) := do
  let prev ← m.prev node
  let next ← m.next node
  return ((m.listDelBetween prev next).setNext node none).setPrev node none

/-- `list_empty`. -/
def listEmpty (m : Links H N) (head : Ptr H N) : Bool :=
  m.next head = some head

end Links

/-! ### Paths of links

A path is a segment of a ring. It is read only at its ends and in between, so that a write elsewhere
keeps it. -/

namespace Links

variable {H N : Type*} {m m' : Links H N} {x z : Ptr H N} {l l₁ l₂ : List N} {n : N}

/-- `x` and `y` are neighbours, linked both ways. -/
def Adjacent (m : Links H N) (x y : Ptr H N) : Prop :=
  m.next x = some y ∧ m.prev y = some x

/-- From `x` the links lead through the nodes `l` to `z`. -/
def Path (m : Links H N) : Ptr H N → List N → Ptr H N → Prop
  | x, [], z => m.Adjacent x z
  | x, n :: l, z => m.Adjacent x (.node n) ∧ m.Path (.node n) l z

/-- A path splits at any node on it. -/
theorem path_append :
    m.Path x (l₁ ++ n :: l₂) z ↔ m.Path x l₁ (.node n) ∧ m.Path (.node n) l₂ z := by
  induction l₁ generalizing x with
  | nil => simp [Path]
  | cons a l₁ ih => simp [Path, ih, and_assoc]

/-- A path reads `next` of all its nodes but the last, and `prev` of all but the first. -/
theorem Path.congr (h : m.Path x l z) (hx : m'.next x = m.next x) (hz : m'.prev z = m.prev z)
    (hl : ∀ a ∈ l, m'.next (.node a) = m.next (.node a) ∧ m'.prev (.node a) = m.prev (.node a)) :
    m'.Path x l z := by
  induction l generalizing x with
  | nil => exact ⟨hx.trans h.1, hz.trans h.2⟩
  | cons a l ih =>
      have ha := hl a List.mem_cons_self
      exact ⟨⟨hx.trans h.1.1, ha.2.trans h.1.2⟩,
        ih h.2 ha.1 fun b hb => hl b (List.mem_cons_of_mem _ hb)⟩

/-- A path ends with a step from a pointer on it. -/
theorem Path.exists_last (h : m.Path x l z) :
    (l = [] ∧ m.Adjacent x z) ∨
      ∃ l' a, l = l' ++ [a] ∧ m.Path x l' (.node a) ∧ m.Adjacent (.node a) z := by
  rcases List.eq_nil_or_concat' l with rfl | ⟨l', a, rfl⟩
  · exact Or.inl ⟨rfl, h⟩
  · exact Or.inr ⟨l', a, rfl, path_append.mp h⟩

end Links

/-! ### The links hold a `ListStore`

The intrusive lists of the source in terms of the abstract store that the other modules use. Each
operation reads and writes the words of a few neighbours only, and what it does to the rings is what
the store's operation does to the lists. -/

/-- The words of `m` hold the lists of `st`: from every head the links lead around, through
the nodes of its list in order, back to the head. -/
def Represents {H N : Type*} (m : Links H N) (st : ListStore H N) : Prop :=
  ∀ h, m.Path (.head h) (st.queue h) (.head h)

section Represents

variable {H N : Type*} {m m' : Links H N} {st : ListStore H N} {n : N} {h : H}

/-- The pointers of the ring of the list `h`. -/
def OnRing (st : ListStore H N) (h : H) : Ptr H N → Prop
  | .head g => g = h
  | .node a => st.home a = some h

/-- A ring is untouched by writes to the words of other rings and of unlinked nodes. -/
theorem Represents.path_of_agree (hrep : Represents m st) (h : H)
    (hagree : ∀ p, OnRing st h p → m'.next p = m.next p ∧ m'.prev p = m.prev p) :
    m'.Path (.head h) (st.queue h) (.head h) :=
  (hrep h).congr (hagree (.head h) rfl).1 (hagree (.head h) rfl).2
    fun _ ha => hagree _ (ListStore.home_of_mem ha)

variable [DecidableEq H] [DecidableEq N]

/-- `list_empty` tests the list it is given. -/
theorem Represents.listEmpty (hrep : Represents m st) (h : H) :
    m.listEmpty (.head h) = (st.queue h).isEmpty := by
  have hpath := hrep h
  cases hq : st.queue h with
  | nil =>
      rw [hq] at hpath
      simpa [Links.listEmpty] using hpath.1
  | cons n l =>
      rw [hq] at hpath
      simp [Links.listEmpty, hpath.1.1]

/-- `__list_add` makes the new node the neighbour of both its arguments. -/
theorem adjacent_listAddBetween (m : Links H N) {new prev next : Ptr H N} (hprev : new ≠ prev)
    (hnext : new ≠ next) :
    (m.listAddBetween new prev next).Adjacent prev new ∧
      (m.listAddBetween new prev next).Adjacent new next := by
  simp [Links.listAddBetween, Links.setNext, Links.setPrev, Links.Adjacent, hprev, hnext.symm]

/-- `__list_add` writes `next` of its first two arguments only. -/
theorem next_listAddBetween {new prev next p : Ptr H N} (hnew : p ≠ new) (hprev : p ≠ prev) :
    (m.listAddBetween new prev next).next p = m.next p := by
  simp [Links.listAddBetween, Links.setNext, Links.setPrev, hnew, hprev]

/-- `__list_add` writes `prev` of its first and last arguments only. -/
theorem prev_listAddBetween {new prev next p : Ptr H N} (hnew : p ≠ new) (hnext : p ≠ next) :
    (m.listAddBetween new prev next).prev p = m.prev p := by
  simp [Links.listAddBetween, Links.setNext, Links.setPrev, hnew, hnext]

/-- Linking a node into one ring keeps the others. -/
theorem Represents.path_listAddBetween (hrep : Represents m st) {g : H} {p q : Ptr H N}
    (hn : st.home n = none) (hg : g ≠ h) (hp : OnRing st h p) (hq : OnRing st h q) :
    (m.listAddBetween (.node n) p q).Path (.head g) (st.queue g) (.head g) := by
  apply hrep.path_of_agree g
  intro r hr
  have hrn : r ≠ .node n := by
    rintro rfl
    simp [OnRing, hn] at hr
  have hne : ∀ t, OnRing st h t → r ≠ t := by
    rintro t ht rfl
    cases r with
    | head i => exact hg (hr.symm.trans ht)
    | node a => exact hg (Option.some.inj (hr.symm.trans ht))
  exact ⟨next_listAddBetween hrn (hne p hp), prev_listAddBetween hrn (hne q hq)⟩

/-- `list_add` of an unlinked node is `ListStore.pushFront`. -/
theorem represents_listAdd (hrep : Represents m st) (hn : st.home n = none) (h : H) :
    ∃ m', m.listAdd (.node n) (.head h) = some m' ∧ Represents m' (st.consAt n h hn) := by
  have hpath := hrep h
  -- the node behind the head, or the head itself
  obtain ⟨q, hq, hqring⟩ : ∃ q, m.next (.head h) = some q ∧ OnRing st h q := by
    cases hl : st.queue h with
    | nil => rw [hl] at hpath; exact ⟨_, hpath.1, rfl⟩
    | cons a l => rw [hl] at hpath; exact ⟨_, hpath.1.1, ListStore.home_of_mem (by simp [hl])⟩
  have hqn : Ptr.node n ≠ q := by
    rintro rfl
    simp [OnRing, hn] at hqring
  refine ⟨m.listAddBetween (.node n) (.head h) q, by simp [Links.listAdd, hq], fun g => ?_⟩
  rw [ListStore.consAt_queue]
  by_cases hg : g = h
  · subst hg
    rw [Function.update_self]
    have hnh : Ptr.node n ≠ .head g := by simp
    obtain ⟨hin, hout⟩ := adjacent_listAddBetween m hnh hqn
    refine ⟨hin, ?_⟩
    cases hl : st.queue g with
    | nil =>
        rw [hl] at hpath
        obtain rfl : q = .head g := Option.some.inj (hq.symm.trans hpath.1)
        exact hout
    | cons a l =>
        have hnd := st.nodup g
        rw [hl] at hpath hnd
        obtain rfl : q = .node a := Option.some.inj (hq.symm.trans hpath.1.1)
        have hne : ∀ b ∈ st.queue g, b ≠ n := fun b hb hbn =>
          ListStore.notMem_queue hn g (hbn ▸ hb)
        refine ⟨hout, hpath.2.congr ?_ ?_ fun b hb => ⟨?_, ?_⟩⟩
        · exact next_listAddBetween (by simpa using hne a (by simp [hl])) (by simp)
        · exact prev_listAddBetween (by simp) (by simp)
        · exact next_listAddBetween (by simpa using hne b (by simp [hl, hb])) (by simp)
        · apply prev_listAddBetween (by simpa using hne b (by simp [hl, hb]))
          simpa using fun hba : b = a => (List.nodup_cons.mp hnd).1 (hba ▸ hb)
  -- the other rings have none of the three nodes
  · rw [Function.update_of_ne hg]
    exact hrep.path_listAddBetween hn hg rfl hqring

/-- `list_add_tail` of an unlinked node is `ListStore.pushBack`. -/
theorem represents_listAddTail (hrep : Represents m st) (hn : st.home n = none) (h : H) :
    ∃ m', m.listAddTail (.node n) (.head h) = some m' ∧ Represents m' (st.snocAt n h hn) := by
  have hne : ∀ b ∈ st.queue h, b ≠ n := fun b hb hbn => ListStore.notMem_queue hn h (hbn ▸ hb)
  rcases (hrep h).exists_last with ⟨hl, hadj⟩ | ⟨l, a, hl, hpath, hadj⟩
  · -- the first node of an empty list
    refine ⟨m.listAddBetween (.node n) (.head h) (.head h), by simp [Links.listAddTail, hadj.2],
      fun g => ?_⟩
    rw [ListStore.snocAt_queue]
    by_cases hg : g = h
    · subst hg
      rw [Function.update_self, hl]
      exact adjacent_listAddBetween m (by simp) (by simp)
    · rw [Function.update_of_ne hg]
      exact hrep.path_listAddBetween hn hg rfl rfl
  · have haring : OnRing st h (.node a) := ListStore.home_of_mem (by simp [hl])
    refine ⟨m.listAddBetween (.node n) (.node a) (.head h), by simp [Links.listAddTail, hadj.2],
      fun g => ?_⟩
    rw [ListStore.snocAt_queue]
    by_cases hg : g = h
    · subst hg
      have han : a ≠ n := hne a (by simp [hl])
      have hnd : a ∉ l := fun ha => by
        have := st.nodup g
        rw [hl, List.nodup_append] at this
        exact this.2.2 a ha a (by simp) rfl
      have hna : Ptr.node n ≠ .node (H := H) a := by simpa using han.symm
      have hnh : Ptr.node n ≠ .head g := by simp
      obtain ⟨hin, hout⟩ := adjacent_listAddBetween m hna hnh
      rw [Function.update_self, hl, List.append_assoc, List.singleton_append]
      refine Links.path_append.mpr ⟨hpath.congr ?_ ?_ fun b hb => ⟨?_, ?_⟩, hin, hout⟩
      · exact next_listAddBetween (by simp) (by simp)
      · exact prev_listAddBetween (by simpa using han) (by simp)
      · apply next_listAddBetween (by simpa using hne b (by simp [hl, hb]))
        simpa using fun hba : b = a => hnd (hba ▸ hb)
      · exact prev_listAddBetween (by simpa using hne b (by simp [hl, hb])) (by simp)
    · rw [Function.update_of_ne hg]
      exact hrep.path_listAddBetween hn hg haring rfl

/-- `list_del` closes the gap between the neighbours of the node, and keeps every other pair of
neighbours that does not involve it. -/
theorem adjacent_listDel {p q x y : Ptr H N} (hp : m.Adjacent p (.node n))
    (hq : m.Adjacent (.node n) q) (hm : m.listDel (.node n) = some m') :
    (p ≠ .node n → q ≠ .node n → m'.Adjacent p q) ∧
      (x ≠ .node n → y ≠ .node n → m.Adjacent x y → m'.Adjacent x y) := by
  simp only [Links.listDel, hp.2, hq.1, bind, Option.bind, pure, Option.some.injEq] at hm
  subst hm
  constructor
  · intro hpn hqn
    simp [Links.Adjacent, Links.listDelBetween, Links.setNext, Links.setPrev, hpn, hqn]
  · intro hxn hyn hadj
    -- `x` and `y` are no neighbours of the node: `x` would point at it, and `y` back at it
    have hxp : x ≠ p := by
      rintro rfl
      exact hyn (Option.some.inj (hadj.1.symm.trans hp.1))
    have hyq : y ≠ q := by
      rintro rfl
      exact hxn (Option.some.inj (hadj.2.symm.trans hq.2))
    simpa [Links.Adjacent, Links.listDelBetween, Links.setNext, Links.setPrev, hxn, hyn, hxp,
      hyq] using hadj

omit [DecidableEq H] [DecidableEq N] in
/-- A path that avoids a node survives if all pairs of neighbours that avoid it do. -/
theorem Links.Path.avoid {x z : Ptr H N} {l : List N} (hpath : m.Path x l z)
    (hadj : ∀ x y, x ≠ .node n → y ≠ .node n → m.Adjacent x y → m'.Adjacent x y)
    (hx : x ≠ .node n) (hz : z ≠ .node n) (hl : n ∉ l) : m'.Path x l z := by
  induction l generalizing x with
  | nil => exact hadj x z hx hz hpath
  | cons a l ih =>
      rw [List.mem_cons, not_or] at hl
      have ha : Ptr.node a ≠ Ptr.node (H := H) n := by simpa using Ne.symm hl.1
      exact ⟨hadj x _ hx ha hpath.1, ih hpath.2 ha hl.2⟩

/-- `list_del` of a linked node is `ListStore.unlink`. -/
theorem represents_listDel (hrep : Represents m st) (hn : st.home n = some h) :
    ∃ m', m.listDel (.node n) = some m' ∧ Represents m' (st.eraseAt n h hn) := by
  obtain ⟨l₁, l₂, hl⟩ := List.append_of_mem ((st.mem_queue h n).mpr hn)
  have hnd := st.nodup h
  rw [hl, List.nodup_append, List.nodup_cons] at hnd
  have hn₁ : n ∉ l₁ := fun hmem => hnd.2.2 n hmem n (by simp) rfl
  have hn₂ : n ∉ l₂ := hnd.2.1.1
  have hpath := hrep h
  rw [hl, Links.path_append] at hpath
  obtain ⟨p, hp, hpn⟩ : ∃ p, m.Adjacent p (.node n) ∧ p ≠ .node n := by
    rcases hpath.1.exists_last with ⟨-, hadj⟩ | ⟨l', a, rfl, -, hadj⟩
    · exact ⟨_, hadj, by simp⟩
    · exact ⟨_, hadj, by simpa using fun han : a = n => hn₁ (by simp [han])⟩
  obtain ⟨q, hq, hqn⟩ : ∃ q, m.Adjacent (.node n) q ∧ q ≠ .node n := by
    cases l₂ with
    | nil => exact ⟨_, hpath.2, by simp⟩
    | cons b t => exact ⟨_, hpath.2.1, by simpa using fun hbn : b = n => hn₂ (by simp [hbn])⟩
  obtain ⟨m', hm⟩ : ∃ m', m.listDel (.node n) = some m' := by
    simp [Links.listDel, hp.2, hq.1]
  have hgap := (adjacent_listDel (x := p) (y := q) hp hq hm).1 hpn hqn
  have hkeep : ∀ x y, x ≠ .node n → y ≠ .node n → m.Adjacent x y → m'.Adjacent x y :=
    fun x y => (adjacent_listDel hp hq hm).2
  refine ⟨m', hm, fun g => ?_⟩
  rw [ListStore.eraseAt_queue]
  by_cases hg : g = h
  · subst hg
    rw [Function.update_self, hl, List.erase_append_right _ hn₁, List.erase_cons_head]
    -- the two halves of the ring, each without the node, meet at the gap
    have hright : ∀ x, m'.Adjacent x q → m'.Path x l₂ (.head g) := by
      intro x hx
      cases l₂ with
      | nil =>
          obtain rfl : q = .head g := Option.some.inj (hq.1.symm.trans hpath.2.1)
          exact hx
      | cons b t =>
          obtain rfl : q = .node b := Option.some.inj (hq.1.symm.trans hpath.2.1.1)
          exact ⟨hx, hpath.2.2.avoid hkeep hqn (by simp) fun ht => hn₂ (by simp [ht])⟩
    rcases hpath.1.exists_last with ⟨rfl, hadj⟩ | ⟨l', a, rfl, hl', hadj⟩
    · obtain rfl : p = .head g := Option.some.inj (hp.2.symm.trans hadj.2)
      exact hright _ hgap
    · obtain rfl : p = .node a := Option.some.inj (hp.2.symm.trans hadj.2)
      rw [List.append_assoc, List.singleton_append, Links.path_append]
      exact ⟨hl'.avoid hkeep (by simp) hpn fun hmem => hn₁ (by simp [hmem]), hright _ hgap⟩
  · rw [Function.update_of_ne hg]
    refine (hrep g).avoid hkeep (by simp) (by simp) fun hmem => hg ?_
    exact Option.some.inj ((ListStore.home_of_mem hmem).symm.trans hn)

end Represents

end Koharu
