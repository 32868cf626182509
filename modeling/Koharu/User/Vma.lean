import Koharu.Lib.Chain
import Koharu.Lib.Machine
import Mathlib.Data.Int.Notation
import Mathlib.Data.Set.Lattice
import Mathlib.Order.CompletePartialOrder

/-!
# The root pager's memory areas

`user/vma.c`. The records of all sets come from one static array `vma_pool`. The records that no set
uses are on the list `vma_free`. A set threads its records on a doubly linked list and has them in a
red-black tree at the same time.

The macros of `tree.h` are modelled by what they do: a tree is the list of its records in order, and
`rbInsert` of a record whose key the tree has already leaves the tree alone. The sets are numbered
by a type `S`; they and the pool are static variables, so that all of them are zero at the start.

`VmaState.Consistent` is what the two structures owe each other.
-/

namespace Koharu

/-- `VMA_POOL_MAX`. -/
def vmaPoolMax : ℕ := 256

/-- A record, by its index in `vma_pool`. -/
abbrev VmaId := Fin vmaPoolMax

/-- `struct vma`, less its links in the tree. -/
structure Vma where
  start : BitVec 64
  endAddr : BitVec 64
  prot : BitVec 64
  kind : BitVec 64
  prev : Option VmaId
  next : Option VmaId
  deriving DecidableEq

/-- `struct vma_set`. -/
structure VmaSet where
  /-- The records of the tree, in order. -/
  tree : List VmaId
  first : Option VmaId
  last : Option VmaId
  deriving DecidableEq

/-- The static variables of `vma.c`, and the sets. -/
@[ext]
structure VmaState (S : Type*) where
  vmaPool : VmaId → Vma
  vmaFree : Option VmaId
  sets : S → VmaSet

namespace VmaState

variable {S : Type*}

/-- All variables are zero. -/
def zero : VmaState S where
  vmaPool _ := ⟨0, 0, 0, 0, none, none⟩
  vmaFree := none
  sets _ := ⟨[], none, none⟩

/-- The memory `[start, end)` of a record. -/
def interval (s : VmaState S) (v : VmaId) : Set (BitVec 64) :=
  {a | (s.vmaPool v).start ≤ a ∧ a < (s.vmaPool v).endAddr}

/-- The two structures of each set agree, and each record is in one place. -/
structure Consistent (s : VmaState S) : Prop where
  /-- The list from `first` on is the traversal of the tree. -/
  list_eq_tree : ∀ i, Chain.Segment (fun v => (s.vmaPool v).next)
    (s.sets i).first (s.sets i).tree none
  /-- So is, the other way round, the list from `last` on. -/
  list_eq_tree_reverse :
    ∀ i, Chain.Segment (fun v => (s.vmaPool v).prev) (s.sets i).last (s.sets i).tree.reverse none
  start_lt : ∀ i, (s.sets i).tree.Pairwise fun v w => (s.vmaPool v).start < (s.vmaPool w).start
  disjoint : ∀ i, (s.sets i).tree.Pairwise fun v w => Disjoint (s.interval v) (s.interval w)
  one_place : ∃ free, Chain.Segment (fun v => (s.vmaPool v).next) s.vmaFree free none ∧ free.Nodup ∧
    ∀ v, v ∈ free ∧ (∀ i, v ∉ (s.sets i).tree) ∨ v ∉ free ∧ ∃! i, v ∈ (s.sets i).tree

/-! ### Stores

Assignments to the records and to the heads of the sets. -/

/-- Change the record `v`. -/
def setVma (s : VmaState S) (v : VmaId) (f : Vma → Vma) : VmaState S :=
  { s with vmaPool := Function.update s.vmaPool v (f (s.vmaPool v)) }

/-- `v->next = p`. -/
def setNext (s : VmaState S) (v : VmaId) (p : Option VmaId) : VmaState S :=
  s.setVma v fun r => { r with next := p }

/-- `v->prev = p`. -/
def setPrev (s : VmaState S) (v : VmaId) (p : Option VmaId) : VmaState S :=
  s.setVma v fun r => { r with prev := p }

section Sets

variable [DecidableEq S]

/-- Change the set `i`. -/
def setSet (s : VmaState S) (i : S) (f : VmaSet → VmaSet) : VmaState S :=
  { s with sets := Function.update s.sets i (f (s.sets i)) }

/-- `set->first = p`. -/
def setFirst (s : VmaState S) (i : S) (p : Option VmaId) : VmaState S :=
  s.setSet i fun t => { t with first := p }

/-- `set->last = p`. -/
def setLast (s : VmaState S) (i : S) (p : Option VmaId) : VmaState S :=
  s.setSet i fun t => { t with last := p }

/-- `if (p != NULL) p->next = q; else set->first = q;`. -/
def linkNext (s : VmaState S) (i : S) (p q : Option VmaId) : VmaState S :=
  match p with
  | some p => s.setNext p q
  | none => s.setFirst i q

/-- `if (p != NULL) p->prev = q; else set->last = q;`. -/
def linkPrev (s : VmaState S) (i : S) (p q : Option VmaId) : VmaState S :=
  match p with
  | some p => s.setPrev p q
  | none => s.setLast i q

end Sets

/-! ### The tree

The tree as the sorted list of its records, with the searches that `vma.c` uses. -/

/-- `vma_cmp`. -/
def vmaCmp (a b : Vma) : ℤ := if a.start < b.start then -1 else if b.start < a.start then 1 else 0

/-- `RB_NFIND`: the first record that is not below the key. -/
def rbNfind (s : VmaState S) (tree : List VmaId) (key : Vma) : Option VmaId :=
  tree.find? fun v => vmaCmp key (s.vmaPool v) ≤ 0

/-- `RB_PREV`. -/
def rbPrev (tree : List VmaId) (v : VmaId) : Option VmaId := (tree.takeWhile (· != v)).getLast?

/-- `RB_MINMAX(tree, 1)`. -/
def rbMax (tree : List VmaId) : Option VmaId := tree.getLast?

/-- `RB_INSERT`, which leaves a tree alone that has the key of `v`. -/
def rbInsert (s : VmaState S) (tree : List VmaId) (v : VmaId) : List VmaId :=
  if tree.any fun w => vmaCmp (s.vmaPool v) (s.vmaPool w) = 0 then tree
  else
    tree.takeWhile (fun w => vmaCmp (s.vmaPool w) (s.vmaPool v) < 0) ++
      v :: tree.dropWhile fun w => vmaCmp (s.vmaPool w) (s.vmaPool v) < 0

/-- `RB_REMOVE`. -/
def rbRemove (tree : List VmaId) (v : VmaId) : List VmaId := tree.erase v

/-! ### The functions

The functions of `vma.c`. -/

/-- `vma_alloc`. -/
def vmaAlloc (s : VmaState S) : Option VmaId × VmaState S :=
  match s.vmaFree with
  | some v => (some v, { s with vmaFree := (s.vmaPool v).next })
  | none => (none, s)

/-- `vma_release`. -/
def vmaRelease (s : VmaState S) (v : VmaId) : VmaState S :=
  { s.setNext v s.vmaFree with vmaFree := some v }

/-- The address `&vma_pool[n]`, and `NULL` behind the last record. -/
def vmaPoolAt (n : ℕ) : Option VmaId := if h : n < vmaPoolMax then some ⟨n, h⟩ else none

variable [DecidableEq S]

/-- `vma_set_init`. -/
def vmaSetInit (s : VmaState S) (i : S) : VmaState S :=
  let s := s.setSet i fun _ => ⟨[], none, none⟩
  match s.vmaFree with
  | some _ => s
  | none =>
      { s with
        vmaPool := fun v => { s.vmaPool v with next := vmaPoolAt (v + 1) }
        vmaFree := vmaPoolAt 0 }

/-- The record before a new one, from the one behind it. -/
def vmaPrev (tree : List VmaId) (next : Option VmaId) : Option VmaId :=
  match next with
  | some n => rbPrev tree n
  | none => rbMax tree

/-- The stores of `vma_insert`, for the record `v` with the contents `r`. -/
def vmaLink (s : VmaState S) (i : S) (v : VmaId) (r : Vma) : VmaState S :=
  let s := s.setVma v fun _ => r
  let s := s.linkNext i r.prev (some v)
  let s := s.linkPrev i r.next (some v)
  s.setSet i fun t => { t with tree := s.rbInsert t.tree v }

/-- `vma_insert`, with `true` for the result `0`. -/
def vmaInsert (s : VmaState S) (i : S) (start endAddr prot kind : BitVec 64) : Bool × VmaState S :=
  let tree := (s.sets i).tree
  let next := s.rbNfind tree ⟨start, endAddr, 0, 0, none, none⟩
  let prev := vmaPrev tree next
  if prev.any fun p => start < (s.vmaPool p).endAddr then (false, s)
  else if next.any fun n => (s.vmaPool n).start < endAddr then (false, s)
  else
    match s.vmaAlloc with
    | (none, s) => (false, s)
    | (some v, s) => (true, s.vmaLink i v ⟨start, endAddr, prot, kind, prev, next⟩)

omit [DecidableEq S] in
/-- `vma_find`. `RB_PREV` follows its argument, so that the function is not defined where that is
`NULL`. -/
def vmaFind (s : VmaState S) (i : S) (addr : BitVec 64) : Option (Option VmaId) :=
  let tree := (s.sets i).tree
  let holds := fun v => (s.vmaPool v).start ≤ addr ∧ addr < (s.vmaPool v).endAddr
  match (s.rbNfind tree ⟨addr, addr, 0, 0, none, none⟩).or (rbMax tree) with
  | none => none
  | some v =>
      if holds v then some (some v)
      else some ((rbPrev tree v).filter fun p => holds p)

/-- `vma_remove`. -/
def vmaRemove (s : VmaState S) (i : S) (v : VmaId) : VmaState S :=
  let s := s.linkNext i (s.vmaPool v).prev (s.vmaPool v).next
  let s := s.linkPrev i (s.vmaPool v).next (s.vmaPool v).prev
  (s.setSet i fun t => { t with tree := rbRemove t.tree v }).vmaRelease v

end VmaState

end Koharu
