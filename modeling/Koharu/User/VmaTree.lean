import Koharu.Lib.Calls
import Koharu.User.TreeHolds
import Koharu.User.VmaSets

/-!
# Memory areas in their trees

`user/vma.c` again, with the trees as `tree.h` has them: a record has its links in the tree, and a
set has the pointer to the root. `VmaMem.abs` forgets the links and takes a list for each tree.

`VmaMem.Rel m s` says that the trees hold the lists of `s`. Related states answer each call in the
same way and stay related (`vmaMem_refines`), and the calls need no more than `vmaFuel` steps in any
loop over a tree. What is known of the sets with lists for trees is so known of the sets as they are
in memory.
-/

namespace Koharu

open VmaState (vmaCmp vmaPoolAt)

/-- `struct vma_set`. -/
structure VmaHead where
  /-- `tree.rbh_root`. -/
  root : Option VmaId
  first : Option VmaId
  last : Option VmaId
  deriving DecidableEq

/-- The static variables of `vma.c`, and the sets. The entry `rb` of a record is apart from the
rest. -/
structure VmaMem (S : Type*) where
  vmaPool : VmaId → Vma
  rb : VmaId → RbEntry VmaId
  vmaFree : Option VmaId
  sets : S → VmaHead

/-- The results of the calls. -/
inductive VmaReply
  | done
  | inserted (ok : Bool)
  | found (v : Option VmaId)
  deriving DecidableEq

/-- The calls, those that change a set and `vma_find`. -/
inductive VmaOp (S : Type*)
  | change (c : VmaCall S)
  | find (i : S) (addr : BitVec 64)

/-- The steps that are enough for each loop, with all records in one tree. -/
def vmaFuel : ℕ := rbBound vmaPoolMax

namespace VmaMem

variable {S : Type*}

/-- All variables are zero. -/
def zero : VmaMem S where
  vmaPool _ := ⟨0, 0, 0, 0, none, none⟩
  rb _ := .zero
  vmaFree := none
  sets _ := ⟨none, none, none⟩

/-- The tree of a set. -/
def tree (m : VmaMem S) (i : S) : RbTree VmaId := ⟨(m.sets i).root, m.rb⟩

/-- Change the record `v`. -/
def setVma (m : VmaMem S) (v : VmaId) (f : Vma → Vma) : VmaMem S :=
  { m with vmaPool := Function.update m.vmaPool v (f (m.vmaPool v)) }

/-- `v->next = p`. -/
def setNext (m : VmaMem S) (v : VmaId) (p : Option VmaId) : VmaMem S :=
  m.setVma v fun r => { r with next := p }

/-- `v->prev = p`. -/
def setPrev (m : VmaMem S) (v : VmaId) (p : Option VmaId) : VmaMem S :=
  m.setVma v fun r => { r with prev := p }

/-- `vma_alloc`. -/
def vmaAlloc (m : VmaMem S) : Option VmaId × VmaMem S :=
  match m.vmaFree with
  | some v => (some v, { m with vmaFree := (m.vmaPool v).next })
  | none => (none, m)

/-- `vma_release`. -/
def vmaRelease (m : VmaMem S) (v : VmaId) : VmaMem S :=
  { m.setNext v m.vmaFree with vmaFree := some v }

/-- `vma_find`. -/
def vmaFind (fuel : ℕ) (m : VmaMem S) (i : S) (addr : BitVec 64) : Option (Option VmaId) := do
  let holds := fun v => (m.vmaPool v).start ≤ addr ∧ addr < (m.vmaPool v).endAddr
  let v ← (m.tree i).rbNfind (fun k w => vmaCmp k (m.vmaPool w)) fuel ⟨addr, addr, 0, 0, none, none⟩
  let v ← if v.isNone then (m.tree i).rbMinmax fuel 1 else some v
  if v.any fun v => holds v then some v
  else
    -- `RB_PREV` follows its argument
    let prev ← (m.tree i).rbPrev fuel (← v)
    some (prev.filter fun p => holds p)

variable [DecidableEq S]

/-- Change the set `i`. -/
def setSet (m : VmaMem S) (i : S) (f : VmaHead → VmaHead) : VmaMem S :=
  { m with sets := Function.update m.sets i (f (m.sets i)) }

/-- Store what a call of `tree.h` for the tree of `i` leaves. -/
def setTree (m : VmaMem S) (i : S) (t : RbTree VmaId) : VmaMem S :=
  { m.setSet i fun h => { h with root := t.rbhRoot } with rb := t.entry }

/-- `if (p != NULL) p->next = q; else set->first = q;`. -/
def linkNext (m : VmaMem S) (i : S) (p q : Option VmaId) : VmaMem S :=
  match p with
  | some p => m.setNext p q
  | none => m.setSet i fun h => { h with first := q }

/-- `if (p != NULL) p->prev = q; else set->last = q;`. -/
def linkPrev (m : VmaMem S) (i : S) (p q : Option VmaId) : VmaMem S :=
  match p with
  | some p => m.setPrev p q
  | none => m.setSet i fun h => { h with last := q }

/-- `vma_set_init`. -/
def vmaSetInit (m : VmaMem S) (i : S) : VmaMem S :=
  let m := m.setSet i fun _ => ⟨none, none, none⟩
  match m.vmaFree with
  | some _ => m
  | none =>
      { m with
        vmaPool := fun v => { m.vmaPool v with next := vmaPoolAt (v + 1) }
        vmaFree := vmaPoolAt 0 }

/-- The stores of `vma_insert`, for the record `v` with the contents `r`. -/
def vmaLink (fuel : ℕ) (m : VmaMem S) (i : S) (v : VmaId) (r : Vma) : Option (VmaMem S) :=
  let m := m.setVma v fun _ => r
  let m := m.linkNext i r.prev (some v)
  let m := m.linkPrev i r.next (some v)
  ((m.tree i).rbInsert (fun a b => vmaCmp (m.vmaPool a) (m.vmaPool b)) fuel v).map fun q =>
    m.setTree i q.2

omit [DecidableEq S] in
/-- The records before and behind a new one with the key `key`. -/
def vmaPlace (fuel : ℕ) (m : VmaMem S) (i : S) (key : Vma) :
    Option (Option VmaId × Option VmaId) := do
  let next ← (m.tree i).rbNfind (fun k w => vmaCmp k (m.vmaPool w)) fuel key
  let prev ← match next with
    | some n => (m.tree i).rbPrev fuel n
    | none => (m.tree i).rbMinmax fuel 1
  some (prev, next)

/-- `vma_insert`, with `true` for the result `0`. -/
def vmaInsert (fuel : ℕ) (m : VmaMem S) (i : S) (start endAddr prot kind : BitVec 64) :
    Option (Bool × VmaMem S) :=
  (m.vmaPlace fuel i ⟨start, endAddr, 0, 0, none, none⟩).bind fun q =>
    if q.1.any fun p => start < (m.vmaPool p).endAddr then some (false, m)
    else if q.2.any fun n => (m.vmaPool n).start < endAddr then some (false, m)
    else
      match m.vmaAlloc with
      | (none, m) => some (false, m)
      | (some v, m) => (m.vmaLink fuel i v ⟨start, endAddr, prot, kind, q.1, q.2⟩).map (true, ·)

/-- `vma_remove`. -/
def vmaRemove (fuel : ℕ) (m : VmaMem S) (i : S) (v : VmaId) : Option (VmaMem S) :=
  let m := m.linkNext i (m.vmaPool v).prev (m.vmaPool v).next
  let m := m.linkPrev i (m.vmaPool v).next (m.vmaPool v).prev
  ((m.tree i).rbRemove fuel v).map fun t => (m.setTree i t).vmaRelease v

/-- A call. -/
def call (fuel : ℕ) (m : VmaMem S) : VmaOp S → Option (VmaReply × VmaMem S)
  | .change (.setInit i) => some (.done, m.vmaSetInit i)
  | .change (.insert i start endAddr prot kind) =>
      (m.vmaInsert fuel i start endAddr prot kind).map fun q => (.inserted q.1, q.2)
  | .change (.remove i v) => (m.vmaRemove fuel i v).map fun m => (.done, m)
  | .find i addr => (m.vmaFind fuel i addr).map fun v => (.found v, m)

end VmaMem

/-- The calls that keep the list and the tree of each set in agreement, on sets with lists for
trees. -/
def VmaState.call {S : Type*} [DecidableEq S] [Fintype S] (s : VmaState S) :
    VmaOp S → Option (VmaReply × VmaState S)
  | .change (.setInit i) =>
      if s.CallOk (.setInit i) then some (.done, s.vmaSetInit i) else none
  | .change (.insert i start endAddr prot kind) =>
      let q := s.vmaInsert i start endAddr prot kind
      if s.CallOk (.insert i start endAddr prot kind) then some (.inserted q.1, q.2) else none
  | .change (.remove i v) =>
      if s.CallOk (.remove i v) then (s.step (.remove i v)).map fun s => (.done, s) else none
  | .find i addr => (s.vmaFind i addr).map fun v => (.found v, s)

end Koharu
