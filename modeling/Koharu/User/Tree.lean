import Koharu.Lib.RankTree
import Mathlib.Data.Int.Notation
import Mathlib.Logic.Function.Basic

/-!
# The tree macros

`user/include/tree.h`, the part on rank-balanced trees. A node has pointers to its children and to
its parent. The two least bits of the latter, which are free, say for each child whether it is
"red", that is whether its rank is two below the rank of the node.

The nodes are of a type `α`. The two branches that the macros have for left and right are one
definition with a side `d`: `Side.left` is the branch as it is written first. Every loop is bounded
by an argument `fuel`. The result is `none` where the fuel ends or a null pointer is followed, and
`RB_AUGMENT` is `break` here, so that the loops that only call it do nothing.
-/

namespace Koharu

open RankTree (Side)

/-- `RB_ENTRY`, with the two bits of the parent pointer as fields of their own. -/
@[ext]
structure RbEntry (α : Type*) where
  rbeLeft : Option α
  rbeRight : Option α
  rbeParent : Option α
  /-- `RB_RED_LEFT`. -/
  redLeft : Bool
  /-- `RB_RED_RIGHT`. -/
  redRight : Bool
  deriving DecidableEq

/-- `RB_HEAD`, and the entries of the nodes of all trees. -/
@[ext]
structure RbTree (α : Type*) where
  rbhRoot : Option α
  entry : α → RbEntry α

namespace RbEntry

variable {α : Type*}

/-- All bytes are zero. -/
def zero : RbEntry α := ⟨none, none, none, false, false⟩

/-- `RB_LEFT` and `RB_RIGHT`. -/
def child (e : RbEntry α) : Side → Option α
  | .left => e.rbeLeft
  | .right => e.rbeRight

/-- `RB_RED_LEFT` and `RB_RED_RIGHT`. -/
def red (e : RbEntry α) : Side → Bool
  | .left => e.redLeft
  | .right => e.redRight

/-- `RB_LEFT(elm) = p` and `RB_RIGHT(elm) = p`. -/
def setChild (e : RbEntry α) (d : Side) (p : Option α) : RbEntry α :=
  match d with
  | .left => { e with rbeLeft := p }
  | .right => { e with rbeRight := p }

/-- `RB_FLIP_LEFT` and `RB_FLIP_RIGHT`. -/
def flip (e : RbEntry α) (d : Side) : RbEntry α :=
  match d with
  | .left => { e with redLeft := !e.redLeft }
  | .right => { e with redRight := !e.redRight }

/-- `RB_BITS(elm) &= ~RB_RED_MASK` for `false`, and `RB_BITS(elm) |= RB_RED_MASK` for `true`. -/
def fill (e : RbEntry α) (b : Bool) : RbEntry α := { e with redLeft := b, redRight := b }

/-- `RB_SET_PARENT`. -/
def setParent (e : RbEntry α) (p : Option α) : RbEntry α := { e with rbeParent := p }

end RbEntry

namespace RbTree

variable {α : Type*}

/-! ### Search

The macros of `tree.h` as functions on a store of nodes. Loops that go down or up have a bound. -/

variable {K : Type*}

/-- The loop of `RB_FIND`. -/
def rbFindLoop (cmp : α → ℤ) (s : RbTree α) : ℕ → Option α → Option (Option α)
  | 0, _ => none
  | _ + 1, none => some none
  | fuel + 1, some tmp =>
      if cmp tmp < 0 then rbFindLoop cmp s fuel (s.entry tmp).rbeLeft
      else if 0 < cmp tmp then rbFindLoop cmp s fuel (s.entry tmp).rbeRight
      else some (some tmp)

/-- `RB_FIND`, for a key that need not be in the tree. -/
def rbFind (cmp : K → α → ℤ) (fuel : ℕ) (s : RbTree α) (elm : K) : Option (Option α) :=
  rbFindLoop (cmp elm) s fuel s.rbhRoot

/-- The loop of `RB_NFIND`. -/
def rbNfindLoop (cmp : α → ℤ) (s : RbTree α) : ℕ → Option α → Option α → Option (Option α)
  | 0, _, _ => none
  | _ + 1, none, res => some res
  | fuel + 1, some tmp, res =>
      if cmp tmp < 0 then rbNfindLoop cmp s fuel (s.entry tmp).rbeLeft (some tmp)
      else if 0 < cmp tmp then rbNfindLoop cmp s fuel (s.entry tmp).rbeRight res
      else some (some tmp)

/-- `RB_NFIND`. -/
def rbNfind (cmp : K → α → ℤ) (fuel : ℕ) (s : RbTree α) (elm : K) : Option (Option α) :=
  rbNfindLoop (cmp elm) s fuel s.rbhRoot none

/-- The loop of `RB_MINMAX`, to the side `d`. -/
def rbMinmaxLoop (d : Side) (s : RbTree α) : ℕ → Option α → Option α → Option (Option α)
  | 0, _, _ => none
  | _ + 1, none, parent => some parent
  | fuel + 1, some tmp, _ => rbMinmaxLoop d s fuel ((s.entry tmp).child d) (some tmp)

/-- `RB_MINMAX`. -/
def rbMinmax (fuel : ℕ) (s : RbTree α) (val : ℤ) : Option (Option α) :=
  rbMinmaxLoop (if val < 0 then .left else .right) s fuel s.rbhRoot none

/-! ### Stores

Assignments through pointers, each to one field of one node. -/

variable [DecidableEq α]

/-- Change the entry of a node. -/
def modify (s : RbTree α) (a : α) (f : RbEntry α → RbEntry α) : RbTree α :=
  { s with entry := Function.update s.entry a (f (s.entry a)) }

/-- `RB_SET_PARENT` for a pointer, unless it is null. -/
def setParent? (s : RbTree α) (q : Option α) (p : Option α) : RbTree α :=
  match q with
  | some a => s.modify a (·.setParent p)
  | none => s

/-- `RB_SWAP_CHILD`. -/
def rbSwapChild (s : RbTree α) (out : α) (p : Option α) : RbTree α :=
  match (s.entry out).rbeParent with
  | none => { s with rbhRoot := p }
  | some up =>
      if some out = (s.entry up).rbeLeft then s.modify up (·.setChild .left p)
      else s.modify up (·.setChild .right p)

/-- `RB_ROTATE_LEFT` and `RB_ROTATE_RIGHT`, with the value that they give to `tmp`. -/
def rbRotate (d : Side) (s : RbTree α) (elm : α) : Option (α × RbTree α) :=
  ((s.entry elm).child d.opp).map fun tmp =>
    let s := s.modify elm (·.setChild d.opp ((s.entry tmp).child d))
    let s := s.setParent? ((s.entry elm).child d.opp) (some elm)
    let s := s.modify tmp (·.setParent (s.entry elm).rbeParent)
    let s := s.rbSwapChild elm (some tmp)
    let s := s.modify tmp (·.setChild d (some elm))
    (tmp, s.modify elm (·.setParent (some tmp)))

/-! ### Insertion

The weak AVL insertion of `tree.h`, with rank differences in the low bits of the parent pointers. -/

/-- The rotations of `RB_INSERT_COLOR`. -/
def rbInsertRotate (d : Side) (s : RbTree α) (parent elm : α) : Option (RbTree α) := do
  let q ←
    if (s.entry elm).red d.opp then some (elm, s)
    else
      (rbRotate d (s.modify elm (·.flip d)) elm).map fun r =>
        (r.1,
          if (r.2.entry r.1).red d then r.2.modify elm (·.flip d.opp)
          else if (r.2.entry r.1).red d.opp then r.2.modify parent (·.flip d)
          else r.2)
  let r ← rbRotate d.opp q.2 parent
  some (r.2.modify r.1 (·.fill false))

/-- `RB_INSERT_COLOR`. -/
def rbInsertColor : ℕ → RbTree α → α → Option (RbTree α)
  | 0, _, _ => none
  | fuel + 1, s, elm =>
      match (s.entry elm).rbeParent with
      | none => some s
      | some parent =>
          let d := if (s.entry parent).rbeLeft = some elm then Side.left else Side.right
          if (s.entry parent).red d then some (s.modify parent (·.flip d))
          else
            let s := s.modify parent (·.flip d.opp)
            if (s.entry parent).red d.opp then rbInsertColor fuel s parent
            else rbInsertRotate d s parent elm

/-- The loop of `RB_INSERT`: the node with the key of the new one, or the last node on the way down
and the result of the last comparison. -/
def rbInsertSearch (cmp : α → ℤ) (s : RbTree α) :
    ℕ → Option α → Option α → ℤ → Option (α ⊕ Option α × ℤ)
  | 0, _, _, _ => none
  | _ + 1, none, parent, comp => some (.inr (parent, comp))
  | fuel + 1, some tmp, _, _ =>
      if cmp tmp < 0 then rbInsertSearch cmp s fuel (s.entry tmp).rbeLeft (some tmp) (cmp tmp)
      else if 0 < cmp tmp then
        rbInsertSearch cmp s fuel (s.entry tmp).rbeRight (some tmp) (cmp tmp)
      else some (.inl tmp)

/-- `RB_SET` and the stores behind it in `RB_INSERT`. -/
def rbLink (s : RbTree α) (elm : α) (parent : Option α) (comp : ℤ) : RbTree α :=
  let s := s.modify elm fun _ => ⟨none, none, parent, false, false⟩
  match parent with
  | none => { s with rbhRoot := some elm }
  | some p =>
      if comp < 0 then s.modify p (·.setChild .left (some elm))
      else s.modify p (·.setChild .right (some elm))

/-- `RB_INSERT`. -/
def rbInsert (cmp : α → α → ℤ) (fuel : ℕ) (s : RbTree α) (elm : α) :
    Option (Option α × RbTree α) := do
  match ← rbInsertSearch (cmp elm) s fuel s.rbhRoot none 0 with
  | .inl tmp => some (some tmp, s)
  | .inr (parent, comp) =>
      (rbInsertColor fuel (s.rbLink elm parent comp) elm).map fun s => (none, s)

/-! ### Deletion

The rebalancing goes up from where the node was taken out. -/

/-- The bits of `parent` and `sib` before the last rotation of `RB_REMOVE_COLOR`, and the rotation
that may come before it. -/
def rbRemoveTurn (d : Side) (s : RbTree α) (parent sib : α) : Option (RbTree α) :=
  let s := s.modify sib (·.flip d.opp)
  if (s.entry sib).red d then some (s.modify parent (·.flip d))
  else if !(s.entry sib).red d.opp then
    (rbRotate d.opp (s.modify parent (·.flip d)) sib).map fun r =>
      let elm := r.1
      let s := if (r.2.entry elm).red d.opp then r.2.modify sib (·.flip d) else r.2
      let s := if (s.entry elm).red d then s.modify parent (·.flip d.opp) else s
      s.modify elm (·.fill true)
  else some s

/-- The rotations of `RB_REMOVE_COLOR`. -/
def rbRemoveRotate (d : Side) (s : RbTree α) (parent sib : α) : Option (RbTree α) := do
  let s ← rbRemoveTurn d s parent sib
  (rbRotate d s parent).map Prod.snd

/-- The test of the loop in `RB_REMOVE_COLOR`, which goes on above `elm` unless that is the root. -/
def rbAbove (s : RbTree α) (elm : α) (loop : α → Option (RbTree α)) : Option (RbTree α) :=
  match (s.entry elm).rbeParent with
  | none => some s
  | some parent => loop parent

/-- The loop of `RB_REMOVE_COLOR`. -/
def rbRemoveColorLoop : ℕ → RbTree α → α → Option α → Option (RbTree α)
  | 0, _, _, _ => none
  | fuel + 1, s, parent, elm =>
      let d := if (s.entry parent).rbeLeft = elm then Side.left else Side.right
      -- `elm = parent; continue;`
      let next := fun (s : RbTree α) =>
        s.rbAbove parent fun up => rbRemoveColorLoop fuel s up (some parent)
      if !(s.entry parent).red d then some (s.modify parent (·.flip d))
      else if (s.entry parent).red d.opp then next (s.modify parent (·.flip d.opp))
      else
        match (s.entry parent).child d.opp with
        | none => none
        | some sib =>
            if (s.entry sib).red d &&
              (s.entry sib).red d.opp then next (s.modify sib (·.fill false))
            else rbRemoveRotate d s parent sib

/-- `RB_REMOVE_COLOR`. -/
def rbRemoveColor (fuel : ℕ) (s : RbTree α) (parent : α) (elm : Option α) : Option (RbTree α) :=
  if (s.entry parent).rbeLeft = elm ∧ (s.entry parent).rbeRight = elm then
    let s := s.modify parent (·.fill false)
    s.rbAbove parent fun up => rbRemoveColorLoop fuel s up (some parent)
  else rbRemoveColorLoop fuel s parent elm

/-- `while (RB_LEFT(elm)) elm = RB_LEFT(elm);` and the same to the right. -/
def rbDescend (d : Side) (s : RbTree α) : ℕ → α → Option α
  | 0, _ => none
  | fuel + 1, elm =>
      match (s.entry elm).child d with
      | none => some elm
      | some x => rbDescend d s fuel x

/-- The end of `RB_REMOVE`, where `elm` gets the place of `old`. -/
def rbReplace (fuel : ℕ) (s : RbTree α) (old : α) (elm child parent : Option α) :
    Option (RbTree α) :=
  let s := s.rbSwapChild old elm
  let s := s.setParent? child parent
  match parent with
  | none => some s
  | some p => rbRemoveColor fuel s p child

/-- `RB_REMOVE`. -/
def rbRemove (fuel : ℕ) (s : RbTree α) (old : α) : Option (RbTree α) :=
  match (s.entry old).rbeLeft, (s.entry old).rbeRight with
  | none, right => rbReplace fuel s old right right (s.entry old).rbeParent
  | some left, none => rbReplace fuel s old (some left) (some left) (s.entry old).rbeParent
  | some left, some right =>
      -- with two children the next element takes the place of `old`: its right child, or the
      -- leftmost below that
      match (s.entry right).rbeLeft with
      | none =>
          let child := (s.entry right).rbeRight
          let s := s.modify old (·.setChild .right child)
          let s := s.modify left (·.setParent (some right))
          let s := s.modify right fun _ => s.entry old
          rbReplace fuel s old (some right) child (some right)
      | some least => do
          let elm ← rbDescend .left s fuel least
          let child := (s.entry elm).rbeRight
          let parent ← (s.entry elm).rbeParent
          let s := s.modify parent (·.setChild .left child)
          let right ← (s.entry old).rbeRight
          let s := s.modify right (·.setParent (some elm))
          let left ← (s.entry old).rbeLeft
          let s := s.modify left (·.setParent (some elm))
          let s := s.modify elm fun _ => s.entry old
          rbReplace fuel s old (some elm) child (some parent)

/-! ### Steps

The neighbours of a node in the order of keys. -/

/-- `while (RB_PARENT(elm) && elm == RB_RIGHT(RB_PARENT(elm))) elm = RB_PARENT(elm);` and the step
to the parent behind it, and the same for the other side. -/
def rbClimb (d : Side) (s : RbTree α) : ℕ → α → Option (Option α)
  | 0, _ => none
  | fuel + 1, elm =>
      match (s.entry elm).rbeParent with
      | none => some none
      | some p => if some elm = (s.entry p).child d then rbClimb d s fuel p else some (some p)

/-- `RB_NEXT` and `RB_PREV`. -/
def rbStep (d : Side) (fuel : ℕ) (s : RbTree α) (elm : α) : Option (Option α) :=
  match (s.entry elm).child d with
  | some x => (rbDescend d.opp s fuel x).map some
  | none =>
      match (s.entry elm).rbeParent with
      | none => rbClimb d s fuel elm
      | some p =>
          if some elm = (s.entry p).child d.opp then some (some p) else rbClimb d s fuel elm

/-- `RB_NEXT`. -/
def rbNext (fuel : ℕ) (s : RbTree α) (elm : α) : Option (Option α) := rbStep .right fuel s elm

/-- `RB_PREV`. -/
def rbPrev (fuel : ℕ) (s : RbTree α) (elm : α) : Option (Option α) := rbStep .left fuel s elm

/-- `RB_REINSERT`. -/
def rbReinsert (cmp : α → α → ℤ) (fuel : ℕ) (s : RbTree α) (elm : α) :
    Option (Option α × RbTree α) := do
  let prev ← rbPrev fuel s elm
  if prev.any fun p => cmp p elm ≥ 0 then
    rbInsert cmp fuel (← rbRemove fuel s elm) elm
  else
    let next ← rbNext fuel s elm
    if next.any fun n => cmp elm n ≥ 0 then
      rbInsert cmp fuel (← rbRemove fuel s elm) elm
    else some (none, s)

end RbTree

end Koharu
