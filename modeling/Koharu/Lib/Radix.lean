import Mathlib.Data.Set.Basic
import Mathlib.Data.List.Infix
import Mathlib.Logic.Function.Basic

/-!
# Radix trees in page memory

A memory of pages, each an array of entries, some of which link to further pages. A path of
indices from a root page leads to a page (`node`). A `Shape` says which paths make up the trees:
their roots, the entries of a root they may start with, and their depth.

In a memory whose trees are `Separated`, that is, in which no page is reached in two ways, the
effect of a store is local: only the paths through the entry that was stored change. Linking in a
page that is in no tree, and overwriting a link, keep the trees separated.

`find` walks down a path until it meets an entry that does not link further. What it finds along
other paths is untouched by a store as well (`find_write_of_not_through`).
-/

namespace Koharu.Radix

variable {P I E : Type*}

/-- The page that a path leads to. -/
def node (child : E → Option P) (mem : P → I → E) : P → List I → Option P
  | p, [] => some p
  | p, i :: π => (child (mem p i)).bind fun q => node child mem q π

/-- Where the trees are: the pages they start from, the entries of these pages that belong to
them, and the number of levels below. -/
structure Shape (P I : Type*) where
  roots : Set P
  top : Set I
  depth : ℕ

namespace Shape

/-- The path belongs to one of the trees. -/
def Has (F : Shape P I) (r : P) (π : List I) : Prop :=
  r ∈ F.roots ∧ π.length ≤ F.depth ∧ ∀ i ∈ π.head?, i ∈ F.top

variable {F : Shape P I} {r : P}

/-- A path in the shape begins with a path in the shape. -/
theorem Has.of_append {π π' : List I} (h : F.Has r (π ++ π')) : F.Has r π := by
  obtain ⟨hroot, hlen, htop⟩ := h
  refine ⟨hroot, by simp at hlen; omega, fun i hi => htop i ?_⟩
  cases π with
  | nil => simp at hi
  | cons j π => simpa using hi

/-- The empty path leads to the root. -/
theorem has_nil (hr : r ∈ F.roots) : F.Has r [] := ⟨hr, by simp, by simp⟩

/-- One level further down. -/
theorem Has.snoc {π : List I} {i : I} (h : F.Has r π) (hlen : π.length < F.depth)
    (hi : π = [] → i ∈ F.top) : F.Has r (π ++ [i]) := by
  obtain ⟨hroot, -, htop⟩ := h
  refine ⟨hroot, by simp; omega, fun j hj => ?_⟩
  cases π with
  | nil =>
      obtain rfl : i = j := by simpa using hj
      exact hi rfl
  | cons k π => exact htop j (by simpa using hj)

end Shape

section Node

variable {child : E → Option P} {mem mem' : P → I → E} {F : Shape P I}

/-- The node at the end of the empty path. -/
@[simp]
theorem node_nil (p : P) : node child mem p [] = some p := rfl

/-- A path is followed one part after the other. -/
theorem node_append (p : P) (π π' : List I) :
    node child mem p (π ++ π') = (node child mem p π).bind (node child mem · π') := by
  induction π generalizing p with
  | nil => rfl
  | cons i π ih =>
      rw [List.cons_append, node, node, Option.bind_assoc]
      simp only [ih]

/-- The last step of a path. -/
theorem node_snoc (p : P) (π : List I) (i : I) :
    node child mem p (π ++ [i]) = (node child mem p π).bind fun q => child (mem q i) := by
  rw [node_append]
  congr 1
  funext q
  simp [node]

/-- The page is on one of the trees. -/
def IsNode (child : E → Option P) (mem : P → I → E) (F : Shape P I) (q : P) : Prop :=
  ∃ r π, F.Has r π ∧ node child mem r π = some q

/-- No page is reached in two ways. -/
def Separated (child : E → Option P) (mem : P → I → E) (F : Shape P I) : Prop :=
  ∀ r π r' π' q, F.Has r π → F.Has r' π' → node child mem r π = some q →
    node child mem r' π' = some q → r = r' ∧ π = π'

/-- Memory off the trees does not matter. -/
theorem node_congr (h : ∀ q, IsNode child mem F q → mem' q = mem q) {r : P} {π : List I}
    (hπ : F.Has r π) : node child mem' r π = node child mem r π := by
  induction π using List.reverseRecOn with
  | nil => rfl
  | append_singleton π i ih =>
      rw [node_snoc, node_snoc, ih hπ.of_append]
      cases hq : node child mem r π with
      | none => rfl
      | some q => simp [h q ⟨r, π, hπ.of_append, hq⟩]

end Node

/-! ### Walks

A walk follows the links along a path and stops early at an entry without one. What it finds depends
only on the entries that it reads, which are those of the nodes on the path. -/

section Find

variable (child : E → Option P) (present : E → Bool)

/-- The end of a walk at the entry `e`, with the rest of the path. -/
def found (e : E) (π : List I) : Option (E × List I) := if present e then some (e, π) else none

/-- Walk down a path as long as there are links to follow. -/
def find (mem : P → I → E) : P → List I → Option (E × List I)
  | _, [] => none
  | p, [i] => found present (mem p i) []
  | p, i :: j :: π =>
      match child (mem p i) with
      | some q => find mem q (j :: π)
      | none => found present (mem p i) (j :: π)

/-- What a walk finds from the entry `e` on. -/
def findFrom (mem : P → I → E) (e : E) (π : List I) : Option (E × List I) :=
  match π, child e with
  | [], _ | _, none => found present e π
  | _ :: _, some q => find child present mem q π

variable {child present} {mem mem' : P → I → E}

/-- The first step of a search. -/
theorem find_cons (p : P) (i : I) (π : List I) :
    find child present mem p (i :: π) = findFrom child present mem (mem p i) π := by
  cases π with
  | nil => rw [find, findFrom]
  | cons j π => cases h : child (mem p i) <;> simp [find, findFrom, h]

/-- A walk goes on from the page its path leads to. -/
theorem find_append {r p : P} {π : List I} (hp : node child mem r π = some p) (i : I)
    (π' : List I) : find child present mem r (π ++ i :: π') =
      findFrom child present mem (mem p i) π' := by
  induction π generalizing r with
  | nil =>
      obtain rfl : r = p := by simpa using hp
      rw [List.nil_append, find_cons]
  | cons j π ih =>
      rw [node, Option.bind_eq_some_iff] at hp
      obtain ⟨q, hq, hp⟩ := hp
      rw [List.cons_append, find_cons, ← ih hp]
      cases π <;> simp [findFrom, hq]

/-- The walk stays on the trees. -/
def Shape.Covers (F : Shape P I) (r : P) (π : List I) : Prop :=
  r ∈ F.roots ∧ π.length ≤ F.depth + 1 ∧ ∀ i ∈ π.head?, i ∈ F.top

/-- The nodes on the way to a covered path are in the shape. -/
theorem Shape.Covers.has {F : Shape P I} {r : P} {π π' : List I} {i : I}
    (h : F.Covers r (π ++ i :: π')) : F.Has r π := by
  obtain ⟨hroot, hlen, htop⟩ := h
  refine ⟨hroot, by simp at hlen; omega, fun j hj => htop j ?_⟩
  cases π with
  | nil => simp at hj
  | cons k π => simpa using hj

/-- Two memories that agree on what a walk reads agree on what it finds. -/
theorem find_congr_of_agree {r : P} {π : List I}
    (h : ∀ π₁ i π₂ q, π = π₁ ++ i :: π₂ → node child mem r π₁ = some q → mem' q i = mem q i) :
    find child present mem' r π = find child present mem r π := by
  induction π generalizing r with
  | nil => rw [find, find]
  | cons i π ih =>
      -- the first step reads the root; the rest of the path is read from where it leads
      have hi : mem' r i = mem r i := h [] i π r rfl rfl
      rw [find_cons, find_cons, hi]
      cases π with
      | nil => rfl
      | cons j π =>
          cases hq : child (mem r i) with
          | none => simp only [findFrom, hq]
          | some q =>
              simp only [findFrom, hq]
              refine ih fun π₁ k π₂ q' hπ hq' => h (i :: π₁) k π₂ q' (by rw [hπ]; rfl) ?_
              rw [node, hq]
              exact hq'

/-- Memory off the trees does not matter to a walk. -/
theorem find_congr {F : Shape P I} (h : ∀ q, IsNode child mem F q → mem' q = mem q) {r : P}
    {π : List I} (hπ : F.Covers r π) :
    find child present mem' r π = find child present mem r π := by
  apply find_congr_of_agree
  intro π₁ i π₂ q hsplit hq
  rw [h q ⟨r, π₁, (hsplit ▸ hπ).has, hq⟩]

/-- All the entries that a walk reads, the one where it ends included. -/
def walk (child : E → Option P) (mem : P → I → E) : P → List I → List E
  | _, [] => []
  | p, i :: π =>
      mem p i :: match child (mem p i) with
        | some q => walk child mem q π
        | none => []

/-- Two memories that agree on what a walk reads agree on the walk. -/
theorem walk_congr {r : P} {π : List I}
    (h : ∀ π₁ i π₂ q, π = π₁ ++ i :: π₂ → node child mem r π₁ = some q → mem' q i = mem q i) :
    walk child mem' r π = walk child mem r π := by
  induction π generalizing r with
  | nil => rfl
  | cons i π ih =>
      have hi : mem' r i = mem r i := h [] i π r rfl rfl
      rw [walk, walk, hi]
      cases hq : child (mem r i) with
      | none => rfl
      | some q =>
          refine congrArg _ (ih fun π₁ j π₂ q' hπ hq' => h (i :: π₁) j π₂ q' (by rw [hπ]; rfl) ?_)
          rw [node, hq]
          exact hq'

/-- Walks from roots that agree on their first entries go on alike. -/
theorem walk_congr_cons {r r' : P} {i : I} {π : List I} (hi : mem' r' i = mem r i)
    (h : ∀ π₁ j π₂ q, π = π₁ ++ j :: π₂ → node child mem r (i :: π₁) = some q →
      mem' q j = mem q j) :
    walk child mem' r' (i :: π) = walk child mem r (i :: π) := by
  rw [walk, walk, hi]
  cases hq : child (mem r i) with
  | none => rfl
  | some q =>
      refine congrArg _ (walk_congr fun π₁ j π₂ q' hπ hq' => h π₁ j π₂ q' hπ ?_)
      rw [node, hq]
      exact hq'

end Find

/-! ### Stores

One store changes the walks that go through the entry, and no others as long as every node has one
path only. Three cases cover all uses: the new entry links to nothing, to an empty node, or the path
does not go there. -/

section Write

variable [DecidableEq P] [DecidableEq I]

/-- Store one entry. -/
def write (mem : P → I → E) (p : P) (i : I) (v : E) : P → I → E :=
  Function.update mem p (Function.update (mem p) i v)

/-- A write changes one entry. -/
theorem write_apply (mem : P → I → E) (p : P) (i : I) (v : E) (q : P) (j : I) :
    write mem p i v q j = if q = p ∧ j = i then v else mem q j := by
  by_cases hq : q = p
  · subst hq
    by_cases hj : j = i <;> simp [write, hj]
  · simp [write, hq]

variable {child : E → Option P} {mem : P → I → E} {F : Shape P I} {r₀ p : P} {π₀ : List I} {i : I}
  {v : E}

/-- The path goes through entry `i` of the page at `(r₀, π₀)`. -/
def Through (r₀ : P) (π₀ : List I) (i : I) (r : P) (π : List I) : Prop :=
  r = r₀ ∧ π₀ ++ [i] <+: π

instance (r₀ : P) (π₀ : List I) (i : I) (r : P) (π : List I) : Decidable (Through r₀ π₀ i r π) :=
  inferInstanceAs (Decidable (_ ∧ _))

/-- A store changes the paths through its entry only. -/
theorem node_write_of_not_through (hsep : Separated child mem F) (hπ₀ : F.Has r₀ π₀)
    (hp : node child mem r₀ π₀ = some p) {r : P} {π : List I} (hπ : F.Has r π)
    (hthrough : ¬ Through r₀ π₀ i r π) :
    node child (write mem p i v) r π = node child mem r π := by
  induction π using List.reverseRecOn with
  | nil => rfl
  | append_singleton π j ih =>
      have hshort : ¬ Through r₀ π₀ i r π := fun h =>
        hthrough ⟨h.1, h.2.trans (List.prefix_append _ _)⟩
      rw [node_snoc, node_snoc, ih hπ.of_append hshort]
      cases hq : node child mem r π with
      | none => rfl
      | some q =>
          -- the entry that the path goes on with is not the one written, since a table has one path
          have hne : ¬ (q = p ∧ j = i) := by
            rintro ⟨rfl, rfl⟩
            obtain ⟨rfl, rfl⟩ := hsep r π r₀ π₀ q hπ.of_append hπ₀ hq hp
            exact hthrough ⟨rfl, List.prefix_refl _⟩
          simp [write_apply, hne]

omit [DecidableEq P] [DecidableEq I] in
/-- The path to the entry itself is not through it. -/
theorem not_through_self (r : P) : ¬ Through r₀ π₀ i r π₀ := by
  rintro ⟨-, hprefix⟩
  have := hprefix.length_le
  rw [List.length_append, List.length_singleton] at this
  omega

/-- Paths through the entry go on where the new entry links to. -/
theorem node_write_through (hsep : Separated child mem F) (hπ₀ : F.Has r₀ π₀)
    (hp : node child mem r₀ π₀ = some p) (π : List I) :
    node child (write mem p i v) r₀ (π₀ ++ [i] ++ π) =
      (child v).bind (node child (write mem p i v) · π) := by
  rw [node_append, node_snoc,
    node_write_of_not_through hsep hπ₀ hp hπ₀ (not_through_self r₀), hp]
  simp [write_apply]

/-- After a store that links to nothing, no path leads through the entry. -/
theorem node_write_none (hsep : Separated child mem F) (hπ₀ : F.Has r₀ π₀)
    (hp : node child mem r₀ π₀ = some p) (hv : child v = none ∨ π₀.length = F.depth) {r : P}
    {π : List I} (hπ : F.Has r π) : node child (write mem p i v) r π =
      if Through r₀ π₀ i r π then none else node child mem r π := by
  split
  next hthrough =>
    obtain ⟨rfl, π', rfl⟩ := hthrough
    -- a written entry that leads nowhere, or that is too deep to lead anywhere
    have hnone : child v = none := by
      rcases hv with hv | hlen
      · exact hv
      · have := hπ.2.1
        simp at this
        omega
    rw [node_write_through hsep hπ₀ hp, hnone]
    rfl
  next hthrough => exact node_write_of_not_through hsep hπ₀ hp hπ hthrough

/-- After a store that links to a page without links of its own, that page is where the entry
leads to. -/
theorem node_write_some (hsep : Separated child mem F) (hπ₀ : F.Has r₀ π₀)
    (hp : node child mem r₀ π₀ = some p) {t : P} (hv : child v = some t) (ht : t ≠ p)
    (hempty : ∀ j, child (mem t j) = none) {r : P} {π : List I} (hπ : F.Has r π) :
    node child (write mem p i v) r π = if r = r₀ ∧ π = π₀ ++ [i] then some t
      else if Through r₀ π₀ i r π then none else node child mem r π := by
  by_cases hthrough : Through r₀ π₀ i r π
  · obtain ⟨rfl, π', rfl⟩ := hthrough
    rw [node_write_through hsep hπ₀ hp, hv, Option.bind_some]
    -- the new table itself, and below it nothing: its entries are all empty
    cases π' with
    | nil => simp
    | cons j π' =>
        have : write mem p i v t j = mem t j := by simp [write_apply, ht]
        rw [node, this, hempty]
        simp [Through, List.append_assoc]
  · have hne : ¬ (r = r₀ ∧ π = π₀ ++ [i]) := by
      rintro ⟨rfl, rfl⟩
      exact hthrough ⟨rfl, List.prefix_refl _⟩
    rw [if_neg hne, if_neg hthrough, node_write_of_not_through hsep hπ₀ hp hπ hthrough]

variable {present : E → Bool}

/-- A store does not change what walks find along the paths that are not through its entry. -/
theorem find_write_of_not_through (hsep : Separated child mem F) (hπ₀ : F.Has r₀ π₀)
    (hp : node child mem r₀ π₀ = some p) {r : P} {π : List I} (hπ : F.Covers r π)
    (hthrough : ¬ Through r₀ π₀ i r π) :
    find child present (write mem p i v) r π = find child present mem r π := by
  apply find_congr_of_agree
  intro π₁ j π₂ q hsplit hq
  have hne : ¬ (q = p ∧ j = i) := by
    rintro ⟨rfl, rfl⟩
    obtain ⟨rfl, rfl⟩ := hsep r π₁ r₀ π₀ q (hsplit ▸ hπ).has hπ₀ hq hp
    exact hthrough ⟨rfl, π₂, by rw [hsplit]; simp⟩
  rw [write_apply, if_neg hne]

/-- A walk through the entry goes on from the new one. -/
theorem find_write_through (hsep : Separated child mem F) (hπ₀ : F.Has r₀ π₀)
    (hp : node child mem r₀ π₀ = some p) (π : List I) :
    find child present (write mem p i v) r₀ (π₀ ++ i :: π) =
      findFrom child present (write mem p i v) v π := by
  have hp' := (node_write_of_not_through (v := v) (i := i) hsep hπ₀ hp hπ₀
    (not_through_self r₀)).trans hp
  rw [find_append hp', write_apply, if_pos ⟨rfl, rfl⟩]

end Write

/-! ### Keeping the trees separated

Separation is what the lemmas on stores ask for, and each of them gives it back. -/

section Separated

variable {child : E → Option P} {mem mem' : P → I → E} {F : Shape P I}

/-- Fewer paths are still separated. -/
theorem Separated.of_le (hsep : Separated child mem F)
    (h : ∀ r π q, F.Has r π → node child mem' r π = some q → node child mem r π = some q) :
    Separated child mem' F :=
  fun r π r' π' q hπ hπ' hq hq' =>
    hsep r π r' π' q hπ hπ' (h r π q hπ hq) (h r' π' q hπ' hq')

/-- So are the paths of before and one more, to a page that was on none of the trees. -/
theorem Separated.insert (hsep : Separated child mem F) {r₁ t : P} {π₁ : List I}
    (ht : ¬ IsNode child mem F t)
    (h : ∀ r π q, F.Has r π → node child mem' r π = some q →
      node child mem r π = some q ∨ r = r₁ ∧ π = π₁ ∧ q = t) : Separated child mem' F := by
  intro r π r' π' q hπ hπ' hq hq'
  rcases h r π q hπ hq with hold | ⟨hr, hπ₁, hqt⟩ <;>
    rcases h r' π' q hπ' hq' with hold' | ⟨hr', hπ₁', hqt'⟩
  · exact hsep r π r' π' q hπ hπ' hold hold'
  · exact absurd ⟨r, π, hπ, hqt' ▸ hold⟩ ht
  · exact absurd ⟨r', π', hπ', hqt ▸ hold'⟩ ht
  · exact ⟨hr.trans hr'.symm, hπ₁.trans hπ₁'.symm⟩

end Separated

end Koharu.Radix
