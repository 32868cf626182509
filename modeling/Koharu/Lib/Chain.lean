import Mathlib.Data.List.Nodup

/-!
# Null-terminated chains

A chain starts at a pointer, follows the link `f` of each node it visits and ends where the link is
`none`. `Segment f p l q` is the part of a chain that visits the nodes `l` and arrives at the
pointer `q`; a whole chain is `Segment f p l none`. A doubly linked list is two chains, over the two
links, that visit the same nodes in opposite orders, so that each fact about chains is used twice
for it.

* `Segment.congr`: only the links of the visited nodes matter;
* `segment_append`: a segment is cut at any node;
* `Segment.insert`, `Segment.erase`: a node is linked in between two parts, or taken out.
-/

namespace Chain

variable {N : Type*} {f g : N → Option N} {p q r : Option N} {l l₁ l₂ : List N} {v : N}

/-- Following `f` from the pointer `p` visits the nodes `l` and arrives at `q`. -/
def Segment (f : N → Option N) (p : Option N) : List N → Option N → Prop
  | [], q => p = q
  | v :: l, q => p = some v ∧ Segment f (f v) l q

/-- Whether the nodes are visited is found by following the links. -/
def decidableSegment [DecidableEq N] (f : N → Option N) (q : Option N) :
    (l : List N) → (p : Option N) → Decidable (Segment f p l q)
  | [], p => inferInstanceAs (Decidable (p = q))
  | v :: l, p =>
      have := decidableSegment f q l (f v)
      inferInstanceAs (Decidable (p = some v ∧ Segment f (f v) l q))

instance [DecidableEq N] (f : N → Option N) (p : Option N) (l : List N) (q : Option N) :
    Decidable (Segment f p l q) := decidableSegment f q l p

/-- An empty segment ends where it begins. -/
theorem segment_nil : Segment f p [] q ↔ p = q := Iff.rfl

/-- A segment begins with its first element. -/
theorem segment_cons : Segment f p (v :: l) q ↔ p = some v ∧ Segment f (f v) l q := Iff.rfl

/-- Two segments in a row. -/
theorem segment_append : Segment f p (l₁ ++ l₂) q ↔ ∃ r, Segment f p l₁ r ∧ Segment f r l₂ q := by
  induction l₁ generalizing p with
  | nil => simp [segment_nil]
  | cons v l ih =>
      rw [List.cons_append, segment_cons, ih]
      constructor
      · rintro ⟨hp, r, hl, hr⟩
        exact ⟨r, ⟨hp, hl⟩, hr⟩
      · rintro ⟨r, ⟨hp, hl⟩, hr⟩
        exact ⟨hp, r, hl, hr⟩

/-- A segment ends with its last element. -/
theorem segment_concat : Segment f p (l ++ [v]) q ↔ Segment f p l (some v) ∧ f v = q := by
  rw [segment_append]
  constructor
  · rintro ⟨r, hl, rfl, hq⟩
    exact ⟨hl, hq⟩
  · rintro ⟨hl, hq⟩
    exact ⟨some v, hl, rfl, hq⟩

/-- Only the links of the visited nodes matter. -/
theorem Segment.congr (h : Segment f p l q) (hlink : ∀ v ∈ l, g v = f v) : Segment g p l q := by
  induction l generalizing p with
  | nil => exact h
  | cons v l ih =>
      refine ⟨h.1, ?_⟩
      rw [hlink v List.mem_cons_self]
      exact ih h.2 fun w hw => hlink w (List.mem_cons_of_mem v hw)

/-- A chain starts at its first node. -/
theorem Segment.head (h : Segment f p l none) : p = l.head? := by
  cases l with
  | nil => exact h
  | cons v l => exact h.1

/-- A node is linked in: the node before it, or the start of the chain, is set to it. -/
theorem Segment.insert (h : Segment f p (l₁ ++ l₂) none) (hnodup : (l₁ ++ l₂).Nodup)
    (hv : g v = l₂.head?) (hlast : ∀ w, l₁.getLast? = some w → g w = some v)
    (hrest : ∀ w ∈ l₁ ++ l₂, l₁.getLast? ≠ some w → g w = f w)
    (hstart : q = if l₁.getLast? = none then some v else p) : Segment g q (l₁ ++ v :: l₂) none := by
  rcases List.eq_nil_or_concat' l₁ with rfl | ⟨l, w, rfl⟩
  · refine ⟨hstart.trans (if_pos rfl), ?_⟩
    rw [hv, show l₂.head? = p from (Segment.head h).symm]
    exact Segment.congr h fun u hu => hrest u hu (by simp)
  · rw [List.getLast?_concat] at hlast hrest hstart
    obtain ⟨r, hleft, hright⟩ := segment_append.mp h
    obtain ⟨hl, -⟩ := segment_concat.mp hleft
    obtain ⟨hnodup₁, -, hdisjoint⟩ := List.nodup_append'.mp hnodup
    have hnotMem : ∀ u ∈ l, w ≠ u := by
      rintro u hu rfl
      exact (List.nodup_append'.mp hnodup₁).2.2 hu (by simp)
    rw [segment_append]
    refine ⟨some v, segment_concat.mpr ⟨?_, hlast w rfl⟩, rfl, ?_⟩
    · rw [hstart, if_neg (by simp)]
      exact hl.congr fun u hu => hrest u (by simp [hu]) (by simp [hnotMem u hu])
    · rw [hv, ← hright.head]
      refine hright.congr fun u hu => hrest u (by simp [hu]) ?_
      rw [Ne, Option.some.injEq]
      rintro rfl
      exact hdisjoint (by simp) hu

/-- A node is taken out: the node before it, or the start of the chain, is set to its link. -/
theorem Segment.erase (h : Segment f p (l₁ ++ v :: l₂) none) (hnodup : (l₁ ++ v :: l₂).Nodup)
    (hlast : ∀ w, l₁.getLast? = some w → g w = f v)
    (hrest : ∀ w ∈ l₁ ++ l₂, l₁.getLast? ≠ some w → g w = f w)
    (hstart : q = if l₁.getLast? = none then f v else p) : Segment g q (l₁ ++ l₂) none := by
  obtain ⟨hnodup₁, hnodup₂, hdisjoint⟩ := List.nodup_append'.mp hnodup
  rcases List.eq_nil_or_concat' l₁ with rfl | ⟨l, w, rfl⟩
  · rw [hstart, if_pos List.getLast?_nil]
    exact Segment.congr h.2 fun u hu => hrest u hu (by simp)
  · rw [List.getLast?_concat] at hlast hrest hstart
    obtain ⟨r, hleft, -, hright⟩ := segment_append.mp h
    obtain ⟨hl, -⟩ := segment_concat.mp hleft
    have hnotMem : ∀ u ∈ l, w ≠ u := by
      rintro u hu rfl
      exact (List.nodup_append'.mp hnodup₁).2.2 hu (by simp)
    rw [segment_append]
    refine ⟨f v, segment_concat.mpr ⟨?_, hlast w rfl⟩, ?_⟩
    · rw [hstart, if_neg (by simp)]
      exact hl.congr fun u hu => hrest u (by simp [hu]) (by simp [hnotMem u hu])
    · refine hright.congr fun u hu => hrest u (by simp [hu]) ?_
      rw [Ne, Option.some.injEq]
      rintro rfl
      exact hdisjoint (by simp) (List.mem_cons_of_mem v hu)

/-- From one pointer there is one chain. -/
theorem Segment.unique (h₁ : Segment f p l₁ none) (h₂ : Segment f p l₂ none) : l₁ = l₂ := by
  induction l₁ generalizing p l₂ with
  | nil =>
      cases l₂ with
      | nil => rfl
      | cons w l₂ =>
          rw [segment_nil.mp h₁] at h₂
          cases h₂.1
  | cons v l₁ ih =>
      cases l₂ with
      | nil =>
          rw [segment_nil.mp h₂] at h₁
          cases h₁.1
      | cons w l₂ =>
          obtain rfl := Option.some.inj (h₁.1.symm.trans h₂.1)
          rw [ih h₁.2 h₂.2]

end Chain
