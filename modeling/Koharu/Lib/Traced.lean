import Mathlib.Data.List.Basic

/-!
# Partial computations that leave a trace

A value of `Traced ε α` computes an `α` or fails, and records events of type `ε` on the way. What
was recorded before a failure stays on record, so that a property of all events speaks of the runs
that do not come to an end as well.

* `tell` records events, `lift` embeds a partial computation that records none;
* `val_bind` and `forall_log_bind` reduce a sequence of computations to its parts;
* `Ensures` bounds the events and the results at once, with a rule for each way to build a
  computation;
* `Yields` says that there is a result.
-/

/-- A partial computation with a log, which is kept when the computation fails. -/
structure Traced (ε α : Type) where
  /-- What was recorded. -/
  log : List ε
  /-- The result, unless the computation fails. -/
  val : Option α

namespace Traced

variable {ε α β : Type}

/-- Record events. -/
def tell (l : List ε) : Traced ε Unit := ⟨l, some ()⟩

/-- A computation that records nothing. -/
def lift (x : Option α) : Traced ε α := ⟨[], x⟩

instance : Monad (Traced ε) where
  pure a := ⟨[], some a⟩
  bind x f := match x.val with
    | none => ⟨x.log, none⟩
    | some a => ⟨x.log ++ (f a).log, (f a).val⟩

/-- A result alone logs nothing. -/
@[simp]
theorem pure_log (a : α) : (pure a : Traced ε α).log = [] := rfl

/-- It has a value. -/
@[simp]
theorem pure_val (a : α) : (pure a : Traced ε α).val = some a := rfl

/-- `tell` logs what it is given. -/
@[simp]
theorem tell_log (l : List ε) : (tell l).log = l := rfl

/-- It does not fail. -/
@[simp]
theorem tell_val (l : List ε) : (tell l).val = some () := rfl

/-- A step that only may fail logs nothing. -/
@[simp]
theorem lift_log (x : Option α) : (lift x : Traced ε α).log = [] := rfl

/-- It has the value of the step. -/
@[simp]
theorem lift_val (x : Option α) : (lift x : Traced ε α).val = x := rfl

/-- The results of a sequence are those of its parts. -/
@[simp]
theorem val_bind (x : Traced ε α) (f : α → Traced ε β) :
    (x >>= f).val = x.val.bind fun a => (f a).val := by
  show (match x.val with | none => _ | some a => _ : Traced ε β).val = _
  cases x.val <;> rfl

/-- The log of a sequence whose first part has a result. -/
theorem log_bind {x : Traced ε α} {a : α} (hx : x.val = some a) (f : α → Traced ε β) :
    (x >>= f).log = x.log ++ (f a).log := by
  show (match x.val with | none => _ | some a => _ : Traced ε β).log = _
  rw [hx]

/-- A sequence with a result, taken apart. -/
theorem exists_of_bind {x : Traced ε α} {f : α → Traced ε β} {b : β} (h : (x >>= f).val = some b) :
    ∃ a, x.val = some a ∧ (f a).val = some b ∧ (x >>= f).log = x.log ++ (f a).log := by
  rw [val_bind] at h
  obtain ⟨a, ha, hb⟩ := Option.bind_eq_some_iff.mp h
  exact ⟨a, ha, hb, log_bind ha f⟩

/-- A sequence whose first part is known. -/
@[simp]
theorem some_bind (l : List ε) (a : α) (f : α → Traced ε β) :
    (⟨l, some a⟩ : Traced ε α) >>= f = ⟨l ++ (f a).log, (f a).val⟩ := rfl

/-- Nothing comes after a failure. -/
@[simp]
theorem none_bind (l : List ε) (f : α → Traced ε β) :
    (⟨l, none⟩ : Traced ε α) >>= f = ⟨l, none⟩ := rfl

/-- An event of a sequence is an event of one of its parts. -/
theorem mem_log_bind {x : Traced ε α} {f : α → Traced ε β} {e : ε} :
    e ∈ (x >>= f).log ↔ e ∈ x.log ∨ ∃ a, x.val = some a ∧ e ∈ (f a).log := by
  show e ∈ (match x.val with | none => _ | some a => _ : Traced ε β).log ↔ _
  cases x.val <;> simp

/-- What holds of all events of a sequence. -/
theorem forall_log_bind {x : Traced ε α} {f : α → Traced ε β} {P : ε → Prop} :
    (∀ e ∈ (x >>= f).log, P e) ↔
      (∀ e ∈ x.log, P e) ∧ ∀ a, x.val = some a → ∀ e ∈ (f a).log, P e := by
  constructor
  · intro h
    exact ⟨fun e he => h e (mem_log_bind.mpr (Or.inl he)),
      fun a ha e he => h e (mem_log_bind.mpr (Or.inr ⟨a, ha, he⟩))⟩
  · rintro ⟨hx, hf⟩ e he
    rcases mem_log_bind.mp he with he | ⟨a, ha, he⟩
    · exact hx e he
    · exact hf a ha e he

/-! ### Events and results at once

A triple for computations with a log: every event satisfies one property and the result another. The
rules follow the way in which a computation is put together. -/

/-- All events satisfy `N`, and the result, if there is one, satisfies `Q`. -/
structure Ensures (N : ε → Prop) (Q : α → Prop) (x : Traced ε α) : Prop where
  log : ∀ e ∈ x.log, N e
  val : ∀ a, x.val = some a → Q a

variable {N : ε → Prop} {P : β → Prop} {Q : α → Prop}

/-- A result with the property ensures it. -/
theorem ensures_pure {a : α} (h : Q a) : Ensures N Q (pure a) := by
  refine ⟨nofun, fun b hb => ?_⟩
  cases hb
  exact h

/-- A step that may fail ensures what its value has when it succeeds. -/
theorem ensures_lift {x : Option α} (h : ∀ a, x = some a → Q a) : Ensures N Q (lift x) :=
  ⟨nofun, h⟩

/-- Logging ensures what each entry has. -/
theorem ensures_tell {l : List ε} (h : ∀ e ∈ l, N e) : Ensures N (fun _ => True) (tell l) :=
  ⟨h, fun _ _ => trivial⟩

/-- Two computations in a row: the second may use what the first ensures. -/
theorem Ensures.bind {x : Traced ε α} {f : α → Traced ε β} (hx : Ensures N Q x)
    (hf : ∀ a, Q a → Ensures N P (f a)) : Ensures N P (x >>= f) := by
  refine ⟨forall_log_bind.mpr ⟨hx.log, fun a ha => (hf a (hx.val a ha)).log⟩, fun b hb => ?_⟩
  rw [val_bind] at hb
  obtain ⟨a, ha, hb⟩ := Option.bind_eq_some_iff.mp hb
  exact (hf a (hx.val a ha)).val b hb

/-- A step that may fail, followed by a computation that uses its value. -/
theorem ensures_lift_bind {x : Option α} {f : α → Traced ε β}
    (h : ∀ a, x = some a → Ensures N P (f a)) : Ensures N P (lift x >>= f) :=
  (ensures_lift fun _ => id).bind h

/-- Logging, followed by a computation. -/
theorem ensures_tell_bind {l : List ε} {f : Unit → Traced ε β} (hl : ∀ e ∈ l, N e)
    (hf : Ensures N P (f ())) : Ensures N P (tell l >>= f) :=
  (ensures_tell hl).bind fun _ _ => hf

/-- For a result alone the property is all there is. -/
theorem ensures_pure_iff {a : α} : Ensures N Q (pure a) ↔ Q a :=
  ⟨fun h => h.val a rfl, ensures_pure⟩

/-- A sequence whose first part has a known result. -/
theorem ensures_bind_iff {x : Traced ε α} {f : α → Traced ε β} {a : α} (hx : x.val = some a) :
    Ensures N P (x >>= f) ↔ (∀ e ∈ x.log, N e) ∧ Ensures N P (f a) := by
  constructor
  · intro h
    obtain ⟨hlog, hrest⟩ := forall_log_bind.mp h.log
    refine ⟨hlog, hrest a hx, fun b hb => h.val b ?_⟩
    rw [val_bind, hx, Option.bind_some, hb]
  · rintro ⟨hlog, hrest⟩
    refine ⟨forall_log_bind.mpr ⟨hlog, fun b hb => ?_⟩, fun b hb => ?_⟩
    · rw [← Option.some.inj (hx.symm.trans hb)]
      exact hrest.log
    · rw [val_bind, hx, Option.bind_some] at hb
      exact hrest.val b hb

/-- A weaker postcondition. -/
theorem Ensures.weaken {R : α → Prop} {x : Traced ε α} (h : Ensures N Q x) (hQR : ∀ a, Q a → R a) :
    Ensures N R x :=
  ⟨h.log, fun a ha => hQR a (h.val a ha)⟩

/-- The rule for loops over a list, with an invariant `Q`. -/
theorem ensures_foldlM {ι : Type} {f : α → ι → Traced ε α} (l : List ι)
    (hf : ∀ a, Q a → ∀ i ∈ l, Ensures N Q (f a i)) {a : α} (ha : Q a) :
    Ensures N Q (l.foldlM f a) := by
  induction l generalizing a with
  | nil => exact ensures_pure ha
  | cons i l ih =>
      rw [List.foldlM_cons]
      refine (hf a ha i List.mem_cons_self).bind fun b hb => ih ?_ hb
      exact fun c hc j hj => hf c hc j (List.mem_cons_of_mem i hj)

/-- The rule for loops that count, with an invariant that speaks of the counter. -/
theorem ensures_foldlM_range {Q : ℕ → α → Prop} {f : α → ℕ → Traced ε α} (n : ℕ)
    (hf : ∀ i < n, ∀ a, Q i a → Ensures N (Q (i + 1)) (f a i)) {a : α} (ha : Q 0 a) :
    Ensures N (Q n) ((List.range n).foldlM f a) := by
  -- generalized to a loop that starts at any `i`, which is what the induction runs over
  suffices h : ∀ k i a, i + k = n → Q i a → Ensures N (Q n) ((List.range' i k).foldlM f a) by
    rw [List.range_eq_range']
    exact h n 0 a (Nat.zero_add n) ha
  intro k
  induction k with
  | zero =>
      intro i a hi ha
      rw [Nat.add_zero] at hi
      exact ensures_pure (hi ▸ ha)
  | succ k ih =>
      intro i a hi ha
      rw [List.range'_succ, List.foldlM_cons]
      exact (hf i (by omega) a ha).bind fun b hb => ih (i + 1) b (by omega) hb

/-- What is recorded in one round of a loop that gets that far. -/
theorem mem_log_foldlM {ι : Type} {f : α → ι → Traced ε α} {l₁ l₂ : List ι} {i : ι} {a b : α}
    {e : ε} (h : (l₁.foldlM f a).val = some b) (he : e ∈ (f b i).log) :
    e ∈ ((l₁ ++ i :: l₂).foldlM f a).log := by
  induction l₁ generalizing a with
  | nil =>
      obtain rfl := Option.some.inj h
      rw [List.nil_append, List.foldlM_cons]
      exact mem_log_bind.mpr (Or.inl he)
  | cons j l₁ ih =>
      rw [List.foldlM_cons] at h
      obtain ⟨c, hc, hrest, -⟩ := exists_of_bind h
      rw [List.cons_append, List.foldlM_cons]
      exact mem_log_bind.mpr (Or.inr ⟨c, hc, ih hrest⟩)

/-! ### Computations that do not fail

The same, with the existence of the result. -/

/-- There is a result, and it satisfies `Q`. -/
def Yields (Q : α → Prop) (x : Traced ε α) : Prop := ∃ a, x.val = some a ∧ Q a

/-- A result alone is yielded. -/
theorem yields_pure {a : α} (h : Q a) : Yields Q (pure a : Traced ε α) := ⟨a, rfl, h⟩

/-- A chain of computations that yield does so. -/
theorem Yields.bind {x : Traced ε α} {f : α → Traced ε β} (hx : Yields Q x)
    (hf : ∀ a, Q a → Yields P (f a)) : Yields P (x >>= f) := by
  obtain ⟨a, ha, hq⟩ := hx
  obtain ⟨b, hb, hp⟩ := hf a hq
  exact ⟨b, by rw [val_bind, ha, Option.bind_some, hb], hp⟩

/-- A loop yields when each of its rounds does. -/
theorem yields_foldlM {ι : Type} {f : α → ι → Traced ε α} (l : List ι)
    (hf : ∀ a, Q a → ∀ i ∈ l, Yields Q (f a i)) {a : α} (ha : Q a) : Yields Q (l.foldlM f a) := by
  induction l generalizing a with
  | nil => exact yields_pure ha
  | cons i l ih =>
      rw [List.foldlM_cons]
      refine (hf a ha i List.mem_cons_self).bind fun b hb => ih (fun c hc j hj => ?_) hb
      exact hf c hc j (List.mem_cons_of_mem i hj)

/-- Logging always comes to an end. -/
theorem yields_tell (l : List ε) : Yields (fun _ => True) (tell l) := ⟨(), rfl, trivial⟩

/-- A test that holds is passed. -/
theorem yields_guard {c : Prop} [Decidable c] (hc : c) :
    Yields (fun _ => True) (lift (guard c) : Traced ε Unit) :=
  ⟨(), (if_pos hc : (guard c : Option Unit) = some ()), trivial⟩

end Traced
