import Mathlib.Data.List.Basic

/-!
# Computations that may fail and keep their state

A value of `Attempt S α` works on a state of type `S`, and returns an `α` or fails. What it did to
the state before a failure is not undone.

* `exists_of_bind`: a sequence with a result, taken apart;
* `Leaves`: what is the same in the state before and in the state after, with or without a result.
-/

/-- A computation on a state, which it leaves behind also when it fails. -/
def Attempt (S α : Type) : Type := S → Option α × S

namespace Attempt

variable {S α β : Type}

/-- The result and the state behind. -/
def run (x : Attempt S α) (s : S) : Option α × S := x s

/-- Change the state. -/
def modify (f : S → S) : Attempt S Unit := fun s => (some (), f s)

instance : Monad (Attempt S) where
  pure a := fun s => (some a, s)
  bind x f := fun s => match x s with
    | (some a, s) => f a s
    | (none, s) => (none, s)

/-- A result alone keeps the state. -/
@[simp]
theorem run_pure (a : α) (s : S) : (pure a : Attempt S α).run s = (some a, s) := rfl

/-- A change of the state. -/
@[simp]
theorem run_modify (f : S → S) (s : S) : (modify f).run s = (some (), f s) := rfl

/-- A sequence whose first part has a result. -/
theorem run_bind {x : Attempt S α} {s s₁ : S} {a : α} (hx : x.run s = (some a, s₁))
    (f : α → Attempt S β) : (x >>= f).run s = (f a).run s₁ := by
  show (match x s with | (some a, s) => f a s | (none, s) => (none, s)) = _
  rw [show x s = _ from hx]
  rfl

/-- Nothing comes after a failure. -/
theorem run_bind_of_none {x : Attempt S α} {s s₁ : S} (hx : x.run s = (none, s₁))
    (f : α → Attempt S β) : (x >>= f).run s = (none, s₁) := by
  show (match x s with | (some a, s) => f a s | (none, s) => (none, s)) = _
  rw [show x s = _ from hx]

/-- A change of the state is seen by what follows. -/
@[simp]
theorem run_modify_bind (f : S → S) (g : Unit → Attempt S β) (s : S) :
    (modify f >>= g).run s = (g ()).run (f s) := rfl

/-- A sequence with a result, taken apart. -/
theorem exists_of_bind {x : Attempt S α} {f : α → Attempt S β} {s s' : S} {b : β}
    (h : (x >>= f).run s = (some b, s')) :
    ∃ a s₁, x.run s = (some a, s₁) ∧ (f a).run s₁ = (some b, s') := by
  cases hx : x.run s with
  | mk a s₁ =>
      cases a with
      | none =>
          rw [run_bind_of_none hx] at h
          cases h
      | some a =>
          rw [run_bind hx] at h
          exact ⟨a, s₁, rfl, h⟩

/-! ### What is left alone

A projection of the state that no step changes is not changed by the whole. -/

variable {γ : Type}

/-- What `f` says about the state is the same afterwards, whether or not there is a result. -/
def Leaves (f : S → γ) (x : Attempt S α) : Prop := ∀ s, f (x.run s).2 = f s

variable {f : S → γ}

/-- A result alone leaves everything. -/
theorem leaves_pure (a : α) : Leaves f (pure a) := fun _ => rfl

/-- A change leaves what it does not touch. -/
theorem leaves_modify {g : S → S} (h : ∀ s, f (g s) = f s) : Leaves f (modify g) := h

/-- What both parts leave is left. -/
theorem Leaves.bind {x : Attempt S α} {y : α → Attempt S β} (hx : Leaves f x)
    (hy : ∀ a, Leaves f (y a)) : Leaves f (x >>= y) := by
  intro s
  have hfirst := hx s
  cases hrun : x.run s with
  | mk a s₁ =>
      rw [hrun] at hfirst
      cases a with
      | none =>
          rw [run_bind_of_none hrun]
          exact hfirst
      | some a =>
          rw [run_bind hrun]
          exact (hy a s₁).trans hfirst

/-- What each round of a loop leaves is left by the loop. -/
theorem leaves_forM {y : α → Attempt S PUnit} (hy : ∀ a, Leaves f (y a)) (l : List α) :
    Leaves f (forM l y) := by
  induction l with
  | nil => exact leaves_pure _
  | cons a l ih =>
      rw [List.forM_cons]
      exact (hy a).bind fun _ => ih

end Attempt
