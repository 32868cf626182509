import Mathlib.Init

/-!
# Machines and their runs

A machine is a partial step function `step : S → A → Option S`: `A` are the actions, of whichever
thread or CPU, and `none` means that the action is not possible in that state. A run takes one
action after another, in any order, so that all interleavings of the actions of several threads
are runs.

* `Run step cond s₀ s`: `s` is reached from `s₀` by actions that satisfy `cond`;
* `Run.invariant`: what the start satisfies and every step keeps, every state reached satisfies;
* `Run.of_execAll`: a list of actions that can be executed is a run.
-/

namespace Machine

variable {S A : Type*}

/-- The states reached from `s₀` by actions that satisfy `cond` where they are taken. -/
inductive Run (step : S → A → Option S) (cond : S → A → Prop) (s₀ : S) : S → Prop
  | init : Run step cond s₀ s₀
  | step {s s' : S} (a : A) (hrun : Run step cond s₀ s) (hcond : cond s a)
      (hstep : step s a = some s') : Run step cond s₀ s'

variable {step : S → A → Option S} {cond : S → A → Prop} {s₀ s s' : S}

/-- The rule of invariants. -/
theorem Run.invariant {I : S → Prop} (hinit : I s₀)
    (hkeep : ∀ s s' a, I s → cond s a → step s a = some s' → I s')
    (hrun : Run step cond s₀ s) : I s := by
  induction hrun with
  | init => exact hinit
  | step a _ hcond hstep ih => exact hkeep _ _ a ih hcond hstep

/-- A run under a stronger condition. -/
theorem Run.mono {cond' : S → A → Prop} (himp : ∀ s a, cond s a → cond' s a)
    (hrun : Run step cond s₀ s) : Run step cond' s₀ s := by
  induction hrun with
  | init => exact .init
  | step a _ hcond hstep ih => exact ih.step a (himp _ a hcond) hstep

/-- Take the actions of a list, as long as each is possible and satisfies `cond`. -/
def execAll (step : S → A → Option S) (cond : S → A → Prop) [∀ s a, Decidable (cond s a)] (s : S) :
    List A → Option S
  | [] => some s
  | a :: as => if cond s a then (step s a).bind fun s => execAll step cond s as else none

/-- What a list of actions leads to, a run leads to. -/
theorem Run.of_execAll [∀ s a, Decidable (cond s a)] (as : List A) (hrun : Run step cond s₀ s)
    (hexec : execAll step cond s as = some s') : Run step cond s₀ s' := by
  induction as generalizing s with
  | nil =>
      obtain rfl := Option.some.inj hexec
      exact hrun
  | cons a as ih =>
      rw [execAll] at hexec
      split at hexec
      next hcond =>
        obtain ⟨s₁, hstep, hrest⟩ := Option.bind_eq_some_iff.mp hexec
        exact ih (hrun.step a hcond hstep) hrest
      next => cases hexec

/-- A run to a state that passes a check, found by execution. -/
theorem exists_run_of_execAll (step : S → A → Option S) (cond : S → A → Prop)
    [∀ s a, Decidable (cond s a)] (s₀ : S) (as : List A) (check : S → Bool)
    (hcheck : (execAll step cond s₀ as).any check = true) :
    ∃ s, Run step cond s₀ s ∧ check s = true := by
  obtain ⟨s, hexec, hchecked⟩ := (Option.any_eq_true _ _).mp hcheck
  exact ⟨s, Run.init.of_execAll as hexec, hchecked⟩

end Machine
