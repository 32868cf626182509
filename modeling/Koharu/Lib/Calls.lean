import Mathlib.Init

/-!
# Sequences of calls

An object with calls is a function `call : S → A → Option (R × S)`: in a state, a call gives a
result and the next state, and `none` is a call that the object does not allow, or that goes wrong.
`callAll` makes one call after the other and collects the results.

An object *refines* another one by a relation between their states where it answers every call that
the other one allows in the same way, and the states stay related. It then does so over any sequence
of calls (`callAll_refines`), so that a client of the one cannot tell them apart.
-/

namespace Calls

variable {S T A R : Type*}

/-- Make the calls of a list, and collect the results. -/
def callAll (call : S → A → Option (R × S)) (s : S) : List A → Option (List R × S)
  | [] => some ([], s)
  | a :: as =>
      (call s a).bind fun q => (callAll call q.2 as).map fun r => (q.1 :: r.1, r.2)

/-- `impl` answers in related states as `spec` does. -/
def Refines (spec : S → A → Option (R × S)) (impl : T → A → Option (R × T)) (rel : S → T → Prop) :
    Prop :=
  ∀ ⦃s t a r s'⦄, rel s t → spec s a = some (r, s') → ∃ t', impl t a = some (r, t') ∧ rel s' t'

variable {spec : S → A → Option (R × S)} {impl : T → A → Option (R × T)} {rel : S → T → Prop}
  {s s' : S} {t : T} {as : List A} {rs : List R}

/-- What holds of one call holds of any sequence of calls. -/
theorem callAll_refines (h : Refines spec impl rel) (hrel : rel s t)
    (hcalls : callAll spec s as = some (rs, s')) :
    ∃ t', callAll impl t as = some (rs, t') ∧ rel s' t' := by
  induction as generalizing s t rs with
  | nil =>
      obtain ⟨rfl, rfl⟩ := Prod.ext_iff.mp (Option.some.inj hcalls)
      exact ⟨t, rfl, hrel⟩
  | cons a as ih =>
      obtain ⟨⟨r, s₁⟩, hcall, hmore⟩ := Option.bind_eq_some_iff.mp hcalls
      obtain ⟨⟨rs', s₂⟩, hrest, heq⟩ := Option.map_eq_some_iff.mp hmore
      obtain ⟨rfl, rfl⟩ := Prod.ext_iff.mp heq
      obtain ⟨t₁, ht₁, hrel₁⟩ := h hrel hcall
      obtain ⟨t', ht', hrel'⟩ := ih hrel₁ hrest
      refine ⟨t', ?_, hrel'⟩
      rw [callAll, ht₁, Option.bind_some, ht']
      rfl

end Calls
