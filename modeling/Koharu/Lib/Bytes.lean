import Mathlib.Data.List.Infix
import Mathlib.Data.Nat.Digits.Defs
import Mathlib.Logic.Function.Basic
import Mathlib.Tactic.Ring

/-!
# Strings of bytes in memory

A memory gives a value for each address, and addresses are words that wrap around.

* `Holds mem p l`: memory has the elements of `l` from `p` on;
* `compared mem p l`: how many elements a comparison with `l` looks at, which stops at the first one
  that differs;
* `storeAt tr dst src len mem`: a loop that stores `len` elements, through a translation `tr`;
* `HexField n l`: the characters `l` are `n` in hexadecimal, with digits in either case.
-/

namespace Koharu.Bytes

/-! ### Memory and lists

A list of bytes in memory, from an address on. Addresses have 64 bits and may wrap, so that lists up
to `2 ^ 64` long have a place. -/

section Holds

variable {w : ℕ} {α : Type*} {mem : BitVec w → α} {p : BitVec w} {l l₁ l₂ : List α}

/-- Memory has the elements of a list, from an address on. -/
def Holds (mem : BitVec w → α) : BitVec w → List α → Prop
  | _, [] => True
  | p, b :: l => mem p = b ∧ Holds mem (p + 1#w) l

instance decidableHolds [DecidableEq α] (mem : BitVec w → α) :
    (p : BitVec w) → (l : List α) → Decidable (Holds mem p l)
  | _, [] => isTrue trivial
  | p, b :: l =>
      have := decidableHolds mem (p + 1#w) l
      inferInstanceAs (Decidable (mem p = b ∧ Holds mem (p + 1#w) l))

/-- The empty list lies anywhere. -/
@[simp]
theorem holds_nil : Holds mem p [] := trivial

/-- The first byte and the rest. -/
theorem holds_cons {b : α} : Holds mem p (b :: l) ↔ mem p = b ∧ Holds mem (p + 1#w) l := Iff.rfl

/-- One more step, in numbers. -/
theorem add_one_add_ofNat (p : BitVec w) (k : ℕ) :
    p + 1#w + BitVec.ofNat w k = p + BitVec.ofNat w (k + 1) := by
  rw [BitVec.add_assoc, Nat.add_comm k 1, BitVec.ofNat_add]

/-- Two strings after each other. -/
theorem holds_append : Holds mem p (l₁ ++ l₂) ↔
    Holds mem p l₁ ∧ Holds mem (p + BitVec.ofNat w l₁.length) l₂ := by
  induction l₁ generalizing p with
  | nil => simp
  | cons b l ih =>
      rw [List.cons_append, holds_cons, holds_cons, ih, List.length_cons, add_one_add_ofNat,
        and_assoc]

/-- Element by element. -/
theorem holds_of_forall (h : ∀ k (hk : k < l.length), mem (p + BitVec.ofNat w k) = l[k]) :
    Holds mem p l := by
  induction l generalizing p with
  | nil => trivial
  | cons b l ih =>
      refine ⟨by simpa using h 0 (Nat.zero_lt_succ _), ih fun k hk => ?_⟩
      rw [add_one_add_ofNat]
      exact h (k + 1) (Nat.succ_lt_succ hk)

/-- Memory with a given string at its start. -/
def ofList (l : List α) (d : α) (p : BitVec w) : α := l.getD p.toNat d

/-- A list lies in the memory made of it when it is not too long. -/
theorem holds_ofList {d : α} (hlen : l.length ≤ 2 ^ w) : Holds (ofList l d) (0#w) l := by
  apply holds_of_forall
  intro k hk
  rw [BitVec.zero_add, ofList, BitVec.toNat_ofNat, Nat.mod_eq_of_lt (by omega),
    List.getD_eq_getElem?_getD, List.getElem?_eq_getElem hk, Option.getD_some]

end Holds

/-! ### Comparisons

How far a comparison reads before it is decided. -/

section Compared

variable {w : ℕ} {α : Type*} [DecidableEq α] {mem : BitVec w → α} {p : BitVec w} {l : List α}

/-- The number of elements looked at, up to the first one that differs. -/
def compared (mem : BitVec w → α) : BitVec w → List α → ℕ
  | _, [] => 0
  | p, b :: l => if mem p = b then compared mem (p + 1#w) l + 1 else 1

end Compared

/-! ### Stores

A loop of stores, each at the address that a translation gives for it. The lemma reads one byte of
the memory afterwards. -/

section Stores

variable {w : ℕ} {α : Type*} {tr : BitVec w → Option (BitVec w)} {dst p : BitVec w} {src : ℕ → α}

/-- A loop that stores `len` elements from `dst` on, each at the place that `tr` gives for its
address. Where `tr` gives none, nothing is stored. -/
def storeAt (tr : BitVec w → Option (BitVec w)) (dst : BitVec w) (src : ℕ → α) :
    ℕ → (BitVec w → α) → BitVec w → α
  | 0, mem => mem
  | len + 1, mem => (tr (dst + BitVec.ofNat w len)).elim (storeAt tr dst src len mem)
      fun place => Function.update (storeAt tr dst src len mem) place (src len)

/-- Addresses that are next to each other, at places that are. -/
theorem storeAt_apply {len : ℕ} (hlen : len ≤ 2 ^ w)
    (htr : ∀ k < len, tr (dst + BitVec.ofNat w k) = some (p + BitVec.ofNat w k))
    (mem : BitVec w → α) (a : BitVec w) : storeAt tr dst src len mem a =
      if (a - p).toNat < len then src (a - p).toNat else mem a := by
  induction len with
  | zero => simp [storeAt]
  | succ len ih =>
      rw [storeAt, htr len (Nat.lt_succ_self len), Option.elim_some]
      have hnat : (BitVec.ofNat w len).toNat = len := by
        rw [BitVec.toNat_ofNat, Nat.mod_eq_of_lt (by omega)]
      by_cases ha : a = p + BitVec.ofNat w len
      · -- the last element
        have hsub : (a - p).toNat = len := by
          rw [ha, BitVec.add_comm, BitVec.add_sub_cancel, hnat]
        rw [ha, Function.update_self, ← ha, hsub, if_pos (Nat.lt_succ_self len)]
      · have hsub : (a - p).toNat ≠ len := by
          intro heq
          apply ha
          rw [← hnat, BitVec.toNat_inj] at heq
          rw [← heq, BitVec.add_comm, BitVec.sub_add_cancel]
        have hlt : (a - p).toNat < len + 1 ↔ (a - p).toNat < len := by omega
        rw [Function.update_of_ne ha, ih (by omega) fun k hk => htr k (by omega)]
        simp only [hlt]

end Stores

/-! ### Hexadecimal numbers

Numbers written with a fixed number of digits, of which both cases are read. -/

/-- A character is a hexadecimal digit of value `d`, in either case. -/
def IsHexDigit (d : ℕ) (b : BitVec 8) : Prop :=
  d < 10 ∧ b = BitVec.ofNat 8 (0x30 + d) ∨
    10 ≤ d ∧ d < 16 ∧ (b = BitVec.ofNat 8 (0x61 + (d - 10)) ∨ b = BitVec.ofNat 8 (0x41 + (d - 10)))

/-- A digit is below sixteen. -/
theorem IsHexDigit.lt {d : ℕ} {b : BitVec 8} (h : IsHexDigit d b) : d < 16 := by
  rcases h with ⟨h, -⟩ | ⟨-, h, -⟩
  · omega
  · exact h

/-- The number that digits stand for, the highest first. -/
def hexValue (ds : List ℕ) : ℕ := ds.foldl (fun n d => 16 * n + d) 0

/-- The characters are a number in hexadecimal. -/
def HexField (n : ℕ) (l : List (BitVec 8)) : Prop :=
  ∃ ds, List.Forall₂ IsHexDigit ds l ∧ hexValue ds = n

end Koharu.Bytes
