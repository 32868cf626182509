import Mathlib.Data.BitVec
import Mathlib.Logic.Function.Basic
import Mathlib.Tactic.IntervalCases

/-!
# Words in a memory of bytes

A word of 64 bits takes eight bytes, the lowest one first. Only words at multiples of eight are
looked at here, and two of these are either the same or have no byte in common.

* `load`, `store`: a word is read, or written;
* `wordAt mem x`: the word at the address `x`, which is a number;
* `wordAt_store`: to store a word changes no other word;
* `Agree S mem mem'`: the memories have the same words, except for those at the addresses `S`;
* `Writes V S mem mem'`: and these are words of `V`, if they are not the same.
-/

namespace WordMemory

variable {n : ℕ} {mem mem' mem'' : BitVec n → BitVec 8} {a : BitVec n} {v : BitVec 64} {x y z : ℕ}

/-- The word at an address. -/
def load (mem : BitVec n → BitVec 8) (a : BitVec n) : BitVec 64 :=
  mem (a + 7#n) ++ mem (a + 6#n) ++ mem (a + 5#n) ++ mem (a + 4#n) ++ mem (a + 3#n) ++
    mem (a + 2#n) ++ mem (a + 1#n) ++ mem a

/-- Memory after a word was written. -/
def store (mem : BitVec n → BitVec 8) (a : BitVec n) (v : BitVec 64) (b : BitVec n) : BitVec 8 :=
  if (b - a).toNat < 8 then v.extractLsb' (8 * (b - a).toNat) 8 else mem b

/-- A bit of a word is one of the byte it lies in. -/
theorem getLsbD_load (mem : BitVec n → BitVec 8) (a : BitVec n) {i : ℕ} (hi : i < 64) :
    (load mem a).getLsbD i = (mem (a + BitVec.ofNat n (i / 8))).getLsbD (i % 8) := by
  have hq : i / 8 < 8 := by omega
  have hr : i % 8 < 8 := Nat.mod_lt i (by decide)
  have hqr : 8 * (i / 8) + i % 8 = i := Nat.div_add_mod i 8
  unfold load
  simp only [BitVec.getLsbD_append]
  generalize i / 8 = q at *
  generalize i % 8 = r at *
  subst hqr
  -- one case for each byte
  interval_cases q <;> simp [hr] <;> grind

/-- The bytes of a word are read off the word. -/
theorem load_eq_iff : load mem' a = load mem a ↔
    ∀ i < 8, mem' (a + BitVec.ofNat n i) = mem (a + BitVec.ofNat n i) := by
  constructor
  · intro h i hi
    apply BitVec.eq_of_getLsbD_eq
    intro j hj
    have hbit : (load mem' a).getLsbD (8 * i + j) = (load mem a).getLsbD (8 * i + j) := by rw [h]
    rwa [getLsbD_load _ _ (by omega), getLsbD_load _ _ (by omega), Nat.mul_add_div (by decide),
      Nat.div_eq_of_lt hj, Nat.add_zero, Nat.mul_add_mod, Nat.mod_eq_of_lt hj] at hbit
  · intro h
    apply BitVec.eq_of_getLsbD_eq
    intro i hi
    rw [getLsbD_load _ _ hi, getLsbD_load _ _ hi, h _ (by omega)]

/-- The first byte is the lowest one. -/
theorem toNat_load_mod (mem : BitVec n → BitVec 8) (a : BitVec n) :
    (load mem a).toNat % 256 = (mem a).toNat := by
  have hlow : (load mem a).setWidth 8 = mem a := by
    apply BitVec.eq_of_getLsbD_eq
    intro i hi
    rw [BitVec.getLsbD_setWidth, getLsbD_load _ _ (by omega), Nat.div_eq_of_lt hi,
      Nat.mod_eq_of_lt hi]
    simp [hi]
  rw [← hlow, BitVec.toNat_setWidth]

/-- A stored word is read back. -/
theorem load_store_self (hn : 4 ≤ n) (mem : BitVec n → BitVec 8) (a : BitVec n) (v : BitVec 64) :
    load (store mem a v) a = v := by
  apply BitVec.eq_of_getLsbD_eq
  intro i hi
  have hpow : 2 ^ 4 ≤ 2 ^ n := Nat.pow_le_pow_right (by decide) hn
  have hq : (a + BitVec.ofNat n (i / 8) - a).toNat = i / 8 := by
    rw [BitVec.add_comm, BitVec.add_sub_cancel, BitVec.toNat_ofNat, Nat.mod_eq_of_lt (by omega)]
  rw [getLsbD_load _ _ hi, store, hq, if_pos (by omega), BitVec.getLsbD_extractLsb']
  simp [Nat.mod_lt, Nat.div_add_mod]

/-! ### Words at addresses that are numbers

Addresses are computed as natural numbers, so that `omega` can tell words apart; the lemmas ask that
the numbers are below `2 ^ 64` and aligned. -/

/-- The word at an address. -/
def wordAt (mem : BitVec n → BitVec 8) (x : ℕ) : BitVec 64 := load mem (BitVec.ofNat n x)

/-- A byte outside of the word. -/
theorem store_apply (hx : x + 8 ≤ 2 ^ n) (hz : z < 2 ^ n) (hout : z < x ∨ x + 8 ≤ z)
    (mem : BitVec n → BitVec 8) (v : BitVec 64) :
    store mem (BitVec.ofNat n x) v (BitVec.ofNat n z) = mem (BitVec.ofNat n z) := by
  apply if_neg
  rw [BitVec.toNat_sub, BitVec.toNat_ofNat, BitVec.toNat_ofNat, Nat.mod_eq_of_lt hz,
    Nat.mod_eq_of_lt (by omega : x < 2 ^ n)]
  rcases hout with hlt | hle
  · rw [Nat.mod_eq_of_lt (by omega)]
    omega
  · rw [show 2 ^ n - x + z = z - x + 2 ^ n by omega, Nat.add_mod_right, Nat.mod_eq_of_lt (by omega)]
    omega

/-- A stored word is read back, also when its address is given as a number. -/
theorem wordAt_store_self (hn : 4 ≤ n) (mem : BitVec n → BitVec 8) (x : ℕ) (v : BitVec 64) :
    wordAt (store mem (BitVec.ofNat n x) v) x = v :=
  load_store_self hn mem _ v

/-- Another aligned word is not changed by a store. -/
theorem wordAt_store_of_ne (hx : 8 ∣ x) (hy : 8 ∣ y) (hxn : x + 8 ≤ 2 ^ n) (hyn : y + 8 ≤ 2 ^ n)
    (hne : y ≠ x) (mem : BitVec n → BitVec 8) (v : BitVec 64) :
    wordAt (store mem (BitVec.ofNat n x) v) y = wordAt mem y := by
  apply load_eq_iff.mpr
  intro i hi
  rw [← BitVec.ofNat_add]
  exact store_apply hxn (by omega) (by omega) mem v

/-! ### Memories that agree

Two relations between memories: where they may differ, and what may have been written there. -/

/-- The memories have the same words, except for those at the addresses `S`. -/
def Agree (S : Set ℕ) (mem mem' : BitVec n → BitVec 8) : Prop :=
  ∀ x, 8 ∣ x → x + 8 ≤ 2 ^ n → x ∉ S → wordAt mem' x = wordAt mem x

variable {S T : Set ℕ}

/-- A memory agrees with itself. -/
theorem Agree.refl (S : Set ℕ) (mem : BitVec n → BitVec 8) : Agree S mem mem := fun _ _ _ _ => rfl

/-- Two steps may change what either of them may. -/
theorem Agree.trans (h : Agree S mem mem') (h' : Agree T mem' mem'') : Agree (S ∪ T) mem mem'' := by
  intro x hx hxn hnot
  rw [h' x hx hxn fun hT => hnot (.inr hT), h x hx hxn fun hS => hnot (.inl hS)]

/-- A step may be allowed to change more. -/
theorem Agree.mono (h : Agree S mem mem') (hsub : S ⊆ T) : Agree T mem mem' :=
  fun x hx hxn hnot => h x hx hxn fun hS => hnot (hsub hS)

/-- The memories have the same words, except that there may be words of `V` at the addresses `S`. -/
def Writes (V : Set (BitVec 64)) (S : Set ℕ) (mem mem' : BitVec n → BitVec 8) : Prop :=
  ∀ x, 8 ∣ x → x + 8 ≤ 2 ^ n → wordAt mem' x = wordAt mem x ∨ x ∈ S ∧ wordAt mem' x ∈ V

variable {V : Set (BitVec 64)}

/-- Nothing was written. -/
theorem Writes.refl (V : Set (BitVec 64)) (S : Set ℕ) (mem : BitVec n → BitVec 8) :
    Writes V S mem mem :=
  fun _ _ _ => .inl rfl

/-- What is written twice has the second word. -/
theorem Writes.trans (h : Writes V S mem mem') (h' : Writes V T mem' mem'') :
    Writes V (S ∪ T) mem mem'' := by
  intro x hx hxn
  rcases h' x hx hxn with hsame | ⟨hT, hV⟩
  · rw [hsame]
    exact (h x hx hxn).imp_right fun ⟨hS, hV⟩ => ⟨.inl hS, hV⟩
  · exact .inr ⟨.inr hT, hV⟩

/-- More places may be allowed. -/
theorem Writes.mono (h : Writes V S mem mem') (hsub : S ⊆ T) : Writes V T mem mem' :=
  fun x hx hxn => (h x hx hxn).imp_right fun ⟨hS, hV⟩ => ⟨hsub hS, hV⟩

/-- What is written lies in the places allowed. -/
theorem Writes.agree (h : Writes V S mem mem') : Agree S mem mem' :=
  fun x hx hxn hnot => (h x hx hxn).resolve_right fun hin => hnot hin.1

/-- One store writes one word. -/
theorem writes_store (hn : 4 ≤ n) (hx : 8 ∣ x) (hxn : x + 8 ≤ 2 ^ n) (hv : v ∈ V)
    (mem : BitVec n → BitVec 8) : Writes V {x} mem (store mem (BitVec.ofNat n x) v) := by
  intro y hy hyn
  by_cases hne : y = x
  · rw [hne, wordAt_store_self hn]
    exact .inr ⟨rfl, hv⟩
  · exact .inl (wordAt_store_of_ne hx hy hxn hyn hne mem v)

/-- A byte of a word that is the same is the same. -/
theorem Agree.byte (h : Agree S mem mem') (hz : z < 2 ^ n) (hn : 3 ≤ n) (hnot : z / 8 * 8 ∉ S) :
    mem' (BitVec.ofNat n z) = mem (BitVec.ofNat n z) := by
  have hpow : 8 ∣ 2 ^ n := pow_dvd_pow 2 hn
  have hword := h (z / 8 * 8) (Nat.dvd_mul_left ..) (by omega) hnot
  have hbyte := load_eq_iff.mp hword (z % 8) (Nat.mod_lt z (by decide))
  rwa [← BitVec.ofNat_add, Nat.div_add_mod'] at hbyte

end WordMemory
