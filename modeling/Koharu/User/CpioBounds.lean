import Koharu.User.CpioArchive

/-!
# How far the scan of an archive reads

`cpio_extract` is not told how long the archive is. It follows the sizes in the records, and stops
at the file, at the trailer, or at something that is no record. So it stays inside of the archive
iff all records that the sizes lead to do (`cpioExtract_inside_iff`).

A name is looked at up to the first character that differs, so that also a name without an end may
be harmless.
-/

namespace Koharu

open Bytes

namespace Cpio

variable {mem : Addr → BitVec 8} {base off p : Addr} {l target : List (BitVec 8)} {n : ℕ}
  {P : Addr → Prop}

/-! ### The addresses that are read

What is in the log of each function, since the scan is given no length. -/

/-- The first address, and the ones behind it. -/
theorem forall_lt_succ : (∀ k < n + 1, P (p + BitVec.ofNat 64 k)) ↔
    P p ∧ ∀ k < n, P (p + 1#64 + BitVec.ofNat 64 k) := by
  constructor
  · intro h
    refine ⟨by simpa using h 0 (Nat.zero_lt_succ n), fun k hk => ?_⟩
    rw [add_one_add_ofNat]
    exact h (k + 1) (Nat.succ_lt_succ hk)
  · rintro ⟨hfirst, hrest⟩ k hk
    cases k with
    | zero => simpa using hfirst
    | succ k =>
        rw [← add_one_add_ofNat]
        exact hrest k (Nat.lt_of_succ_lt_succ hk)

/-- A property of one byte. -/
theorem forall_lt_one : (∀ k < 1, P (p + BitVec.ofNat 64 k)) ↔ P p := by
  refine ⟨fun h => by simpa using h 0 Nat.one_pos, fun h k hk => ?_⟩
  obtain rfl := Nat.lt_one_iff.mp hk
  simpa using h

/-- `strncmp` reads up to the first character that differs. -/
theorem forall_strncmp_log (hnul : 0 ∉ l) : (∀ a ∈ (strncmp mem p l).log, P a) ↔
    ∀ k < compared mem p l, P (p + BitVec.ofNat 64 k) := by
  induction l generalizing p with
  | nil => simp [strncmp, compared]
  | cons c l ih =>
      rw [List.mem_cons, not_or] at hnul
      rw [strncmp, readByte_bind, compared]
      dsimp only
      rw [List.forall_mem_cons]
      by_cases hc : mem p = c
      · have hne : mem p ≠ 0 := fun hzero => hnul.1 (hzero.symm.trans hc)
        rw [if_neg (not_not.mpr hc), if_neg hne, if_pos hc, forall_lt_succ, ih hnul.2]
      · rw [if_pos hc, if_neg hc, forall_lt_one]
        simp

/-- `strcmp` also reads the `NUL` behind the name. -/
theorem forall_strcmp_log (hnul : 0 ∉ l) : (∀ a ∈ (strcmp mem p l).log, P a) ↔
    ∀ k < compared mem p (l ++ [0]), P (p + BitVec.ofNat 64 k) := by
  induction l generalizing p with
  | nil =>
      have hone : compared mem p [0] = 1 := by
        rw [compared, compared]
        split <;> rfl
      rw [List.nil_append, hone, forall_lt_one, strcmp, readByte_bind]
      dsimp only
      rw [List.forall_mem_cons]
      simp
  | cons c l ih =>
      rw [List.mem_cons, not_or] at hnul
      rw [strcmp, readByte_bind, List.cons_append, compared]
      dsimp only
      rw [List.forall_mem_cons]
      -- the comparison goes on after equal bytes, which are not the terminating zero
      by_cases hc : mem p = c
      · have hne : mem p ≠ 0 := fun hzero => hnul.1 (hzero.symm.trans hc)
        rw [if_pos ⟨hne, hc⟩, if_pos hc, forall_lt_succ, ih hnul.2]
      · rw [if_neg fun hboth => hc hboth.2, if_neg hc, forall_lt_one]
        simp

/-- The number that the next characters are taken for. -/
def hexAt (mem : Addr → BitVec 8) : ℕ → Addr → BitVec 32 → BitVec 32
  | 0, _, val => val
  | n + 1, p, val => hexAt mem n (p + 1#64) (hexStep val (mem p))

/-- Parsing reads its digits one after the other, by induction on their number. -/
theorem parseHex_eq (n : ℕ) (val : BitVec 32) :
    (parseHex mem n p val).val = some (hexAt mem n p val) ∧
      ((∀ a ∈ (parseHex mem n p val).log, P a) ↔ ∀ k < n, P (p + BitVec.ofNat 64 k)) := by
  induction n generalizing p val with
  | zero => exact ⟨rfl, by simp [parseHex]⟩
  | succ n ih =>
      obtain ⟨hval, hlog⟩ := ih (p := p + 1#64) (hexStep val (mem p))
      rw [parseHex, readByte_bind, hexAt, forall_lt_succ]
      exact ⟨hval, by rw [List.forall_mem_cons, hlog]⟩

/-! ### One record

The bytes of a record that are looked at depend on where the comparisons stop. -/

/-- `filesize` of the header at an address. -/
def filesizeAt (mem : Addr → BitVec 8) (p : Addr) : BitVec 32 := hexAt mem 8 (p + filesizeOffset) 0

/-- `namesize` of the header at an address. -/
def namesizeAt (mem : Addr → BitVec 8) (p : Addr) : BitVec 32 := hexAt mem 8 (p + namesizeOffset) 0

/-- The field with the size of the file. -/
theorem filesizeAt_val :
    (parseHex8 mem (p + filesizeOffset)).val = some (filesizeAt mem p) :=
  (parseHex_eq (P := fun _ => True) 8 0).1

/-- The field with the size of the name. -/
theorem namesizeAt_val :
    (parseHex8 mem (p + namesizeOffset)).val = some (namesizeAt mem p) :=
  (parseHex_eq (P := fun _ => True) 8 0).1

/-- Eight bytes are read. -/
theorem forall_parseHex8_log : (∀ a ∈ (parseHex8 mem p).log, P a) ↔
    ∀ k < 8, P (p + BitVec.ofNat 64 k) := (parseHex_eq 8 0).2

/-- There is a record at the offset, it is not the trailer, and it does not have the name. -/
structure Passed (mem : Addr → BitVec 8) (base : Addr) (target : List (BitVec 8)) (off : Addr) :
    Prop where
  magic : Holds mem (base + off) magic
  not_trailer : ¬ Holds mem (base + off + sizeofHeader) trailer
  not_target : ¬ Holds mem (base + off + sizeofHeader) (target ++ [0])

/-- What is looked at of the record at an offset is among the `n` bytes from `base` on: the magic
number up to a character that differs; if none does, both sizes, and the name up to a character
that differs from `TRAILER!!!` and, unless it is the trailer, from the name looked for; and if this
is its name, its data. -/
structure RecordInside (mem : Addr → BitVec 8) (base : Addr) (n : ℕ) (target : List (BitVec 8))
    (off : Addr) : Prop where
  magic : ∀ k < compared mem (base + off) magic, (off + BitVec.ofNat 64 k).toNat < n
  filesize : Holds mem (base + off) Cpio.magic → ∀ k < 8,
    (off + filesizeOffset + BitVec.ofNat 64 k).toNat < n
  namesize : Holds mem (base + off) Cpio.magic → ∀ k < 8,
    (off + namesizeOffset + BitVec.ofNat 64 k).toNat < n
  trailer : Holds mem (base + off) Cpio.magic →
    ∀ k < compared mem (base + off + sizeofHeader) trailer,
      (off + sizeofHeader + BitVec.ofNat 64 k).toNat < n
  name : Holds mem (base + off) Cpio.magic → ¬ Holds mem (base + off + sizeofHeader) Cpio.trailer →
    ∀ k < compared mem (base + off + sizeofHeader) (target ++ [0]),
      (off + sizeofHeader + BitVec.ofNat 64 k).toNat < n
  data : Holds mem (base + off) Cpio.magic → ¬ Holds mem (base + off + sizeofHeader) Cpio.trailer →
    Holds mem (base + off + sizeofHeader) (target ++ [0]) →
    (off + dataOffset (namesizeAt mem (base + off))).toNat + (filesizeAt mem (base + off)).toNat ≤ n

/-- The offsets that following the sizes leads to. -/
inductive Reached (mem : Addr → BitVec 8) (base : Addr) (target : List (BitVec 8)) : Addr → Prop
  | first : Reached mem base target 0
  | next {off : Addr} (h : Reached mem base target off) (hpassed : Passed mem base target off) :
      Reached mem base target (off + nextRecordOffset (namesizeAt mem (base + off))
        (filesizeAt mem (base + off)))

/-- An address of one of the `n` bytes from `base` on. -/
def IsInside (base : Addr) (n : ℕ) (a : Addr) : Prop := (a - base).toNat < n

/-- The data that is found lies in the `n` bytes from `base` on. -/
def ResultInside (base : Addr) (n : ℕ) (r : CpioResult) : Prop :=
  ∀ outBase outSize, r = .success outBase outSize → (outBase - base).toNat + outSize.toNat ≤ n

/-- An address given by its offset lies inside when the offset does. -/
theorem isInside_iff {x : Addr} : IsInside base n (base + off + x) ↔ (off + x).toNat < n := by
  rw [IsInside, BitVec.add_assoc, BitVec.add_comm, BitVec.add_sub_cancel]

/-- A result without a file has no bytes outside. -/
theorem resultInside_of_ne {r : CpioResult} (h : ∀ outBase outSize, r ≠ .success outBase outSize) :
    ResultInside base n r := fun outBase outSize heq => absurd heq (h outBase outSize)

/-- A file lies inside when its end does. -/
theorem resultInside_success {outBase outSize : Addr} :
    ResultInside base n (.success (base + off + outBase) outSize) ↔
      (off + outBase).toNat + outSize.toNat ≤ n := by
  have hsub : base + off + outBase - base = off + outBase := by
    rw [BitVec.add_assoc, BitVec.add_comm, BitVec.add_sub_cancel]
  constructor
  · intro h
    rw [← hsub]
    exact h _ _ rfl
  · intro h x y hxy
    cases hxy
    rwa [hsub]

/-- The part of the loop behind the header. -/
theorem ensures_name (hnul : 0 ∉ target) {filesize namesize : BitVec 32}
    {rest : Traced Addr CpioResult} (hmagic : Holds mem (base + off) magic) :
    Traced.Ensures (IsInside base n) (ResultInside base n) (do
        if ← strncmp mem (base + off + sizeofHeader) trailer then return .notFound
        if ← strcmp mem (base + off + sizeofHeader) target then
          return .success (base + off + dataOffset namesize) (filesize.setWidth 64)
        rest) ↔
      (∀ k < compared mem (base + off + sizeofHeader) trailer,
          (off + sizeofHeader + BitVec.ofNat 64 k).toNat < n) ∧
        (¬ Holds mem (base + off + sizeofHeader) trailer →
          (∀ k < compared mem (base + off + sizeofHeader) (target ++ [0]),
            (off + sizeofHeader + BitVec.ofNat 64 k).toNat < n) ∧
          (Holds mem (base + off + sizeofHeader) (target ++ [0]) →
            (off + dataOffset namesize).toNat + filesize.toNat ≤ n)) ∧
        (Passed mem base target off →
          Traced.Ensures (IsInside base n) (ResultInside base n) rest) := by
  have hinside : ∀ k, IsInside base n (base + off + sizeofHeader + BitVec.ofNat 64 k) ↔
      (off + sizeofHeader + BitVec.ofNat 64 k).toNat < n := by
    intro k
    rw [BitVec.add_assoc (base + off), isInside_iff, ← BitVec.add_assoc]
  rw [Traced.ensures_bind_iff (strncmp_val trailer_nul), forall_strncmp_log trailer_nul]
  simp only [hinside]
  apply and_congr_right
  intro _
  -- the name is compared with the trailer first, and then with the target
  by_cases htrailer : Holds mem (base + off + sizeofHeader) trailer
  · have hpassed : ¬ Passed mem base target off := fun h => h.not_trailer htrailer
    simp only [htrailer, decide_true, if_true, not_true, false_implies, true_and, hpassed, iff_true,
      Traced.ensures_pure_iff]
    exact resultInside_of_ne (by simp)
  simp only [htrailer, decide_false, Bool.false_eq_true, if_false, not_false_iff, true_implies]
  rw [Traced.ensures_bind_iff (strcmp_val hnul), forall_strcmp_log hnul]
  simp only [hinside, and_assoc]
  apply and_congr_right
  intro _
  by_cases hname : Holds mem (base + off + sizeofHeader) (target ++ [0])
  · have hpassed : ¬ Passed mem base target off := fun h => h.not_target hname
    simp only [hname, decide_true, if_true, true_implies, hpassed, false_implies, and_true,
      Traced.ensures_pure_iff, resultInside_success]
    rw [BitVec.toNat_setWidth, Nat.mod_eq_of_lt (by omega)]
  · have hpassed : Passed mem base target off := ⟨hmagic, htrailer, hname⟩
    simp only [hname, decide_false, Bool.false_eq_true, if_false, false_implies, true_and, hpassed,
      true_implies]

/-- One turn of the loop stays inside iff the record does, and what comes after it. -/
theorem ensures_extractLoop_succ (fuel : ℕ) (hnul : 0 ∉ target) :
    Traced.Ensures (IsInside base n) (ResultInside base n)
        (extractLoop mem base target (fuel + 1) off) ↔
      RecordInside mem base n target off ∧ (Passed mem base target off →
        Traced.Ensures (IsInside base n) (ResultInside base n)
          (extractLoop mem base target fuel (off + nextRecordOffset (namesizeAt mem (base + off))
            (filesizeAt mem (base + off))))) := by
  have hinside : ∀ x k, IsInside base n (base + off + x + BitVec.ofNat 64 k) ↔
      (off + x + BitVec.ofNat 64 k).toNat < n := by
    intro x k
    rw [BitVec.add_assoc (base + off), isInside_iff, ← BitVec.add_assoc]
  rw [extractLoop, Traced.ensures_bind_iff (strncmp_val magic_nul), forall_strncmp_log magic_nul]
  simp only [isInside_iff]
  -- without the magic number nothing more is read
  by_cases hmagic : Holds mem (base + off) Cpio.magic
  swap
  · have hpassed : ¬ Passed mem base target off := fun h => hmagic h.magic
    simp only [hmagic, decide_false, Bool.not_false, if_true, Traced.ensures_pure_iff, hpassed,
      false_implies, and_true]
    constructor
    · rintro ⟨h, -⟩
      exact ⟨h, fun h => absurd h hmagic, fun h => absurd h hmagic, fun h => absurd h hmagic,
        fun h => absurd h hmagic, fun h => absurd h hmagic⟩
    · exact fun h => ⟨h.magic, resultInside_of_ne (by simp)⟩
  simp only [hmagic, decide_true, Bool.not_true, Bool.false_eq_true, if_false]
  rw [Traced.ensures_bind_iff filesizeAt_val, Traced.ensures_bind_iff namesizeAt_val,
    ensures_name hnul hmagic, forall_parseHex8_log, forall_parseHex8_log]
  simp only [hinside]
  -- the parts of `RecordInside` are what is read, in order
  constructor
  · rintro ⟨hmagic_in, hfilesize, hnamesize, htrailer, hrest, hnext⟩
    exact ⟨⟨hmagic_in, fun _ => hfilesize, fun _ => hnamesize, fun _ => htrailer,
      fun _ hnot => (hrest hnot).1, fun _ hnot => (hrest hnot).2⟩, hnext⟩
  · rintro ⟨h, hnext⟩
    exact ⟨h.magic, h.filesize hmagic, h.namesize hmagic, h.trailer hmagic,
      fun hnot => ⟨h.name hmagic hnot, h.data hmagic hnot⟩, hnext⟩

/-! ### The scan

The records that are reached are those that the sizes in the headers lead to. -/

/-- The scan reads inside of the `n` bytes from `base` on only, however long it takes, and what it
finds lies inside as well, iff this is so for all records that the sizes lead to. -/
theorem cpioExtract_inside_iff (mem : Addr → BitVec 8) (base : Addr) (n : ℕ) (hnul : 0 ∉ target) :
    (∀ fuel, (∀ a ∈ (cpioExtract fuel mem base target).log, (a - base).toNat < n) ∧
      ∀ outBase outSize, (cpioExtract fuel mem base target).val = some (.success outBase outSize) →
        (outBase - base).toNat + outSize.toNat ≤ n) ↔
      ∀ off, Reached mem base target off → RecordInside mem base n target off := by
  have hensures : ∀ fuel, ((∀ a ∈ (cpioExtract fuel mem base target).log, (a - base).toNat < n) ∧
      ∀ outBase outSize, (cpioExtract fuel mem base target).val = some (.success outBase outSize) →
        (outBase - base).toNat + outSize.toNat ≤ n) ↔
      Traced.Ensures (IsInside base n) (ResultInside base n)
        (extractLoop mem base target fuel 0) := by
    intro fuel
    refine ⟨fun h => ⟨h.1, ?_⟩, fun h => ⟨h.log, fun x y hxy => h.val _ hxy x y rfl⟩⟩
    rintro r hr x y rfl
    exact h.2 x y hr
  simp only [hensures]
  constructor
  · intro h off hreached
    -- the scan is safe from each offset it gets to
    have hsafe : ∀ fuel, Traced.Ensures (IsInside base n) (ResultInside base n)
        (extractLoop mem base target fuel off) := by
      induction hreached with
      | first => exact h
      | next _ hpassed ih =>
          intro fuel
          exact ((ensures_extractLoop_succ fuel hnul).mp (ih (fuel + 1))).2 hpassed
    exact ((ensures_extractLoop_succ 0 hnul).mp (hsafe 1)).1
  · intro h fuel
    suffices hsafe : ∀ off, Reached mem base target off →
        Traced.Ensures (IsInside base n) (ResultInside base n)
          (extractLoop mem base target fuel off) from hsafe 0 .first
    induction fuel with
    | zero => exact fun off _ => Traced.ensures_lift nofun
    | succ fuel ih =>
        intro off hreached
        exact (ensures_extractLoop_succ fuel hnul).mpr
          ⟨h off hreached, fun hpassed => ih _ (hreached.next hpassed)⟩

/-- An archive that was cut off behind its first file: the scan for another file goes on behind
it. -/
theorem cpioExtract_outside : ∃ fuel,
    ∃ a ∈ (cpioExtract fuel (ofList oneFile.bytes 0) 0#64 [0x62#8]).log,
      ¬ (a - 0#64).toNat < oneFile.bytes.length :=
  ⟨2, 116#64, by decide +kernel, by decide +kernel⟩

/-- The trailer alone is looked at inside of its bytes only. -/
theorem cpioExtract_inside_iff_endRecord : endRecord.bytes.length = 124 ∧ ∀ fuel,
    ∀ a ∈ (cpioExtract fuel (ofList endRecord.bytes 0) 0#64 [0x62#8]).log,
      (a - 0#64).toNat < 124 := by
  have htrailer : Holds (ofList endRecord.bytes 0) (0#64 + 0#64 + sizeofHeader) trailer := by
    decide +kernel
  -- the end record is the only one reached, since its name is the trailer
  have honly : ∀ off, Reached (ofList endRecord.bytes 0) 0#64 [0x62#8] off → off = 0 := by
    intro off h
    induction h with
    | first => rfl
    | next _ hpassed ih =>
        subst ih
        exact absurd htrailer hpassed.not_trailer
  have hinside : RecordInside (ofList endRecord.bytes 0) 0#64 124 [0x62#8] 0 :=
    ⟨by decide +kernel, fun _ => by decide +kernel, fun _ => by decide +kernel,
      fun _ => by decide +kernel, fun _ hnot => absurd htrailer hnot,
      fun _ hnot => absurd htrailer hnot⟩
  have hall := (cpioExtract_inside_iff (ofList endRecord.bytes 0) 0#64 124
    (by decide : (0 : BitVec 8) ∉ [0x62#8])).mpr fun off h => honly off h ▸ hinside
  exact ⟨by decide +kernel, fun fuel => (hall fuel).1⟩

end Cpio

end Koharu
