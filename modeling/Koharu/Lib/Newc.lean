import Koharu.Lib.Bytes
import Mathlib.Data.List.Forall2

/-!
# The newc format of cpio

A record is a header of 110 characters, the name with a `NUL` behind it, and the data. Both the data
and the next record begin at a multiple of four bytes from the start of the record. An archive is a
sequence of records, the last of which is named `TRAILER!!!`.

A `Record` holds all the characters, so that it is any of the encodings of its name and data: the
numbers may have digits in either case, and whatever is in the padding and in the fields that do not
say how long something is.
-/

namespace Koharu.Newc

open Bytes

/-- `070701`. -/
def magic : List (BitVec 8) := [0x30#8, 0x37#8, 0x30#8, 0x37#8, 0x30#8, 0x31#8]

/-- `TRAILER!!!`. -/
def trailerName : List (BitVec 8) :=
  [0x54#8, 0x52#8, 0x41#8, 0x49#8, 0x4C#8, 0x45#8, 0x52#8, 0x21#8, 0x21#8, 0x21#8]

/-- The padding from `n` bytes to a multiple of four. -/
def padding (n : ℕ) : ℕ := (4 - n % 4) % 4

/-- An encoded file. -/
structure Record where
  name : List (BitVec 8)
  data : List (BitVec 8)
  /-- `ino`, `mode`, `uid`, `gid`, `nlink` and `mtime`. -/
  before : List (BitVec 8)
  filesize : List (BitVec 8)
  /-- `devmajor`, `devminor`, `rdevmajor` and `rdevminor`. -/
  between : List (BitVec 8)
  namesize : List (BitVec 8)
  check : List (BitVec 8)
  namePad : List (BitVec 8)
  dataPad : List (BitVec 8)
  before_length : before.length = 48
  filesize_field : filesize.length = 8 ∧ HexField data.length filesize
  between_length : between.length = 32
  namesize_field : namesize.length = 8 ∧ HexField (name.length + 1) namesize
  check_length : check.length = 8
  namePad_length : namePad.length = padding (110 + (name.length + 1))
  dataPad_length : dataPad.length = padding data.length

namespace Record

variable (r : Record)

/-- The characters of the header. -/
def header : List (BitVec 8) :=
  magic ++ (r.before ++ (r.filesize ++ (r.between ++ (r.namesize ++ r.check))))

/-- All characters of the record. -/
def bytes : List (BitVec 8) := r.header ++ (r.name ++ [0#8] ++ (r.namePad ++ (r.data ++ r.dataPad)))

/-- Where the data begins in the record. -/
def dataStart : ℕ := 110 + (r.name.length + 1) + padding (110 + (r.name.length + 1))

/-- A header has 110 bytes. -/
theorem header_length : r.header.length = 110 := by
  simp only [header, List.length_append, r.before_length, r.filesize_field.1, r.between_length,
    r.namesize_field.1, r.check_length]
  rfl

/-- The length of a record with its padding. -/
theorem bytes_length : r.bytes.length = r.dataStart + r.data.length + padding r.data.length := by
  simp only [bytes, List.length_append, r.header_length, r.namePad_length, r.dataPad_length,
    dataStart, List.length_singleton]
  omega

/-- The data begins at the next multiple of four behind the name. -/
theorem dataStart_eq : r.dataStart = (110 + (r.name.length + 1) + 3) / 4 * 4 := by
  rw [dataStart, padding]
  omega

/-- The next record begins at the next multiple of four behind the data. -/
theorem bytes_length_eq : r.bytes.length = (r.dataStart + r.data.length + 3) / 4 * 4 := by
  rw [r.bytes_length, padding, r.dataStart_eq]
  omega

variable {r} {mem : BitVec 64 → BitVec 8} {p : BitVec 64}

/-- The parts of a record, and where they are. -/
structure Parts (mem : BitVec 64 → BitVec 8) (p : BitVec 64) (r : Record) : Prop where
  magic : Holds mem p magic
  filesize : Holds mem (p + 54#64) r.filesize
  namesize : Holds mem (p + 94#64) r.namesize
  name : Holds mem (p + 110#64) (r.name ++ [0#8])
  data : Holds mem (p + BitVec.ofNat 64 r.dataStart) r.data

/-- The parts of a record that lies in memory, each at its offset. -/
theorem parts (h : Holds mem p r.bytes) : Parts mem p r := by
  obtain ⟨hheader, hrest⟩ := holds_append.mp h
  obtain ⟨hname, hrest⟩ := holds_append.mp hrest
  obtain ⟨-, hrest⟩ := holds_append.mp hrest
  -- first the record is taken apart, each part at its offset from `p`; the offsets come after
  have hdata := (holds_append.mp hrest).1
  obtain ⟨hmagic, hrest⟩ := holds_append.mp hheader
  obtain ⟨-, hrest⟩ := holds_append.mp hrest
  obtain ⟨hfilesize, hrest⟩ := holds_append.mp hrest
  obtain ⟨-, hrest⟩ := holds_append.mp hrest
  have hnamesize := (holds_append.mp hrest).1
  rw [header_length] at hname hdata
  simp only [BitVec.add_assoc, ← BitVec.ofNat_add] at hfilesize hnamesize hdata
  rw [r.before_length] at hfilesize
  rw [r.before_length, r.filesize_field.1, r.between_length] at hnamesize
  refine ⟨hmagic, hfilesize, hnamesize, hname, ?_⟩
  rw [List.length_append, r.namePad_length, List.length_singleton, ← Nat.add_assoc] at hdata
  exact hdata

end Record

/-! ### Encoding

The converse of reading a record, so that every list of files is the contents of some archive. -/

/-- A digit, in lower case. -/
def hexDigit (d : ℕ) : BitVec 8 :=
  if d < 10 then BitVec.ofNat 8 (0x30 + d) else BitVec.ofNat 8 (0x61 + (d - 10))

/-- The last `k` digits of a number, the highest first. -/
def hexDigits (n : ℕ) : ℕ → List ℕ
  | 0 => []
  | k + 1 => hexDigits (n / 16) k ++ [n % 16]

/-- The digits that are written can be read. -/
theorem isHexDigit_hexDigit {d : ℕ} (h : d < 16) : IsHexDigit d (hexDigit d) := by
  rw [hexDigit]
  split
  next hlt => exact Or.inl ⟨hlt, rfl⟩
  next hge => exact Or.inr ⟨by omega, h, Or.inl rfl⟩

/-- A number is written with the digits asked for. -/
theorem hexDigits_length (n k : ℕ) : (hexDigits n k).length = k := by
  induction k generalizing n with
  | zero => rfl
  | succ k ih => rw [hexDigits, List.length_append, ih, List.length_singleton]

/-- What is read back is the number, cut to its digits. -/
theorem hexValue_hexDigits (n k : ℕ) : hexValue (hexDigits n k) = n % 16 ^ k := by
  induction k generalizing n with
  | zero => rw [hexDigits, Nat.pow_zero, Nat.mod_one]; rfl
  | succ k ih =>
      have hstep : hexValue (hexDigits n (k + 1)) =
        16 * hexValue (hexDigits (n / 16) k) + n % 16 := by
        rw [hexDigits, hexValue, List.foldl_append]
        rfl
      rw [hstep, ih, Nat.pow_succ, Nat.mul_comm (16 ^ k), Nat.mod_mul]
      omega

/-- Each digit is below sixteen. -/
theorem forall_hexDigits (n k : ℕ) : ∀ d ∈ hexDigits n k, d < 16 := by
  induction k generalizing n with
  | zero => simp [hexDigits]
  | succ k ih =>
      intro d hd
      rw [hexDigits, List.mem_append, List.mem_singleton] at hd
      rcases hd with hd | rfl
      · exact ih (n / 16) d hd
      · omega

/-- A number as a field. -/
theorem hexField_hexDigits {n : ℕ} (h : n < 2 ^ 32) :
    HexField n ((hexDigits n 8).map hexDigit) := by
  refine ⟨hexDigits n 8, ?_, ?_⟩
  · rw [List.forall₂_map_right_iff, List.forall₂_same]
    exact fun d hd => isHexDigit_hexDigit (forall_hexDigits n 8 d hd)
  · rw [hexValue_hexDigits, Nat.mod_eq_of_lt (by omega)]

/-- Each name and contents has an encoding, as long as the sizes fit. -/
def Record.encode (name data : List (BitVec 8)) (hname : name.length + 1 < 2 ^ 32)
    (hdata : data.length < 2 ^ 32) : Record where
  name := name
  data := data
  before := List.replicate 48 0x30#8
  -- fields that no reader looks at are digits of zero
  filesize := (hexDigits data.length 8).map hexDigit
  between := List.replicate 32 0x30#8
  namesize := (hexDigits (name.length + 1) 8).map hexDigit
  check := List.replicate 8 0x30#8
  namePad := List.replicate (padding (110 + (name.length + 1))) 0
  dataPad := List.replicate (padding data.length) 0
  before_length := List.length_replicate
  filesize_field := ⟨by rw [List.length_map, hexDigits_length], hexField_hexDigits hdata⟩
  between_length := List.length_replicate
  namesize_field := ⟨by rw [List.length_map, hexDigits_length], hexField_hexDigits hname⟩
  check_length := List.length_replicate
  namePad_length := List.length_replicate
  dataPad_length := List.length_replicate

end Koharu.Newc
