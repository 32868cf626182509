import Koharu.Arch.Pmap
import Koharu.Lib.Bytes
import Koharu.Lib.Traced

/-!
# Looking up a file in a cpio archive

`cpio_extract`, which `user/cpio.c` and `boot/loader.c` have with the same text. The boot loader
tells a bad magic number from a file that is not there, and the other one returns `-1` for both.

The scan reads memory byte by byte, and the addresses are recorded. Offsets are words of 64 bits.
-/

namespace Koharu

open Bytes

/-- The results of `cpio_extract`. -/
inductive CpioResult
  /-- `0`, with `*out_base` and `*out_size`. -/
  | success (outBase outSize : Addr)
  /-- A record does not begin with the magic number: `-1`, or `EFI_LOAD_ERROR`. -/
  | loadError
  /-- The trailer was reached: `-1`, or `EFI_NOT_FOUND`. -/
  | notFound
  deriving DecidableEq

namespace Cpio

/-- `"070701"`. -/
def magic : List (BitVec 8) := [0x30#8, 0x37#8, 0x30#8, 0x37#8, 0x30#8, 0x31#8]

/-- `"TRAILER!!!"`. -/
def trailer : List (BitVec 8) :=
  [0x54#8, 0x52#8, 0x41#8, 0x49#8, 0x4C#8, 0x45#8, 0x52#8, 0x21#8, 0x21#8, 0x21#8]

/-- `sizeof(cpio_header_t)`. -/
def sizeofHeader : Addr := 110#64

/-- The offset of `filesize` in a header. -/
def filesizeOffset : Addr := 54#64

/-- The offset of `namesize` in a header. -/
def namesizeOffset : Addr := 94#64

/-- Read one byte. -/
def readByte (mem : Addr → BitVec 8) (p : Addr) : Traced Addr (BitVec 8) := do
  Traced.tell [p]
  pure (mem p)

/-- One turn of the loop in `parse_hex8`. -/
def hexStep (val : BitVec 32) (b : BitVec 8) : BitVec 32 :=
  if 0x30#8 ≤ b ∧ b ≤ 0x39#8 then val <<< 4 ||| (b - 0x30#8).setWidth 32
  else if 0x61#8 ≤ b ∧ b ≤ 0x66#8 then val <<< 4 ||| (b - 0x61#8 + 10#8).setWidth 32
  else if 0x41#8 ≤ b ∧ b ≤ 0x46#8 then val <<< 4 ||| (b - 0x41#8 + 10#8).setWidth 32
  else val <<< 4

/-- The loop of `parse_hex8` for the next `n` characters. -/
def parseHex (mem : Addr → BitVec 8) : ℕ → Addr → BitVec 32 → Traced Addr (BitVec 32)
  | 0, _, val => pure val
  | n + 1, p, val => do
      let b ← readByte mem p
      parseHex mem n (p + 1#64) (hexStep val b)

/-- `parse_hex8`. -/
def parseHex8 (mem : Addr → BitVec 8) (p : Addr) : Traced Addr (BitVec 32) := parseHex mem 8 p 0

/-- `strncmp(p, l, n) == 0`, for a string `l` of `n` characters. -/
def strncmp (mem : Addr → BitVec 8) : Addr → List (BitVec 8) → Traced Addr Bool
  | _, [] => pure true
  | p, c :: l => do
      let b ← readByte mem p
      if b ≠ c then return false
      else if b = 0 then return true
      else strncmp mem (p + 1#64) l

/-- `strcmp(p, l) == 0`, for a string of the characters `l`. -/
def strcmp (mem : Addr → BitVec 8) : Addr → List (BitVec 8) → Traced Addr Bool
  | p, [] => do
      let b ← readByte mem p
      return b = 0
  | p, c :: l => do
      let b ← readByte mem p
      if b ≠ 0 ∧ b = c then strcmp mem (p + 1#64) l
      else return b = c

/-- `(x + 3) & ~3`. -/
def pad (x : Addr) : Addr := (x + 3#64) &&& ~~~3#64

/-- `data_offset`. -/
def dataOffset (namesize : BitVec 32) : Addr := pad (sizeofHeader + namesize.setWidth 64)

/-- `next_record_offset`. -/
def nextRecordOffset (namesize filesize : BitVec 32) : Addr :=
  pad (dataOffset namesize + filesize.setWidth 64)

/-- The loop of `cpio_extract`, from `current_offset` on. -/
def extractLoop (mem : Addr → BitVec 8) (base : Addr) (target : List (BitVec 8)) :
    ℕ → Addr → Traced Addr CpioResult
  | 0, _ => Traced.lift none
  | fuel + 1, off => do
      if !(← strncmp mem (base + off) magic) then return .loadError
      let filesize ← parseHex8 mem (base + off + filesizeOffset)
      let namesize ← parseHex8 mem (base + off + namesizeOffset)
      if ← strncmp mem (base + off + sizeofHeader) trailer then return .notFound
      if ← strcmp mem (base + off + sizeofHeader) target then
        return .success (base + off + dataOffset namesize) (filesize.setWidth 64)
      extractLoop mem base target fuel (off + nextRecordOffset namesize filesize)

/-- `cpio_extract`. -/
def cpioExtract (fuel : ℕ) (mem : Addr → BitVec 8) (base : Addr) (target : List (BitVec 8)) :
    Traced Addr CpioResult := extractLoop mem base target fuel 0

end Cpio

end Koharu
