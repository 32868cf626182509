import Koharu.Lib.Newc
import Koharu.Lib.Word
import Koharu.User.Cpio

/-!
# Lookup in an archive

In memory that holds an archive, `cpio_extract` finds the data of the first file with the name it is
given, and nothing if there is none (`cpioExtract_of_archive`). One turn of the loop gets from a
record to the next one (`extractLoop_of_record`).
-/

namespace Koharu

open Bytes Newc

namespace Cpio

variable {mem : Addr → BitVec 8} {base off p : Addr} {l target : List (BitVec 8)}

/-! ### Comparisons

Names are compared in memory, byte by byte. -/

/-- A byte that is read is logged before what follows. -/
theorem readByte_bind {β : Type} (f : BitVec 8 → Traced Addr β) :
    (readByte mem p >>= f) = ⟨p :: (f (mem p)).log, (f (mem p)).val⟩ := rfl

/-- The comparison of a prefix says whether the bytes are there. -/
theorem strncmp_val (hnul : 0 ∉ l) : (strncmp mem p l).val = some (decide (Holds mem p l)) := by
  induction l generalizing p with
  | nil => rfl
  | cons c l ih =>
      rw [List.mem_cons, not_or] at hnul
      rw [strncmp, readByte_bind]
      dsimp only
      by_cases hc : mem p = c
      · have hne : mem p ≠ 0 := fun hzero => hnul.1 (hzero.symm.trans hc)
        rw [if_neg (not_not.mpr hc), if_neg hne, ih hnul.2]
        simp [holds_cons, hc]
      · rw [if_pos hc]
        simp [holds_cons, hc]

/-- The comparison of strings says whether the name ends there as well. -/
theorem strcmp_val (hnul : 0 ∉ l) :
    (strcmp mem p l).val = some (decide (Holds mem p (l ++ [0]))) := by
  induction l generalizing p with
  | nil => simp [strcmp, readByte_bind, holds_cons]
  | cons c l ih =>
      rw [List.mem_cons, not_or] at hnul
      rw [strcmp, readByte_bind]
      dsimp only
      by_cases hc : mem p = c
      · have hne : mem p ≠ 0 := fun hzero => hnul.1 (hzero.symm.trans hc)
        rw [if_pos ⟨hne, hc⟩, ih hnul.2]
        simp [holds_cons, hc]
      · rw [if_neg fun hboth => hc hboth.2]
        simp [holds_cons, hc]

/-- The magic number has no zero byte. -/
theorem magic_nul : 0 ∉ Cpio.magic := by decide

/-- Nor has the name of the trailer. -/
theorem trailer_nul : 0 ∉ trailer := by decide

/-- A name that memory holds is the target iff it is equal to it. -/
theorem holds_target_iff {name : List (BitVec 8)} (hname : 0 ∉ name) (hnul : 0 ∉ l)
    (h : Holds mem p (name ++ [0])) : Holds mem p (l ++ [0]) ↔ name = l := by
  induction l generalizing name p with
  | nil =>
      -- one of the two ends first, or the first bytes decide
      cases name with
      | nil => simpa using h
      | cons b name =>
          refine iff_of_false (fun hzero => hname ?_) (List.cons_ne_nil b name)
          rw [← hzero.1, ← h.1]
          exact List.mem_cons_self
  | cons c l ih =>
      rw [List.mem_cons, not_or] at hnul
      cases name with
      | nil =>
          exact iff_of_false (fun hc => hnul.1 (h.1.symm.trans hc.1)) (List.cons_ne_nil c l).symm
      | cons b name =>
          rw [List.mem_cons, not_or] at hname
          have hb : mem p = b := h.1
          rw [List.cons_append, holds_cons, hb, ih hname.2 hnul.2 h.2, List.cons.injEq]

/-- A name that memory holds begins with the trailer's iff memory does. -/
theorem holds_trailer_iff {name : List (BitVec 8)} (hnul : 0 ∉ l)
    (h : Holds mem p (name ++ [0])) : Holds mem p l ↔ l <+: name := by
  induction l generalizing name p with
  | nil => simp
  | cons c l ih =>
      rw [List.mem_cons, not_or] at hnul
      cases name with
      | nil =>
          exact iff_of_false (fun hc => hnul.1 (h.1.symm.trans hc.1)) fun hle =>
            absurd (List.prefix_nil.mp hle) (List.cons_ne_nil c l)
      | cons b name =>
          have hb : mem p = b := h.1
          rw [holds_cons, hb, ih hnul.2 h.2, List.cons_prefix_cons]
          exact and_congr_left fun _ => eq_comm

/-! ### Numbers

Fields are eight hexadecimal digits each. -/

/-- A digit is put behind the ones before it. -/
theorem toNat_hexStep {val : BitVec 32} {d : ℕ} {b : BitVec 8} (h : IsHexDigit d b)
    (hval : val.toNat < 2 ^ 28) : (hexStep val b).toNat = 16 * val.toNat + d := by
  have hor : ∀ x : BitVec 32, x.toNat = d → (val <<< 4 ||| x).toNat = 16 * val.toNat + d := by
    intro x hx
    have hd := h.lt
    rw [BitVec.toNat_or, BitVec.toNat_shiftLeft, Nat.mod_eq_of_lt (by rw [Nat.shiftLeft_eq]; omega),
      ← Nat.shiftLeft_add_eq_or_of_lt (by omega), Nat.shiftLeft_eq, hx]
    omega
  -- the three ranges of characters, as numbers
  have hnum : ∀ n : ℕ, n < 256 → (BitVec.ofNat 8 n).toNat = n := fun n hn => by
    rw [BitVec.toNat_ofNat, Nat.mod_eq_of_lt hn]
  simp only [hexStep, BitVec.le_def, BitVec.toNat_ofNat, Nat.reducePow, Nat.reduceMod]
  rcases h with ⟨hd, rfl⟩ | ⟨hge, hd, rfl | rfl⟩
  · rw [hnum _ (by omega), if_pos (by omega)]
    apply hor _
    rw [BitVec.toNat_setWidth, BitVec.toNat_sub, hnum _ (by omega), BitVec.toNat_ofNat]
    omega
  · rw [hnum _ (by omega), if_neg (by omega), if_pos (by omega)]
    apply hor _
    rw [BitVec.toNat_setWidth, BitVec.toNat_add, BitVec.toNat_sub, hnum _ (by omega),
      BitVec.toNat_ofNat, BitVec.toNat_ofNat]
    omega
  · rw [hnum _ (by omega), if_neg (by omega), if_neg (by omega), if_pos (by omega)]
    apply hor _
    rw [BitVec.toNat_setWidth, BitVec.toNat_add, BitVec.toNat_sub, hnum _ (by omega),
      BitVec.toNat_ofNat, BitVec.toNat_ofNat]
    omega

/-- Digits after each other, as long as there are at most eight. -/
theorem parseHex_val {ds : List ℕ} (h : List.Forall₂ IsHexDigit ds l) (hlen : l.length ≤ 8)
    (hmem : Holds mem p l) {val : BitVec 32} (hval : val.toNat < 16 ^ (8 - l.length)) :
    ∃ n : BitVec 32, (parseHex mem l.length p val).val = some n ∧
      n.toNat = ds.foldl (fun n d => 16 * n + d) val.toNat := by
  induction h generalizing p val with
  | nil => exact ⟨val, rfl, rfl⟩
  | @cons d b ds l hd hrest ih =>
      rw [List.length_cons] at hlen hval
      have hsplit : 16 ^ (8 - l.length) = 16 * 16 ^ (8 - (l.length + 1)) := by
        rw [← Nat.pow_succ', show (8 - (l.length + 1)).succ = 8 - l.length by omega]
      -- with room for the digits that are left, the shift drops nothing
      have hsmall : val.toNat < 2 ^ 28 := by
        apply Nat.lt_of_lt_of_le hval
        rw [show 2 ^ 28 = 16 ^ 7 by decide]
        exact Nat.pow_le_pow_right (by decide) (by omega)
      have hstep := toNat_hexStep hd hsmall
      rw [List.length_cons, parseHex, readByte_bind, hmem.1, List.foldl_cons, ← hstep]
      have hlt := hd.lt
      exact ih (by omega) hmem.2 (by rw [hstep, hsplit]; omega)

/-- `parse_hex8` reads a number. -/
theorem parseHex8_val {n : ℕ} (hfield : l.length = 8 ∧ HexField n l) (hmem : Holds mem p l) :
    ∃ val : BitVec 32, (parseHex8 mem p).val = some val ∧ val.toNat = n := by
  obtain ⟨hlen, ds, hds, hn⟩ := hfield
  have hzero : (0 : BitVec 32).toNat < 16 ^ (8 - l.length) := by
    rw [hlen]
    decide
  obtain ⟨val, hval, hval_eq⟩ := parseHex_val hds (by omega) hmem hzero
  rw [hlen] at hval
  exact ⟨val, hval, hval_eq.trans hn⟩

/-! ### Offsets

Names and data are padded to multiples of four, which the scan has to do as the writer of the
archive did. -/

/-- Padding rounds up to a multiple of four. -/
theorem toNat_pad {x : Addr} (hx : x.toNat + 3 < 2 ^ 64) :
    (pad x).toNat = (x.toNat + 3) / 4 * 4 := by
  rw [pad, Word.toNat_and_high (a := 2) (by decide) (by decide), BitVec.toNat_add]
  have : (3#64).toNat = 3 := rfl
  omega

/-- The offset of the data that is computed is that of the record. -/
theorem dataOffset_eq {r : Record} {namesize : BitVec 32}
    (hname : namesize.toNat = r.name.length + 1) :
    dataOffset namesize = BitVec.ofNat 64 r.dataStart := by
  have hlt := namesize.isLt
  have hheader : sizeofHeader.toNat = 110 := rfl
  have hsum : (sizeofHeader + namesize.setWidth 64).toNat = 110 + (r.name.length + 1) := by
    rw [BitVec.toNat_add, BitVec.toNat_setWidth]
    omega
  apply BitVec.eq_of_toNat_eq
  rw [dataOffset, toNat_pad (by omega), hsum, r.dataStart_eq, BitVec.toNat_ofNat]
  omega

/-- So is the offset of the next record. -/
theorem nextRecordOffset_eq {r : Record} {namesize filesize : BitVec 32}
    (hname : namesize.toNat = r.name.length + 1) (hdata : filesize.toNat = r.data.length) :
    nextRecordOffset namesize filesize = BitVec.ofNat 64 r.bytes.length := by
  have hlt := namesize.isLt
  have hlt' := filesize.isLt
  have hstart := r.dataStart_eq
  have hsum : (dataOffset namesize + filesize.setWidth 64).toNat = r.dataStart + r.data.length := by
    rw [dataOffset_eq hname, BitVec.toNat_add, BitVec.toNat_setWidth, BitVec.toNat_ofNat]
    omega
  apply BitVec.eq_of_toNat_eq
  rw [nextRecordOffset, toNat_pad (by omega), hsum, r.bytes_length_eq, BitVec.toNat_ofNat]
  omega

/-! ### One record

One turn of the loop, for a file and for the trailer. -/

/-- The result of one turn of the loop. -/
theorem extractLoop_val (fuel : ℕ) (hnul : 0 ∉ target) {filesize namesize : BitVec 32}
    (hfilesize : (parseHex8 mem (base + off + filesizeOffset)).val = some filesize)
    (hnamesize : (parseHex8 mem (base + off + namesizeOffset)).val = some namesize) :
    (extractLoop mem base target (fuel + 1) off).val =
      if ¬ Holds mem (base + off) magic then some .loadError
      else if Holds mem (base + off + sizeofHeader) trailer then some .notFound
      else if Holds mem (base + off + sizeofHeader) (target ++ [0]) then
        some (.success (base + off + dataOffset namesize) (filesize.setWidth 64))
      else (extractLoop mem base target fuel (off + nextRecordOffset namesize filesize)).val := by
  rw [extractLoop, Traced.val_bind, strncmp_val magic_nul, Option.bind_some]
  -- the tests in the order of the source
  by_cases hmagic : Holds mem (base + off) Cpio.magic
  swap
  · simp [hmagic]
  simp only [hmagic, decide_true, Bool.not_true, Bool.false_eq_true, if_false, not_true,
    Traced.val_bind, hfilesize, hnamesize, Option.bind_some, strncmp_val trailer_nul]
  split
  next htrailer => simp [of_decide_eq_true htrailer]
  next htrailer =>
    rw [decide_eq_true_eq] at htrailer
    simp only [htrailer, if_false, Traced.val_bind, strcmp_val hnul, Option.bind_some]
    split
    next hname =>
      rw [decide_eq_true_eq] at hname
      rw [if_pos hname]
      rfl
    next hname =>
      rw [decide_eq_true_eq] at hname
      rw [if_neg hname]

/-- The scan at a record that is not the trailer. -/
theorem extractLoop_of_record (fuel : ℕ) {r : Record} (hnul : 0 ∉ target) (hname : 0 ∉ r.name)
    (htrailer : ¬ trailer <+: r.name) (hmem : Holds mem (base + off) r.bytes) :
    (extractLoop mem base target (fuel + 1) off).val =
      if r.name = target then
        some (.success (base + off + BitVec.ofNat 64 r.dataStart) (BitVec.ofNat 64 r.data.length))
      else (extractLoop mem base target fuel (off + BitVec.ofNat 64 r.bytes.length)).val := by
  have hparts := Record.parts hmem
  obtain ⟨filesize, hfilesize, hdata⟩ := parseHex8_val r.filesize_field hparts.filesize
  obtain ⟨namesize, hnamesize, hlen⟩ := parseHex8_val r.namesize_field hparts.namesize
  have hmagic : Holds mem (base + off) Cpio.magic := hparts.magic
  have hsize : filesize.setWidth 64 = BitVec.ofNat 64 r.data.length := by
    rw [← hdata]
    exact BitVec.eq_of_toNat_eq (by simp)
  -- a record whose name does not begin with the trailer's is no end record
  have hnot : ¬ Holds mem (base + off + sizeofHeader) trailer :=
    mt (holds_trailer_iff trailer_nul hparts.name).mp htrailer
  rw [extractLoop_val fuel hnul hfilesize hnamesize, if_neg (not_not.mpr hmagic), if_neg hnot,
    dataOffset_eq hlen, nextRecordOffset_eq hlen hdata, hsize]
  exact if_congr (holds_target_iff hname hnul hparts.name) rfl rfl

/-- The scan at the trailer. -/
theorem extractLoop_of_trailer (fuel : ℕ) {r : Record} (hnul : 0 ∉ target)
    (htrailer : r.name = trailerName) (hmem : Holds mem (base + off) r.bytes) :
    (extractLoop mem base target (fuel + 1) off).val = some .notFound := by
  have hparts := Record.parts hmem
  obtain ⟨filesize, hfilesize, -⟩ := parseHex8_val r.filesize_field hparts.filesize
  obtain ⟨namesize, hnamesize, -⟩ := parseHex8_val r.namesize_field hparts.namesize
  have hmagic : Holds mem (base + off) Cpio.magic := hparts.magic
  have hname : Holds mem (base + off + sizeofHeader) trailer :=
    (holds_trailer_iff trailer_nul hparts.name).mpr (by rw [htrailer]; exact List.prefix_rfl)
  rw [extractLoop_val fuel hnul hfilesize hnamesize, if_neg (not_not.mpr hmagic), if_pos hname]

/-! ### Archives

The scan passes the records before the first with the name, by induction on their list. -/

/-- A file of an archive: the name has no `NUL`, and is not taken for the trailer. -/
def FileName (r : Record) : Prop := 0 ∉ r.name ∧ ¬ trailer <+: r.name

/-- The scan gets to the end of the records in front of the one it looks for. -/
theorem extractLoop_skip (fuel : ℕ) {rs : List Record} (hnul : 0 ∉ target)
    (hnames : ∀ r ∈ rs, FileName r) (hother : ∀ r ∈ rs, r.name ≠ target)
    (hmem : Holds mem (base + off) (rs.flatMap Record.bytes)) :
    (extractLoop mem base target (rs.length + fuel) off).val =
      (extractLoop mem base target fuel
        (off + BitVec.ofNat 64 (rs.flatMap Record.bytes).length)).val := by
  induction rs generalizing off with
  | nil => simp
  | cons r rs ih =>
      rw [List.flatMap_cons, holds_append] at hmem
      obtain ⟨hname, htrailer⟩ := hnames r List.mem_cons_self
      have hfuel : (r :: rs).length + fuel = rs.length + fuel + 1 := by
        rw [List.length_cons]
        omega
      -- the first record has another name, so that the loop goes on behind it
      rw [hfuel, extractLoop_of_record _ hnul hname htrailer hmem.1,
        if_neg (hother r List.mem_cons_self),
        ih (fun x hx => hnames x (List.mem_cons_of_mem r hx))
          (fun x hx => hother x (List.mem_cons_of_mem r hx))
          (by rw [← BitVec.add_assoc]; exact hmem.2),
        List.flatMap_cons, List.length_append, BitVec.add_assoc, BitVec.ofNat_add]

/-- The lookup in an archive: the first file with the name, or none if there is none. -/
theorem cpioExtract_of_archive {rs : List Record} {last : Record} {fuel : ℕ}
    (hnames : ∀ r ∈ rs, FileName r) (hlast : last.name = trailerName) (hnul : 0 ∉ target)
    (hmem : Holds mem base (rs.flatMap Record.bytes ++ last.bytes)) (hfuel : rs.length < fuel) :
    (∀ rs₁ r rs₂, rs = rs₁ ++ r :: rs₂ → (∀ x ∈ rs₁, x.name ≠ target) → r.name = target →
      ∃ outBase, (cpioExtract fuel mem base target).val =
          some (.success outBase (BitVec.ofNat 64 r.data.length)) ∧
        outBase = base + BitVec.ofNat 64 ((rs₁.flatMap Record.bytes).length + r.dataStart) ∧
        Holds mem outBase r.data) ∧
    ((∀ r ∈ rs, r.name ≠ target) → (cpioExtract fuel mem base target).val = some .notFound) := by
  obtain ⟨hrs, htrailer⟩ := holds_append.mp hmem
  have hzero : ∀ x : Addr, 0 + x = x := BitVec.zero_add
  constructor
  · rintro rs₁ r rs₂ rfl hother htarget
    rw [List.flatMap_append, holds_append] at hrs
    obtain ⟨hfirst, hrest⟩ := hrs
    rw [List.flatMap_cons, holds_append] at hrest
    obtain ⟨hname, hnot⟩ := hnames r (by simp)
    rw [List.length_append, List.length_cons] at hfuel
    -- the records before the file are passed, one round each
    obtain ⟨more, hmore⟩ : ∃ more, fuel = rs₁.length + (more + 1) :=
      ⟨fuel - rs₁.length - 1, by omega⟩
    refine ⟨_, ?_, rfl, ?_⟩
    · rw [cpioExtract, hmore, extractLoop_skip (more + 1) hnul
        (fun x hx => hnames x (List.mem_append_left _ hx)) hother (by simpa using hfirst),
        hzero, extractLoop_of_record more hnul hname hnot hrest.1, if_pos htarget,
        BitVec.ofNat_add, BitVec.add_assoc]
    · rw [BitVec.ofNat_add, ← BitVec.add_assoc]
      exact (Record.parts hrest.1).data
  · intro hother
    obtain ⟨more, hmore⟩ : ∃ more, fuel = rs.length + (more + 1) := ⟨fuel - rs.length - 1, by omega⟩
    rw [cpioExtract, hmore, extractLoop_skip (more + 1) hnul hnames hother (by simpa using hrs),
      hzero, extractLoop_of_trailer more hnul hlast htrailer]

/-- `a`, with two bytes of data, and the trailer. -/
def oneFile : Record := .encode [0x61#8] [0x01#8, 0x02#8] (by decide) (by decide)

/-- The end of an archive. -/
def endRecord : Record := .encode trailerName [] (by decide) (by decide)

/-- The file is found, and another one is not. -/
theorem cpioExtract_of_archive_oneFile :
    (∃ outBase, (cpioExtract 2 (ofList (oneFile.bytes ++ endRecord.bytes) 0) 0#64 [0x61#8]).val =
        some (.success outBase 2#64) ∧
      Holds (ofList (oneFile.bytes ++ endRecord.bytes) 0) outBase [0x01#8, 0x02#8]) ∧
    (cpioExtract 2 (ofList (oneFile.bytes ++ endRecord.bytes) 0) 0#64 [0x62#8]).val =
      some .notFound := by
  have hnames : ∀ r ∈ [oneFile], FileName r := by
    intro r hr
    rw [List.mem_singleton.mp hr]
    exact ⟨by decide, by decide⟩
  have hmem : Holds (ofList (oneFile.bytes ++ endRecord.bytes) 0) 0#64
      ([oneFile].flatMap Record.bytes ++ endRecord.bytes) := by
    -- the archive fits into the address space
    have hlen : (oneFile.bytes ++ endRecord.bytes).length ≤ 2 ^ 64 := by decide +kernel
    simpa using holds_ofList hlen
  constructor
  · obtain ⟨outBase, hval, -, hdata⟩ := (cpioExtract_of_archive hnames rfl (by decide) hmem
      (by decide : 1 < 2)).1 [] oneFile [] rfl (by simp) rfl
    exact ⟨outBase, hval, hdata⟩
  · exact (cpioExtract_of_archive hnames rfl (by decide) hmem (by decide : 1 < 2)).2 (by decide)

end Cpio

end Koharu
