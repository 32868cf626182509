import Koharu.Arch.PmapRefinement
import Koharu.Lib.Traced

/-!
# The loader of the root server

`elf_load` in `kernel/task/init.c` loads an ELF image from memory. All offsets in it come from the
image, and are added as words of 64 bits. `Access` is what a loader does to memory; an access that
reads the image does so at an offset from its start, which need not be inside of it.

* `Image.elfCheck`: the tests of the header, which `user/elf.c` makes in the same order;
* `Image.elfLoad`: the loader, on the page tables of `Koharu.Arch.Pmap`;
* `Image.WellPlaced`: the program headers and what they load lie in the image;
* `Segment.Inside.copyTo`: what is copied for a segment that lies in the image lies there, too.
-/

namespace Koharu

/-- What a loader does to memory. -/
inductive Access
  /-- `len` bytes of the image were looked at. -/
  | read (off : Addr) (len : ℕ)
  /-- `len` bytes of the image were copied to `dst`. -/
  | copy (dst off : Addr) (len : ℕ)
  /-- `memset(dst, 0, len)`. -/
  | clear (dst : Addr) (len : ℕ)
  /-- `SYS_MAP` of one page. -/
  | map (target va phys prot : Addr)
  /-- `SYS_UNMAP` of one page. -/
  | unmap (target va : Addr)
  deriving DecidableEq

/-- `len` bytes from an offset on lie inside of an image of this size. -/
def InImage (size off : Addr) (len : ℕ) : Prop := off.toNat + len ≤ size.toNat

instance (size off : Addr) (len : ℕ) : Decidable (InImage size off len) :=
  inferInstanceAs (Decidable (_ ≤ _))

/-- What an access reads of the image lies inside of it. -/
def Access.Inside (size : Addr) : Access → Prop
  | read off len => InImage size off len
  | copy _ off len => InImage size off len
  | clear _ _ => True
  | map _ _ _ _ => True
  | unmap _ _ => True

instance (size : Addr) : DecidablePred (Access.Inside size)
  | .read off len => inferInstanceAs (Decidable (InImage size off len))
  | .copy _ off len => inferInstanceAs (Decidable (InImage size off len))
  | .clear _ _ => isTrue trivial
  | .map _ _ _ _ => isTrue trivial
  | .unmap _ _ => isTrue trivial

/-- An ELF image in memory. -/
structure Image where
  /-- The byte at an offset from the start. From `size` on this is what lies behind the image. -/
  byte : Addr → BitVec 8
  size : Addr

/-- `PT_LOAD`. -/
def ptLoad : Addr := 1#64

/-- `sizeof(Elf64_Ehdr)`. -/
def ehdrSize : Addr := 64#64

/-- `sizeof(Elf64_Phdr)`. -/
def phdrSize : Addr := 56#64

namespace Image

variable (img : Image)

/-- The number that `len` bytes stand for, the lowest first. -/
def field (off : Addr) : ℕ → Addr
  | 0 => 0
  | len + 1 => (img.byte off).setWidth 64 ||| field (off + 1) len <<< 8

/-- Look at a field. -/
def read (off : Addr) (len : ℕ) : Traced Access Addr := do
  Traced.tell [.read off len]
  pure (img.field off len)

/-- `e_entry`. -/
def entry : Addr := img.field 24 8

/-- `e_phoff`. -/
def phoff : Addr := img.field 32 8

/-- `e_phnum`. -/
def phnum : Addr := img.field 56 2

/-- The offset of `phdr[i]`. -/
def phdr (i : ℕ) : Addr := img.phoff + BitVec.ofNat 64 i * phdrSize

/-- `phdr[i].p_type`. -/
def type (i : ℕ) : Addr := img.field (img.phdr i) 4

/-- `phdr[i].p_offset`. -/
def offset (i : ℕ) : Addr := img.field (img.phdr i + 8) 8

/-- `phdr[i].p_filesz`. -/
def filesz (i : ℕ) : Addr := img.field (img.phdr i + 32) 8

/-- The tests that come before anything is loaded, the same in `elf_load` and in `elf_check`. -/
def elfCheck : Traced Access Unit := do
  Traced.lift (guard (ehdrSize ≤ img.size))
  Traced.lift (guard ((← img.read 0 4) = 0x464C457F#64))
  Traced.lift (guard ((← img.read 4 1) = 2))
  Traced.lift (guard ((← img.read 5 1) = 1))
  Traced.lift (guard ((← img.read 16 2) = 2))
  Traced.lift (guard ((← img.read 18 2) = 62))
  Traced.lift (guard ((← img.read 54 2) = phdrSize))
  Traced.lift (guard ((← img.read 32 8) + (← img.read 56 2) * phdrSize ≤ img.size))

/-- The header is one that `elf_check` lets pass. The sum is one of words. -/
structure HeaderOk : Prop where
  size : ehdrSize ≤ img.size
  magic : img.field 0 4 = 0x464C457F#64
  elfClass : img.field 4 1 = 2
  data : img.field 5 1 = 1
  execType : img.field 16 2 = 2
  machine : img.field 18 2 = 62
  phentsize : img.field 54 2 = phdrSize
  table : img.phoff + img.phnum * phdrSize ≤ img.size

/-- The program headers, and the bytes that are to be loaded, lie in the image. -/
structure WellPlaced : Prop where
  /-- The table of the program headers. -/
  table : img.phoff.toNat + img.phnum.toNat * phdrSize.toNat ≤ img.size.toNat
  /-- The file range of each `PT_LOAD`. -/
  load : ∀ i < img.phnum.toNat, img.type i = ptLoad →
    InImage img.size (img.offset i) (img.filesz i).toNat

end Image

/-- A loader reads nothing but the image, and accepts no other than well placed ones. -/
structure LoadsInside {α : Type} (img : Image) (x : Traced Access α) : Prop where
  reads : ∀ a ∈ x.log, a.Inside img.size
  rejects : x.val.isSome = true → img.WellPlaced

/-! ### Pages and what is copied to them

The loader goes through the pages of a segment. For each page it copies what the file has for it,
and clears the rest. -/

/-- The pages from `va` up to `vaEnd`. -/
def pagesFrom (va vaEnd : Addr) : List Addr :=
  (List.range ((vaEnd.toNat - va.toNat) / pageSize.toNat)).map fun k =>
    va + BitVec.ofNat 64 k * pageSize

/-- The fields of a program header that the loaders go by. -/
structure Segment where
  /-- `p_flags`. -/
  flags : Addr
  /-- `p_offset`. -/
  offset : Addr
  /-- `p_vaddr`. -/
  vaddr : Addr
  /-- `p_filesz`. -/
  filesz : Addr
  /-- `p_memsz`. -/
  memsz : Addr

namespace Segment

variable (ph : Segment)

/-- What the file has for the segment lies in the image. -/
def Inside (size : Addr) : Prop := InImage size ph.offset ph.filesz.toNat

/-- The address of the first page. -/
def vaStart : Addr := ph.vaddr &&& ~~~(pageSize - 1)

/-- The end of the last page. -/
def vaEnd : Addr := (ph.vaddr + ph.memsz + (pageSize - 1)) &&& ~~~(pageSize - 1)

/-- The values of `va` in `for (; va < va_end; va += PAGE_SIZE)`. -/
def pages : List Addr := pagesFrom ph.vaStart ph.vaEnd

/-- `f_lo`. -/
def fileLo (va : Addr) : Addr := if va > ph.vaddr then va else ph.vaddr

/-- `f_hi`. -/
def fileHi (va : Addr) : Addr :=
  if va + pageSize < ph.vaddr + ph.filesz then va + pageSize else ph.vaddr + ph.filesz

/-- `z_lo`. -/
def zeroLo (va : Addr) : Addr := if va > ph.vaddr + ph.filesz then va else ph.vaddr + ph.filesz

/-- `z_hi`. -/
def zeroHi (va : Addr) : Addr :=
  if va + pageSize < ph.vaddr + ph.memsz then va + pageSize else ph.vaddr + ph.memsz

/-- The `memcpy` for the page at `va`, which is found at `page`. -/
def copyTo (page va : Addr) : List Access :=
  if ph.fileHi va > ph.fileLo va then
    [.copy (page + (ph.fileLo va - va)) (ph.offset + (ph.fileLo va - ph.vaddr))
      (ph.fileHi va - ph.fileLo va).toNat]
  else []

/-- The `memset` for the page at `va`, which is found at `page`. -/
def clearIn (page va : Addr) : List Access :=
  if ph.zeroHi va > ph.zeroLo va then
    [.clear (page + (ph.zeroLo va - va)) (ph.zeroHi va - ph.zeroLo va).toNat]
  else []

/-- `prot` in `elf_load`. -/
def prot : BitVec 32 :=
  protUser ||| (if ph.flags &&& 4 ≠ 0 then protRead else 0) |||
    (if ph.flags &&& 2 ≠ 0 then protWrite else 0) ||| (if ph.flags &&& 1 ≠ 0 then protExec else 0)

end Segment

/-! ### The loader

`elf_load` in the order of the source: the header, the program headers, and the pages of each
`PT_LOAD`. -/

namespace Image

variable {σ : Type} [PageAllocator σ] (img : Image)

/-- One page of a segment in `elf_load`. The bound on the loop of `pmap_map` is never reached. -/
def loadPage (root : Addr) (ph : Segment) (s : PmState σ) (va : Addr) :
    Traced Access (PmState σ) := do
  let alloc := s.allocPages
  Traced.lift (guard (alloc.1 ≠ 0))
  let mapped ← Traced.lift (alloc.2.pmapMap (pageSize.toNat + 1) root va alloc.1 pageSize ph.prot)
  Traced.lift (guard (mapped.1 = true))
  Traced.tell (ph.copyTo alloc.1 va)
  Traced.tell (ph.clearIn alloc.1 va)
  pure mapped.2

/-- One iteration of the outer loop of `elf_load`. -/
def loadPhdr (root : Addr) (s : PmState σ) (i : ℕ) : Traced Access (PmState σ) := do
  if (← img.read (img.phdr i) 4) ≠ ptLoad then pure s
  else do
    let offset ← img.read (img.phdr i + 8) 8
    let filesz ← img.read (img.phdr i + 32) 8
    Traced.lift (guard (offset + filesz ≤ img.size))
    let flags ← img.read (img.phdr i + 4) 4
    let vaddr ← img.read (img.phdr i + 16) 8
    let memsz ← img.read (img.phdr i + 40) 8
    let ph : Segment := { flags, offset, vaddr, filesz, memsz }
    ph.pages.foldlM (loadPage root ph) s

/-- `elf_load` into the pmap with this `pm_root_phys`, and the entry point. There is no result where
it returns `-1`, after which the kernel halts. -/
def elfLoad (s : PmState σ) (root : Addr) : Traced Access (Addr × PmState σ) := do
  img.elfCheck
  let s ← (List.range img.phnum.toNat).foldlM (img.loadPhdr root) s
  pure (← img.read 24 8, s)

end Image

/-! ### The header

Fields are read through the access log, so that each read has to be shown to lie inside of the
image. -/

open Traced

namespace Image

variable {img : Image} {i : ℕ}

/-- Reading a field gives the field. -/
@[simp]
theorem read_val (off : Addr) (len : ℕ) : (img.read off len).val = some (img.field off len) := rfl

/-- It reads inside the image when the field lies there. -/
theorem ensures_read {off : Addr} {len : ℕ} (h : InImage img.size off len) :
    Ensures (Access.Inside img.size) (fun v => v = img.field off len) (img.read off len) := by
  refine ensures_tell_bind ?_ (ensures_pure rfl)
  rintro a ha
  rw [List.mem_singleton.mp ha]
  exact h

/-- `elf_check` returns `0` for the headers that are all right. -/
theorem elfCheck_val : img.elfCheck.val = some () ↔ img.HeaderOk := by
  simp only [elfCheck, val_bind, lift_val, read_val, Option.bind_some, Option.bind_eq_some_iff,
    Option.guard_eq_some']
  constructor
  · rintro ⟨_, hsize, _, hmagic, _, hclass, _, hdata, _, htype, _, hmachine, _, hphentsize, htable⟩
    exact ⟨hsize, hmagic, hclass, hdata, htype, hmachine, hphentsize, htable⟩
  · intro h
    exact ⟨(), h.size, (), h.magic, (), h.elfClass, (), h.data, (), h.execType, (), h.machine, (),
      h.phentsize, h.table⟩

/-- `elf_check` does nothing but look at fields of the header, and not before it knows that there is
one. -/
theorem forall_elfCheck_log {N : Access → Prop}
    (hN : 64 ≤ img.size.toNat → ∀ off : Addr, ∀ len, off.toNat + len ≤ 64 → N (.read off len)) :
    ∀ a ∈ img.elfCheck.log, N a := by
  suffices hlog : Ensures N (fun _ => True) img.elfCheck from hlog.log
  apply ensures_lift_bind
  intro _ hsize
  have hheader : 64 ≤ img.size.toNat := BitVec.le_def.mp ((Option.guard_eq_some' _).mp hsize)
  have hread : ∀ off : Addr, ∀ len, off.toNat + len ≤ 64 →
      Ensures N (fun _ => True) (img.read off len) := by
    intro off len hlen
    refine ensures_tell_bind ?_ (ensures_pure trivial)
    rintro a ha
    rw [List.mem_singleton.mp ha]
    exact hN hheader off len hlen
  -- Each test looks at one field, the last one at two.
  refine (hread 0 4 (by decide)).bind fun _ _ => ensures_lift_bind fun _ _ => ?_
  refine (hread 4 1 (by decide)).bind fun _ _ => ensures_lift_bind fun _ _ => ?_
  refine (hread 5 1 (by decide)).bind fun _ _ => ensures_lift_bind fun _ _ => ?_
  refine (hread 16 2 (by decide)).bind fun _ _ => ensures_lift_bind fun _ _ => ?_
  refine (hread 18 2 (by decide)).bind fun _ _ => ensures_lift_bind fun _ _ => ?_
  refine (hread 54 2 (by decide)).bind fun _ _ => ensures_lift_bind fun _ _ => ?_
  apply (hread 32 8 (by decide)).bind
  intro _ _
  exact (hread 56 2 (by decide)).bind fun _ _ => ensures_lift fun _ _ => trivial

/-- A header that passes the checks is as they say. -/
theorem elfCheck_ensures :
    Ensures (Access.Inside img.size) (fun _ => img.HeaderOk) img.elfCheck :=
  ⟨forall_elfCheck_log fun hheader _ _ hlen => hlen.trans hheader, fun _ h => elfCheck_val.mp h⟩

/-- The program headers of a well placed image do not wrap around. -/
theorem WellPlaced.toNat_phdr (h : img.WellPlaced) (hi : i < img.phnum.toNat) :
    (img.phdr i).toNat = img.phoff.toNat + i * 56 := by
  have hsize := img.size.isLt
  have htable : img.phoff.toNat + img.phnum.toNat * 56 ≤ img.size.toNat := h.table
  have hphdr : phdrSize.toNat = 56 := rfl
  rw [phdr, BitVec.toNat_add, BitVec.toNat_mul, BitVec.toNat_ofNat, hphdr,
    Nat.mod_eq_of_lt (by omega : i < 2 ^ 64), Nat.mod_eq_of_lt (by omega : i * 56 < 2 ^ 64),
    Nat.mod_eq_of_lt (by omega)]

/-- So the fields of a program header can be looked at. -/
theorem WellPlaced.field_inside (h : img.WellPlaced) (hi : i < img.phnum.toNat) {c : Addr} {len : ℕ}
    (hc : c.toNat + len ≤ 56) : InImage img.size (img.phdr i + c) len := by
  have hsize := img.size.isLt
  have htable : img.phoff.toNat + img.phnum.toNat * 56 ≤ img.size.toNat := h.table
  rw [InImage, BitVec.toNat_add, h.toNat_phdr hi, Nat.mod_eq_of_lt (by omega)]
  omega

/-- A field of a program header can be read. -/
theorem WellPlaced.read (h : img.WellPlaced) (hi : i < img.phnum.toNat) {c : Addr} {len : ℕ}
    (hc : c.toNat + len ≤ 56) :
    Ensures (Access.Inside img.size) (fun v => v = img.field (img.phdr i + c) len)
      (img.read (img.phdr i + c) len) :=
  ensures_read (h.field_inside hi hc)

/-- The program header lies inside the image. -/
theorem WellPlaced.phdr_inside (h : img.WellPlaced) (hi : i < img.phnum.toNat) {len : ℕ}
    (hlen : len ≤ 56) : InImage img.size (img.phdr i) len := by
  have hinside : InImage img.size (img.phdr i + 0#64) len :=
    h.field_inside hi ((Nat.zero_add len).trans_le hlen)
  rwa [BitVec.add_zero] at hinside

/-- So its type can be read. -/
theorem WellPlaced.readType (h : img.WellPlaced) (hi : i < img.phnum.toNat) :
    Ensures (Access.Inside img.size) (fun v => v = img.type i) (img.read (img.phdr i) 4) :=
  ensures_read (h.phdr_inside hi (by decide))

end Image

/-! ### What is copied

The parts of the file that are copied lie inside of the image when the segment does. -/

namespace Segment

variable {ph : Segment} {size : Addr}

/-- What is copied to a page is part of what the file has for the segment. -/
theorem Inside.copyTo (h : ph.Inside size) (page va : Addr) :
    ∀ a ∈ ph.copyTo page va, a.Inside size := by
  intro a ha
  rw [Segment.copyTo] at ha
  split at ha
  case isFalse => cases ha
  case isTrue hlt =>
    rw [List.mem_singleton.mp ha]
    -- `f_hi` is not above the end of the file range, even if that has wrapped around.
    have hlo : ph.vaddr ≤ ph.fileLo va := by
      rw [fileLo]
      split
      case isTrue hva => exact BitVec.le_of_lt hva
      case isFalse => exact BitVec.le_refl _
    have hhi : (ph.fileHi va).toNat ≤ (ph.vaddr + ph.filesz).toNat := by
      rw [fileHi]
      split
      case isTrue hva => exact Nat.le_of_lt (BitVec.lt_def.mp hva)
      case isFalse => exact Nat.le_refl _
    have hend : (ph.vaddr + ph.filesz).toNat ≤ ph.vaddr.toNat + ph.filesz.toNat := by
      rw [BitVec.toNat_add]
      exact Nat.mod_le _ _
    have hlt' : (ph.fileLo va).toNat < (ph.fileHi va).toNat := BitVec.lt_def.mp hlt
    have hinside : ph.offset.toNat + ph.filesz.toNat ≤ size.toNat := h
    have hsize := size.isLt
    have hdiff : (ph.fileLo va - ph.vaddr).toNat = (ph.fileLo va).toNat - ph.vaddr.toNat :=
      BitVec.toNat_sub_of_le hlo
    have hlen : (ph.fileHi va - ph.fileLo va).toNat =
        (ph.fileHi va).toNat - (ph.fileLo va).toNat :=
      BitVec.toNat_sub_of_le (BitVec.le_of_lt hlt)
    have hlo' := BitVec.le_def.mp hlo
    show (ph.offset + (ph.fileLo va - ph.vaddr)).toNat + _ ≤ _
    rw [BitVec.toNat_add, hdiff, hlen, Nat.mod_eq_of_lt (by omega)]
    omega

/-- Clearing is no read of the image. -/
theorem clearIn_inside (page va : Addr) : ∀ a ∈ ph.clearIn page va, a.Inside size := by
  intro a ha
  rw [clearIn] at ha
  split at ha
  case isFalse => cases ha
  case isTrue =>
    rw [List.mem_singleton.mp ha]
    trivial

end Segment

/-! ### Pages

The call of `pmap_map` for one page returns, so that the loop over the pages does. -/

/-- No segment asks for huge pages. -/
theorem Segment.hasProt_huge (ph : Segment) : hasProt ph.prot protHuge = false := by
  unfold Segment.prot
  split_ifs <;> rfl

section Loader

variable {σ : Type} [PageAllocator σ] {img : Image}

/-- The `pmap_map` of one page ends. -/
theorem pmapMap_page_returns (s : PmState σ) (root phys : Addr) {va : Addr} (ph : Segment)
    (hva : pageSize.toNat ∣ va.toNat) : ∃ ok s',
      s.pmapMap (pageSize.toNat + 1) root va phys pageSize ph.prot = some (ok, s') := by
  have hstep : PmState.mapStep ph.prot = pageSize := by
    rw [PmState.mapStep, ph.hasProt_huge]
    rfl
  have hdvd : ∀ x : Addr, pageSize.toNat ∣ (x &&& ~~~(pageSize - 1)).toNat := by
    intro x
    rw [PmState.pageMask, PmState.toNat_roundDown]
    exact Nat.dvd_mul_left _ _
  rw [PmState.pmapMap, if_neg (by decide), hstep]
  refine PmState.mapLoop_returns root ph.prot (by decide) (hdvd _) (hdvd _) _ ?_ _ s
  -- the rounded range is at most two pages, which the fuel is far above
  have hsize : pageSize.toNat = 4096 := rfl
  have hmask : (0xFFF#64).toNat = 4095 := rfl
  rw [PmState.pageMask, PmState.toNat_roundDown, PmState.toNat_roundDown, BitVec.toNat_add,
    BitVec.toNat_add, hsize, hmask]
  rw [hsize] at hva
  have := va.isLt
  omega

end Loader

end Koharu
