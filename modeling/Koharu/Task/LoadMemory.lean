import Koharu.Arch.PmapStores
import Koharu.Lib.Bytes
import Koharu.Task.Elf
import Koharu.Task.Initrd

/-!
# What the loaders leave in memory

The trace of a loader says which bytes it copies and which it clears. `Access.store` is what one of
these does to the bytes of physical memory, where a translation says at which physical address the
loader finds an address. Only frames that hold no page tables are stored to.

* `Segment.byteAt`: what a page that a segment was copied to has at an address;
* `foldl_store_copyTo`, `foldl_store_clearIn`: one page;
* `Loads`: the pages that `elf_load` maps, each with the frame that it got;
* `Loads.leaf`, `Loads.bytes`: which frame each address is mapped to in the end, and what is in it.
-/

namespace Koharu

open Bytes Radix

/-- What an access does to the bytes of memory. -/
def Access.store (img : Image) (tr : Addr → Option Addr) (mem : Addr → BitVec 8) :
    Access → Addr → BitVec 8
  | .read _ _ => mem
  | .copy dst off len => storeAt tr dst (fun k => img.byte (off + BitVec.ofNat 64 k)) len mem
  | .clear dst len => storeAt tr dst (fun _ => 0) len mem
  | .map _ _ _ _ => mem
  | .unmap _ _ => mem

/-- Memory after all accesses of `elf_load`, which goes through the direct map. -/
def Image.bytesAfter (img : Image) (log : List Access) (mem : Addr → BitVec 8) : Addr → BitVec 8 :=
  log.foldl (Access.store img some) mem

/-- The stores of one part come after those of the other. -/
theorem Image.bytesAfter_append (img : Image) (l l' : List Access) (mem : Addr → BitVec 8) :
    img.bytesAfter (l ++ l') mem = img.bytesAfter l' (img.bytesAfter l mem) :=
  List.foldl_append

/-- A store goes to memory that the direct map has. -/
def Access.InDirectMap : Access → Prop
  | .copy dst _ len => dst.toNat + len ≤ 2 ^ 47
  | .clear dst len => dst.toNat + len ≤ 2 ^ 47
  | _ => True

instance : DecidablePred Access.InDirectMap
  | .read _ _ => isTrue trivial
  | .copy dst _ len => inferInstanceAs (Decidable (dst.toNat + len ≤ 2 ^ 47))
  | .clear dst len => inferInstanceAs (Decidable (dst.toNat + len ≤ 2 ^ 47))
  | .map _ _ _ _ => isTrue trivial
  | .unmap _ _ => isTrue trivial

/-! ### Pages

Addresses and the pages they lie in. -/

/-- The address is the start of a page. -/
def IsPage (va : Addr) : Prop := va &&& ~~~0xFFF#64 = va

/-- Addresses of pages are multiples of 4096. -/
theorem isPage_iff {va : Addr} : IsPage va ↔ va.toNat % 4096 = 0 := by
  rw [IsPage, ← BitVec.toNat_inj, PmState.toNat_roundDown]
  omega

/-- The start of the page of an address, as a number. -/
theorem toNat_pageOf (x : Addr) : (Kernel.pageOf x).toNat = x.toNat / 4096 * 4096 :=
  PmState.toNat_roundDown x

/-- The start of a page is the address of a page. -/
theorem isPage_pageOf (x : Addr) : IsPage (Kernel.pageOf x) := by
  rw [isPage_iff, toNat_pageOf]
  omega

/-- The addresses of a page are those from its start on. -/
theorem pageOf_eq_iff {x va : Addr} (hva : IsPage va) :
    Kernel.pageOf x = va ↔ va.toNat ≤ x.toNat ∧ x.toNat < va.toNat + 4096 := by
  rw [isPage_iff] at hva
  rw [← BitVec.toNat_inj, toNat_pageOf]
  omega

/-- An address is found at its offset in the frame of its page. -/
theorem pageOf_add_offset {frame : Addr} (hframe : IsPage frame) (x : Addr) :
    Kernel.pageOf (frame + (x &&& 0xFFF#64)) = frame := by
  rw [isPage_iff] at hframe
  have hoff : (x &&& 0xFFF#64).toNat = x.toNat % 4096 :=
    Word.toNat_and_low (w := 12) (by decide) x
  have := frame.isLt
  rw [← BitVec.toNat_inj, toNat_pageOf, BitVec.toNat_add, hoff, Nat.mod_eq_of_lt (by omega)]
  omega

/-- The address that is loaded to `a`, when the page at `va` is in the frame. -/
def addrIn (frame va a : Addr) : Addr := va + (a - frame)

/-- Where a frame is mapped, byte by byte. -/
theorem toNat_addrIn {frame va a : Addr} (hframe : IsPage frame) (hva : IsPage va)
    (ha : Kernel.pageOf a = frame) : (addrIn frame va a).toNat = va.toNat + a.toNat % 4096 := by
  rw [pageOf_eq_iff hframe] at ha
  rw [isPage_iff] at hframe hva
  have := va.isLt
  rw [addrIn, BitVec.toNat_add, BitVec.toNat_sub_of_le (BitVec.le_def.mpr ha.1),
    Nat.mod_eq_of_lt (by omega)]
  omega

/-- An address is found again from its frame. -/
theorem addrIn_add_offset {frame va x : Addr} (hx : Kernel.pageOf x = va) :
    addrIn frame va (frame + (x &&& 0xFFF#64)) = x := by
  have hoff : (x &&& 0xFFF#64).toNat = x.toNat % 4096 :=
    Word.toNat_and_low (w := 12) (by decide) x
  have hva := congrArg BitVec.toNat hx
  rw [toNat_pageOf] at hva
  have := x.isLt
  rw [addrIn, BitVec.add_comm frame, BitVec.add_sub_cancel, ← BitVec.toNat_inj, BitVec.toNat_add,
    hoff, Nat.mod_eq_of_lt (by omega)]
  omega

/-! ### One page

The bytes of a page after a segment was copied to it, one address at a time. -/

section OnePage

variable {img : Image} {tr : Addr → Option Addr} {page frame va lo hi : Addr}

/-- Bytes of the page at `va` that are stored to the frame it is in. -/
theorem storeAt_page (hframe : IsPage frame) (hva : IsPage va) (hwrap : va.toNat + 4096 < 2 ^ 64)
    (htr : ∀ z < 4096, tr (page + BitVec.ofNat 64 z) = some (frame + BitVec.ofNat 64 z))
    (hlo : va ≤ lo) (hhi : hi.toNat ≤ va.toNat + 4096) (hlt : lo < hi) (src : ℕ → BitVec 8)
    (mem : Addr → BitVec 8) (a : Addr) :
    storeAt tr (page + (lo - va)) src (hi - lo).toNat mem a =
      if Kernel.pageOf a = frame ∧ lo ≤ addrIn frame va a ∧ addrIn frame va a < hi then
        src (addrIn frame va a - lo).toNat
      else mem a := by
  rw [BitVec.le_def] at hlo
  rw [BitVec.lt_def] at hlt
  have hlen : (hi - lo).toNat = hi.toNat - lo.toNat :=
    BitVec.toNat_sub_of_le (BitVec.le_of_lt (BitVec.lt_def.mpr hlt))
  have hoff : (lo - va).toNat = lo.toNat - va.toNat :=
    BitVec.toNat_sub_of_le (BitVec.le_def.mpr hlo)
  have hframe' := isPage_iff.mp hframe
  have hbound := frame.isLt
  -- the place of each byte, for which the offset in the page does not wrap around
  have hplace : ∀ k < (hi - lo).toNat, tr (page + (lo - va) + BitVec.ofNat 64 k) =
      some (frame + (lo - va) + BitVec.ofNat 64 k) := by
    intro k hk
    have hsum : lo - va + BitVec.ofNat 64 k = BitVec.ofNat 64 (lo.toNat - va.toNat + k) := by
      rw [BitVec.ofNat_add, ← hoff, BitVec.ofNat_toNat, BitVec.setWidth_eq]
    rw [BitVec.add_assoc, BitVec.add_assoc, hsum]
    exact htr _ (by omega)
  rw [storeAt_apply (by omega) hplace]
  have hstart : (frame + (lo - va)).toNat = frame.toNat + (lo.toNat - va.toNat) := by
    rw [BitVec.toNat_add, hoff, Nat.mod_eq_of_lt (by omega)]
  have ha := a.isLt
  by_cases hpage : Kernel.pageOf a = frame
  · have haddr := toNat_addrIn hframe hva hpage
    have hrange := (pageOf_eq_iff hframe).mp hpage
    have hsub : (a - (frame + (lo - va))).toNat = (addrIn frame va a - lo).toNat := by
      rw [BitVec.toNat_sub, BitVec.toNat_sub, hstart, haddr]
      omega
    have hiff : (addrIn frame va a - lo).toNat < hi.toNat - lo.toNat ↔
        lo ≤ addrIn frame va a ∧ addrIn frame va a < hi := by
      rw [BitVec.toNat_sub, BitVec.le_def, BitVec.lt_def, haddr]
      omega
    simp only [hsub, hlen, hiff, hpage, true_and]
  · -- other frames are too far away
    have hfar : ¬ (a - (frame + (lo - va))).toNat < hi.toNat - lo.toNat := by
      rw [pageOf_eq_iff hframe] at hpage
      rw [BitVec.toNat_sub, hstart]
      omega
    rw [hlen, if_neg hfar, if_neg fun h => hpage h.1]

end OnePage

namespace Segment

/-- What a page has at an address after a segment was copied to it, where `old` was there before. -/
def byteAt (img : Image) (ph : Segment) (old : BitVec 8) (x : Addr) : BitVec 8 :=
  if ph.vaddr + ph.filesz ≤ x ∧ x < ph.vaddr + ph.memsz then 0
  else if ph.vaddr ≤ x ∧ x < ph.vaddr + ph.filesz then img.byte (ph.offset + (x - ph.vaddr))
  else old

variable {img : Image} {ph : Segment} {tr : Addr → Option Addr} {page frame va x : Addr}

/-- The end of a page that is not the last one. -/
theorem toNat_pageEnd (hwrap : va.toNat + 4096 < 2 ^ 64) :
    (va + pageSize).toNat = va.toNat + 4096 := by
  rw [BitVec.toNat_add, show pageSize.toNat = 4096 from rfl, Nat.mod_eq_of_lt hwrap]

/-- In its page, the later of `va` and `start` is passed when `start` is. -/
theorem max_le_iff {start : Addr} (hx : va ≤ x) :
    (if va > start then va else start) ≤ x ↔ start ≤ x := by
  split
  case isTrue hlt =>
    exact ⟨fun _ => BitVec.le_trans (BitVec.le_of_lt hlt) hx, fun _ => hx⟩
  case isFalse => rfl

/-- What is below the end of the page and of the segment. -/
theorem lt_min_iff {endAddr : Addr} (hx : x < va + pageSize) :
    x < (if va + pageSize < endAddr then va + pageSize else endAddr) ↔ x < endAddr := by
  split
  case isTrue hlt =>
    exact ⟨fun _ => BitVec.lt_trans hx hlt, fun _ => hx⟩
  case isFalse => rfl

/-- The start is not below the page. -/
theorem le_max {start : Addr} : va ≤ if va > start then va else start := by
  split
  case isTrue => exact BitVec.le_refl va
  case isFalse hlt => exact BitVec.not_lt.mp hlt

/-- The end is not behind the page. -/
theorem min_le {endAddr : Addr} :
    (if va + pageSize < endAddr then va + pageSize else endAddr) ≤ va + pageSize := by
  split
  case isTrue => exact BitVec.le_refl _
  case isFalse hlt => exact BitVec.not_lt.mp hlt

section Stores

variable (hframe : IsPage frame) (hva : IsPage va) (hwrap : va.toNat + 4096 < 2 ^ 64)
  (htr : ∀ z < 4096, tr (page + BitVec.ofNat 64 z) = some (frame + BitVec.ofNat 64 z))
  (mem : Addr → BitVec 8) (a : Addr)

include hframe hva hwrap

/-- The bytes of the frame are those of the page. -/
theorem mem_page (ha : Kernel.pageOf a = frame) :
    va ≤ addrIn frame va a ∧ addrIn frame va a < va + pageSize := by
  have haddr := toNat_addrIn hframe hva ha
  rw [BitVec.le_def, BitVec.lt_def, toNat_pageEnd hwrap, haddr]
  omega

include htr

/-- `memcpy` in one page. -/
theorem foldl_store_copyTo : (ph.copyTo page va).foldl (Access.store img tr) mem a =
    if Kernel.pageOf a = frame ∧ ph.vaddr ≤ addrIn frame va a ∧
        addrIn frame va a < ph.vaddr + ph.filesz then
      img.byte (ph.offset + (addrIn frame va a - ph.vaddr))
    else mem a := by
  -- the two ends are clipped to the page
  have hiff : (Kernel.pageOf a = frame ∧ ph.fileLo va ≤ addrIn frame va a ∧
        addrIn frame va a < ph.fileHi va) ↔
      Kernel.pageOf a = frame ∧ ph.vaddr ≤ addrIn frame va a ∧
        addrIn frame va a < ph.vaddr + ph.filesz := by
    apply and_congr_right
    intro ha
    obtain ⟨hle, hlt⟩ := mem_page hframe hva hwrap a ha
    rw [fileLo, fileHi, max_le_iff hle, lt_min_iff hlt]
  rw [copyTo]
  split
  case isTrue hlt =>
    have hhi : (ph.fileHi va).toNat ≤ va.toNat + 4096 :=
      (BitVec.le_def.mp min_le).trans_eq (toNat_pageEnd hwrap)
    have hlo : va ≤ ph.fileLo va := le_max
    show storeAt tr _ _ _ mem a = _
    rw [storeAt_page hframe hva hwrap htr hlo hhi hlt]
    simp only [hiff]
    refine if_congr Iff.rfl (congrArg img.byte ?_) rfl
    rw [BitVec.ofNat_toNat, BitVec.setWidth_eq, BitVec.add_assoc, BitVec.add_comm (_ - ph.vaddr)]
    congr 1
    rw [BitVec.sub_eq_add_neg, BitVec.sub_eq_add_neg, BitVec.sub_eq_add_neg, BitVec.add_assoc,
      ← BitVec.add_assoc (-_), BitVec.add_left_neg, BitVec.zero_add]
  case isFalse hlt =>
    rw [List.foldl_nil, if_neg]
    rw [← hiff]
    rintro ⟨-, hlo, hhi⟩
    exact hlt (BitVec.lt_def.mpr ((BitVec.le_def.mp hlo).trans_lt (BitVec.lt_def.mp hhi)))

/-- `memset` in one page. -/
theorem foldl_store_clearIn : (ph.clearIn page va).foldl (Access.store img tr) mem a =
    if Kernel.pageOf a = frame ∧ ph.vaddr + ph.filesz ≤ addrIn frame va a ∧
        addrIn frame va a < ph.vaddr + ph.memsz then 0
    else mem a := by
  -- the bytes cleared are those behind the file part that are in this page
  have hiff : (Kernel.pageOf a = frame ∧ ph.zeroLo va ≤ addrIn frame va a ∧
        addrIn frame va a < ph.zeroHi va) ↔
      Kernel.pageOf a = frame ∧ ph.vaddr + ph.filesz ≤ addrIn frame va a ∧
        addrIn frame va a < ph.vaddr + ph.memsz := by
    apply and_congr_right
    intro ha
    obtain ⟨hle, hlt⟩ := mem_page hframe hva hwrap a ha
    rw [zeroLo, zeroHi, max_le_iff hle, lt_min_iff hlt]
  rw [clearIn]
  split
  case isTrue hlt =>
    have hhi : (ph.zeroHi va).toNat ≤ va.toNat + 4096 :=
      (BitVec.le_def.mp min_le).trans_eq (toNat_pageEnd hwrap)
    have hlo : va ≤ ph.zeroLo va := le_max
    show storeAt tr _ _ _ mem a = _
    rw [storeAt_page hframe hva hwrap htr hlo hhi hlt]
    simp only [hiff]
  case isFalse hlt =>
    rw [List.foldl_nil, if_neg]
    rw [← hiff]
    rintro ⟨-, hlo, hhi⟩
    exact hlt (BitVec.lt_def.mpr ((BitVec.le_def.mp hlo).trans_lt (BitVec.lt_def.mp hhi)))

/-- Both together. -/
theorem foldl_store_page :
    (ph.copyTo page va ++ ph.clearIn page va).foldl (Access.store img tr) mem a =
      if Kernel.pageOf a = frame then ph.byteAt img (mem a) (addrIn frame va a) else mem a := by
  rw [List.foldl_append, foldl_store_clearIn hframe hva hwrap htr,
    foldl_store_copyTo hframe hva hwrap htr, byteAt]
  by_cases ha : Kernel.pageOf a = frame
  · simp only [ha, true_and, if_true]
  · simp only [ha, false_and, if_false]

end Stores

section Pages

/-- The start of the `k`-th page. -/
def pageAt (ph : Segment) (k : ℕ) : Addr := ph.vaStart + BitVec.ofNat 64 k * pageSize

/-- The first page of a segment. -/
theorem toNat_vaStart : ph.vaStart.toNat = ph.vaddr.toNat / 4096 * 4096 := by
  rw [vaStart, PmState.pageMask, PmState.toNat_roundDown]

/-- The end of its last page. -/
theorem toNat_vaEnd : ph.vaEnd.toNat =
    (ph.vaddr + ph.memsz + (pageSize - 1)).toNat / 4096 * 4096 := by
  rw [vaEnd, PmState.pageMask, PmState.toNat_roundDown]

/-- The pages come one after the other. -/
theorem toNat_pageAt {k : ℕ} (hk : k < (ph.vaEnd.toNat - ph.vaStart.toNat) / pageSize.toNat) :
    (ph.pageAt k).toNat = ph.vaStart.toNat + k * 4096 := by
  have hsize : pageSize.toNat = 4096 := rfl
  have hbound := ph.vaEnd.isLt
  rw [hsize] at hk
  rw [pageAt, BitVec.toNat_add, BitVec.toNat_mul, BitVec.toNat_ofNat, hsize,
    Nat.mod_eq_of_lt (by omega : k < 2 ^ 64), Nat.mod_eq_of_lt (by omega : k * 4096 < 2 ^ 64),
    Nat.mod_eq_of_lt (by omega)]

/-- These are all pages from the first to the last. -/
theorem mem_pages_iff : va ∈ ph.pages ↔
    IsPage va ∧ ph.vaStart.toNat ≤ va.toNat ∧ va.toNat < ph.vaEnd.toNat := by
  have hstart := @toNat_vaStart ph
  have hend := @toNat_vaEnd ph
  have hsize : pageSize.toNat = 4096 := rfl
  constructor
  · intro h
    obtain ⟨k, hk, rfl⟩ := List.mem_map.mp h
    rw [List.mem_range] at hk
    have haddr : (ph.vaStart + BitVec.ofNat 64 k * pageSize).toNat = _ := toNat_pageAt hk
    rw [hsize] at hk
    rw [isPage_iff, haddr]
    omega
  · rintro ⟨hpage, hle, hlt⟩
    rw [isPage_iff] at hpage
    -- the page's number counts from the first page of the segment
    have hk : (va.toNat - ph.vaStart.toNat) / 4096 <
        (ph.vaEnd.toNat - ph.vaStart.toNat) / pageSize.toNat := by
      rw [hsize]
      omega
    refine List.mem_map.mpr ⟨(va.toNat - ph.vaStart.toNat) / 4096, List.mem_range.mpr hk, ?_⟩
    refine BitVec.eq_of_toNat_eq ((toNat_pageAt hk).trans ?_)
    omega

/-- A page of a segment is not the last page of the address space. -/
theorem mem_pages (h : va ∈ ph.pages) : IsPage va ∧ va.toNat + 4096 < 2 ^ 64 := by
  obtain ⟨hpage, -, hlt⟩ := mem_pages_iff.mp h
  refine ⟨hpage, ?_⟩
  have hend := @toNat_vaEnd ph
  have hbound := (ph.vaddr + ph.memsz + (pageSize - 1)).isLt
  rw [isPage_iff] at hpage
  omega

/-- The segment ends below the last page of the address space. -/
def Ends (ph : Segment) : Prop := ph.vaddr.toNat + ph.memsz.toNat + 4095 < 2 ^ 64

variable {k : ℕ}

/-- If the segment does not wrap around, neither does its last page. -/
theorem Ends.toNat_vaEnd (h : ph.Ends) :
    ph.vaEnd.toNat = (ph.vaddr.toNat + ph.memsz.toNat + 4095) / 4096 * 4096 := by
  unfold Ends at h
  rw [Segment.toNat_vaEnd, BitVec.toNat_add, BitVec.toNat_add,
    show (pageSize - 1).toNat = 4095 from rfl, Nat.mod_add_mod, Nat.mod_eq_of_lt h]

/-- Its addresses are numbers in a row. -/
theorem Ends.toNat_addr (h : ph.Ends) (hk : k < ph.memsz.toNat) :
    (ph.vaddr + BitVec.ofNat 64 k).toNat = ph.vaddr.toNat + k := by
  unfold Ends at h
  rw [BitVec.toNat_add, BitVec.toNat_ofNat, Nat.mod_eq_of_lt (by omega : k < 2 ^ 64),
    Nat.mod_eq_of_lt (by omega)]

/-- All bytes of the segment are in its pages. -/
theorem Ends.pageOf_mem_pages (h : ph.Ends) (hk : k < ph.memsz.toNat) :
    Kernel.pageOf (ph.vaddr + BitVec.ofNat 64 k) ∈ ph.pages := by
  rw [mem_pages_iff, toNat_pageOf, h.toNat_addr hk, toNat_vaStart, h.toNat_vaEnd]
  exact ⟨isPage_pageOf _, by omega, by omega⟩

/-- The byte that a segment stands for at its `k`-th address. -/
def content (img : Image) (ph : Segment) (k : ℕ) : BitVec 8 :=
  if k < ph.filesz.toNat then img.byte (ph.offset + BitVec.ofNat 64 k) else 0

/-- The segment ends where it should, and what is loaded is what it stands for, unless the end of
the file's part wraps around: then it is all zeros. -/
theorem Ends.byteAt (h : ph.Ends) (hk : k < ph.memsz.toNat) (old : BitVec 8) :
    ph.byteAt img old (ph.vaddr + BitVec.ofNat 64 k) =
      if ph.vaddr.toNat + ph.filesz.toNat < 2 ^ 64 then ph.content img k else 0 := by
  have haddr := h.toNat_addr hk
  unfold Ends at h
  have hend : (ph.vaddr + ph.memsz).toNat = ph.vaddr.toNat + ph.memsz.toNat := by
    rw [BitVec.toNat_add, Nat.mod_eq_of_lt (by omega)]
  have hbound := ph.filesz.isLt
  simp only [Segment.byteAt, content, BitVec.le_def, BitVec.lt_def, haddr, hend]
  -- the end of the file part may wrap around, and then every byte counts as behind it
  by_cases hfile : ph.vaddr.toNat + ph.filesz.toNat < 2 ^ 64
  · have hfileEnd : (ph.vaddr + ph.filesz).toNat = ph.vaddr.toNat + ph.filesz.toNat := by
      rw [BitVec.toNat_add, Nat.mod_eq_of_lt hfile]
    rw [if_pos hfile, hfileEnd]
    by_cases hlt : k < ph.filesz.toNat
    · rw [if_neg (by omega), if_pos (by omega), if_pos hlt, BitVec.add_comm ph.vaddr,
        BitVec.add_sub_cancel]
    · rw [if_pos (by omega), if_neg hlt]
  · have hfileEnd : (ph.vaddr + ph.filesz).toNat = ph.vaddr.toNat + ph.filesz.toNat - 2 ^ 64 := by
      rw [BitVec.toNat_add]
      omega
    rw [if_neg hfile, hfileEnd, if_pos (by omega)]

/-- Where the file's part is not longer than the segment. -/
theorem Ends.byteAt_of_le (h : ph.Ends) (hfile : ph.filesz.toNat ≤ ph.memsz.toNat)
    (hk : k < ph.memsz.toNat) (old : BitVec 8) :
    ph.byteAt img old (ph.vaddr + BitVec.ofNat 64 k) = ph.content img k := by
  rw [h.byteAt hk, if_pos]
  unfold Ends at h
  omega

/-- Every page of a segment is stored to, so that its frame is in the direct map. -/
theorem Ends.frame_lt (h : ph.Ends) (hfile : ph.filesz.toNat ≤ ph.memsz.toNat)
    (hpos : 0 < ph.memsz.toNat) (hva : va ∈ ph.pages) (hframe : IsPage frame)
    (hstores : ∀ a ∈ ph.copyTo frame va ++ ph.clearIn frame va, a.InDirectMap) :
    frame.toNat < 2 ^ 47 := by
  obtain ⟨-, hle, hlt⟩ := mem_pages_iff.mp hva
  obtain ⟨hpage, hwrap⟩ := mem_pages hva
  rw [h.toNat_vaEnd] at hlt
  rw [toNat_vaStart] at hle
  unfold Ends at h
  have hend : (ph.vaddr + ph.memsz).toNat = ph.vaddr.toNat + ph.memsz.toNat := by
    rw [BitVec.toNat_add, Nat.mod_eq_of_lt (by omega)]
  have hfileEnd : (ph.vaddr + ph.filesz).toNat = ph.vaddr.toNat + ph.filesz.toNat := by
    rw [BitVec.toNat_add, Nat.mod_eq_of_lt (by omega)]
  have hpageEnd := toNat_pageEnd hwrap
  -- a store that starts in the page starts behind the start of the frame
  have hbehind : ∀ lo : Addr, va.toNat ≤ lo.toNat → lo.toNat < va.toNat + 4096 →
      frame.toNat ≤ (frame + (lo - va)).toNat := by
    intro lo hlo hhi
    rw [isPage_iff] at hframe
    have := frame.isLt
    rw [BitVec.toNat_add, BitVec.toNat_sub_of_le (BitVec.le_def.mpr hlo),
      Nat.mod_eq_of_lt (by omega)]
    omega
  rw [isPage_iff] at hpage
  have hpos' : ∀ lo hi : Addr, lo < hi → 0 < (hi - lo).toNat := by
    intro lo hi hlt
    rw [BitVec.toNat_sub_of_le (BitVec.le_of_lt hlt)]
    exact Nat.sub_pos_of_lt (BitVec.lt_def.mp hlt)
  by_cases hcopied : va.toNat < ph.vaddr.toNat + ph.filesz.toNat ∧ 0 < ph.filesz.toNat
  · have hlo : (ph.fileLo va).toNat = max va.toNat ph.vaddr.toNat := by
      unfold fileLo
      simp only [gt_iff_lt, BitVec.lt_def]
      split <;> omega
    have hhi : (ph.fileHi va).toNat = min (va.toNat + 4096) (ph.vaddr.toNat + ph.filesz.toNat) := by
      unfold fileHi
      simp only [BitVec.lt_def, hpageEnd, hfileEnd]
      split <;> omega
    have hltFile : ph.fileLo va < ph.fileHi va := by
      rw [BitVec.lt_def]
      omega
    have hmem := hstores
      (.copy (frame + (ph.fileLo va - va)) (ph.offset + (ph.fileLo va - ph.vaddr))
      (ph.fileHi va - ph.fileLo va).toNat) (by rw [copyTo, if_pos hltFile]; simp)
    have hbound : (frame + (ph.fileLo va - va)).toNat + (ph.fileHi va - ph.fileLo va).toNat ≤
      2 ^ 47 :=
      hmem
    have := hpos' _ _ hltFile
    have := hbehind (ph.fileLo va) (by omega) (by omega)
    omega
  · have hlo : (ph.zeroLo va).toNat = max va.toNat (ph.vaddr.toNat + ph.filesz.toNat) := by
      unfold zeroLo
      simp only [gt_iff_lt, BitVec.lt_def, hfileEnd]
      split <;> omega
    have hhi : (ph.zeroHi va).toNat = min (va.toNat + 4096) (ph.vaddr.toNat + ph.memsz.toNat) := by
      unfold zeroHi
      simp only [BitVec.lt_def, hpageEnd, hend]
      split <;> omega
    have hltZero : ph.zeroLo va < ph.zeroHi va := by
      rw [BitVec.lt_def]
      omega
    have hmem := hstores (.clear (frame + (ph.zeroLo va - va)) (ph.zeroHi va - ph.zeroLo va).toNat)
      (by rw [clearIn, if_pos hltZero]; simp)
    have hbound : (frame + (ph.zeroLo va - va)).toNat + (ph.zeroHi va - ph.zeroLo va).toNat ≤
      2 ^ 47 :=
      hmem
    have := hpos' _ _ hltZero
    have := hbehind (ph.zeroLo va) (by omega) (by omega)
    omega

end Pages

end Segment

/-! ### The pages that are loaded

A load is a page together with the frame it got, from which the stores follow. -/

/-- A page of a segment that was loaded, and the frame that it got. -/
structure PageLoad where
  ph : Segment
  va : Addr
  frame : Addr

namespace PageLoad

/-- The page, without its frame. -/
def page (l : PageLoad) : Segment × Addr := (l.ph, l.va)

/-- What `elf_load` stores to the frame. -/
def stores (l : PageLoad) : List Access := l.ph.copyTo l.frame l.va ++ l.ph.clearIn l.frame l.va

/-- What the frame has, by the address that it is loaded for. -/
theorem bytesAfter_stores {img : Image} {l : PageLoad} (hframe : IsPage l.frame) (hva : IsPage l.va)
    (hwrap : l.va.toNat + 4096 < 2 ^ 64) (mem : Addr → BitVec 8) (a : Addr) :
    img.bytesAfter l.stores mem a =
      if Kernel.pageOf a = l.frame then l.ph.byteAt img (mem a) (addrIn l.frame l.va a)
      else mem a :=
  Segment.foldl_store_page hframe hva hwrap (fun _ _ => rfl) mem a

end PageLoad

section Frames

variable {img : Image} {L : List PageLoad}

/-- Frames that nothing is loaded to keep their bytes. -/
theorem bytesAfter_of_ne (hL : ∀ l ∈ L, IsPage l.frame ∧ IsPage l.va ∧ l.va.toNat + 4096 < 2 ^ 64)
    {a : Addr} (ha : ∀ l ∈ L, Kernel.pageOf a ≠ l.frame) (mem : Addr → BitVec 8) :
    img.bytesAfter (L.flatMap PageLoad.stores) mem a = mem a := by
  induction L generalizing mem with
  | nil => rfl
  | cons l L ih =>
      obtain ⟨hframe, hva, hwrap⟩ := hL l List.mem_cons_self
      rw [List.flatMap_cons, Image.bytesAfter_append,
        ih (fun l hl => hL l (List.mem_cons_of_mem _ hl)) fun l hl =>
        ha l (List.mem_cons_of_mem _ hl),
        PageLoad.bytesAfter_stores hframe hva hwrap, if_neg (ha l List.mem_cons_self)]

/-- As long as no frame is taken twice, each of them has what was loaded to it. -/
theorem bytesAfter_of_mem (hL : ∀ l ∈ L, IsPage l.frame ∧ IsPage l.va ∧ l.va.toNat + 4096 < 2 ^ 64)
    (hnodup : (L.map PageLoad.frame).Nodup) {l : PageLoad} (hl : l ∈ L) {x : Addr}
    (hx : Kernel.pageOf x = l.va) (mem : Addr → BitVec 8) :
    img.bytesAfter (L.flatMap PageLoad.stores) mem (l.frame + (x &&& 0xFFF#64)) =
      l.ph.byteAt img (mem (l.frame + (x &&& 0xFFF#64))) x := by
  induction L generalizing mem with
  | nil => cases hl
  | cons l' L ih =>
      have hrest : ∀ l ∈ L, IsPage l.frame ∧ IsPage l.va ∧ l.va.toNat + 4096 < 2 ^ 64 :=
        fun l hl => hL l (List.mem_cons_of_mem _ hl)
      obtain ⟨hframe, hva, hwrap⟩ := hL l' List.mem_cons_self
      rw [List.map_cons, List.nodup_cons] at hnodup
      rw [List.flatMap_cons, Image.bytesAfter_append]
      rcases List.mem_cons.mp hl with rfl | hmem
      · -- the frames of the other pages are different ones
        rw [bytesAfter_of_ne hrest, PageLoad.bytesAfter_stores hframe hva hwrap,
          if_pos (pageOf_add_offset hframe x), addrIn_add_offset hx]
        rw [pageOf_add_offset hframe]
        exact fun l₂ hl₂ heq => hnodup.1 (List.mem_map.mpr ⟨l₂, hl₂, heq.symm⟩)
      · have hne : Kernel.pageOf (l.frame + (x &&& 0xFFF#64)) ≠ l'.frame := by
          rw [pageOf_add_offset (hrest l hmem).1]
          exact fun heq => hnodup.1 (List.mem_map.mpr ⟨l, hmem, heq⟩)
        rw [ih hrest hnodup.2 hmem, PageLoad.bytesAfter_stores hframe hva hwrap, if_neg hne]

end Frames

/-! ### The page tables

Loads are made one after another, and the last one for a page is the one that is found. -/

section Tables

variable {σ : Type} [PageAllocator σ]

/-- The pages that are loaded from a state on, one after another, each to a new frame. -/
inductive Loads (root : Addr) (s : PmState σ) : List PageLoad → PmState σ → Prop
  | nil : Loads root s [] s
  | page {L : List PageLoad} {s₁ s₂ : PmState σ} (ph : Segment) (va : Addr) (h : Loads root s L s₁)
      (hframe : s₁.allocPages.1 ≠ 0)
      (hmap : s₁.allocPages.2.pmapMap
        (pageSize.toNat + 1) root va s₁.allocPages.1 pageSize ph.prot =
        some (true, s₂)) :
      Loads root s (L ++ [⟨ph, va, s₁.allocPages.1⟩]) s₂

variable [LawfulPageAllocator σ] {F : Shape Addr (BitVec 9)} {root : Addr} {s s' : PmState σ}
  {L : List PageLoad}

/-- A page can be loaded at the address: it is one whose entries belong to the tables, and no huge
page is there. -/
structure Loadable (F : Shape Addr (BitVec 9)) (s : PmState σ) (root va : Addr) : Prop where
  isPage : IsPage va
  not_last : va.toNat + 4096 < 2 ^ 64
  top : pml4Index va ∈ F.top
  plain : ∀ e ρ, s.leaf root va = some (e, ρ) → ρ = []

/-- The last page that was loaded for an address. -/
def lastFor (L : List PageLoad) (x : Addr) : Option PageLoad :=
  L.reverse.find? fun l => PmState.path l.va = PmState.path x

/-- The last element that passes is the new one, if it does. -/
theorem find?_reverse_concat {α : Type*} {P : α → Prop} [DecidablePred P] (L : List α) (l : α) :
    (L ++ [l]).reverse.find? (fun x => decide (P x)) =
      if P l then some l else L.reverse.find? fun x => decide (P x) := by
  rw [List.reverse_append, List.reverse_singleton, List.singleton_append, List.find?_cons]
  split
  next h => rw [if_pos (of_decide_eq_true h)]
  next h => rw [if_neg (of_decide_eq_false h)]

/-- The last load of a page is the new one, if it is of this page. -/
theorem lastFor_concat (L : List PageLoad) (l : PageLoad) (x : Addr) : lastFor (L ++ [l]) x =
    if PmState.path l.va = PmState.path x then some l else lastFor L x :=
  find?_reverse_concat L l

/-- What the tables are after pages were loaded. -/
structure Loaded (F : Shape Addr (BitVec 9)) (root : Addr) (s : PmState σ) (L : List PageLoad)
    (s' : PmState σ) : Prop where
  step : PmState.Step F s s'
  /-- An address is mapped to the last frame that was loaded for it. -/
  leaf : ∀ x, pml4Index x ∈ F.top → s'.leaf root x =
    ((lastFor L x).map fun l => (pageEntry l.frame l.ph.prot, [])).or (s.leaf root x)
  frames : ∀ l ∈ L, s'.Outside F l.frame ∧ l.frame &&& pteAddrMask = l.frame
  nodup : (L.map PageLoad.frame).Nodup

/-- What has none of the lower bits is the address of a page. -/
theorem isPage_of_mask {frame : Addr} (h : frame &&& pteAddrMask = frame) : IsPage frame := by
  have hframe := congrArg BitVec.toNat h
  rw [Word.toNat_and_mask (a := 12) (w := 40) (by decide)] at hframe
  rw [isPage_iff]
  omega

/-- Page by page, what is mapped and what is stored. -/
theorem Loads.loaded (hwf : s.Wf F) (hroot : root ∈ F.roots) (h : Loads root s L s')
    (hL : ∀ l ∈ L, Loadable F s root l.va) : Loaded F root s L s' := by
  induction h with
  | nil => exact ⟨hwf.refl, fun x _ => by simp [lastFor], nofun, List.nodup_nil⟩
  | @page L s₁ s₂ ph va h hframe hmap ih =>
      have ih := ih fun l hl => hL l (List.mem_append_left _ hl)
      have hload : Loadable F s root va :=
        hL _ (List.mem_append_right _ (List.mem_singleton_self _))
      obtain ⟨hpage, hwrap, htop, hplain⟩ := hload
      have halloc := ih.step.wf.alloc
      have hmask : s₁.allocPages.1 &&& pteAddrMask = s₁.allocPages.1 := s₁.allocPages_aligned
      have hround : s₁.allocPages.1 &&& ~~~0xFFF#64 = s₁.allocPages.1 := isPage_of_mask hmask
      -- the new frame is no table, and differs from those that were taken before
      have hfresh : ¬ s₁.Allocated s₁.allocPages.1 := LawfulPageAllocator.alloc_fresh s₁.pmm hframe
      have hnew : s₁.allocPages.2.Outside F s₁.allocPages.1 :=
        ⟨hframe, LawfulPageAllocator.alloc_mem s₁.pmm hframe, ih.step.wf.fresh_not_table hframe⟩
      have hplain' : ∀ e ρ, s₁.allocPages.2.leaf root va = some (e, ρ) → ρ = [] := by
        intro e ρ hleaf
        have hleaf' := (ih.leaf va htop).symm.trans hleaf
        cases hlast : lastFor L va with
        | none =>
            rw [hlast] at hleaf'
            exact hplain e ρ hleaf'
        | some l =>
            rw [hlast] at hleaf'
            exact (congrArg Prod.snd (Option.some.inj hleaf')).symm
      have hfuel : s₁.allocPages.2.pmapMap (4095 + 2) root va s₁.allocPages.1 pageSize ph.prot =
          some (true, s₂) := hmap
      obtain ⟨hmoves, hleaf⟩ :=
        halloc.wf.pmapMap_page hroot hpage hwrap htop ph.hasProt_huge hplain'
        hfuel
      rw [hround] at hleaf
      have hstep := hmoves.step halloc.wf
      refine ⟨ih.step.trans (halloc.trans hstep), fun x hx => ?_, fun l hl => ?_, ?_⟩
      · rw [hleaf root hroot x hx, lastFor_concat]
        by_cases hpath : PmState.path x = PmState.path va
        · rw [if_pos ⟨rfl, hpath⟩, if_pos hpath.symm]
          rfl
        · rw [if_neg fun hboth => hpath hboth.2, if_neg fun heq => hpath heq.symm]
          exact ih.leaf x hx
      · rcases List.mem_append.mp hl with hmem | hmem
        · obtain ⟨hout, hmask⟩ := ih.frames l hmem
          exact ⟨(hstep.outside _ (halloc.outside _ hout).1).1, hmask⟩
        · rw [List.mem_singleton.mp hmem]
          exact ⟨(hstep.outside _ hnew).1, hmask⟩
      · rw [List.map_append, List.nodup_append]
        refine ⟨ih.nodup, List.nodup_singleton _, ?_⟩
        rintro f hf g hg rfl
        obtain ⟨l, hl, rfl⟩ := List.mem_map.mp hf
        rw [List.map_cons, List.map_nil, List.mem_singleton] at hg
        have hallocated := (ih.frames l hl).1.allocated
        rw [show l.frame = s₁.allocPages.1 from hg] at hallocated
        exact hfresh hallocated

/-- Where an address is found that a page was loaded for. -/
theorem Loaded.extract (h : Loaded F root s L s') (hroot : root ∈ F.roots) {x : Addr}
    (hx : pml4Index x ∈ F.top) {l : PageLoad} (hl : l ∈ L) (hlast : lastFor L x = some l) :
    s'.pmapExtract root x = l.frame + (x &&& 0xFFF#64) ∧
      (Kernel.canonical x = true →
        Kernel.mmuTranslate s'.mem root x = some (l.frame + (x &&& 0xFFF#64))) := by
  have hleaf := h.leaf x hx
  rw [hlast, Option.map_some, Option.some_or] at hleaf
  have hextract : s'.pmapExtract root x = l.frame + (x &&& 0xFFF#64) := by
    rw [h.step.wf.extract_eq hroot hx, hleaf]
    show (pageEntry l.frame l.ph.prot &&& pteAddrMask) + _ = _
    rw [show pageEntry l.frame l.ph.prot &&& pteAddrMask = l.frame &&& pteAddrMask from
      addr_pageEntry _ _, (h.frames l hl).2]
  refine ⟨hextract, fun hcanonical => ?_⟩
  rw [h.step.wf.mmuTranslate_eq hroot hx hcanonical, hleaf, hextract]
  rfl

/-- An address that nothing was mapped for, and nothing was loaded for. -/
theorem Loaded.mmuTranslate_eq_none (h : Loaded F root s L s') (hroot : root ∈ F.roots) {x : Addr}
    (hx : pml4Index x ∈ F.top) (hfree : s.leaf root x = none) (hlast : lastFor L x = none) :
    Kernel.mmuTranslate s'.mem root x = none := by
  have hleaf := h.leaf x hx
  rw [hlast, hfree] at hleaf
  by_cases hcanonical : Kernel.canonical x = true
  · rw [h.step.wf.mmuTranslate_eq hroot hx hcanonical, hleaf]
    rfl
  · rw [Bool.not_eq_true] at hcanonical
    exact PmState.mmuTranslate_of_not_canonical hcanonical

end Tables

section Slots

variable {L : List PageLoad} {x va : Addr}

/-- The tables do not tell addresses apart that differ in the upper 16 bits only. -/
theorem path_eq_iff_mod : PmState.path x = PmState.path va ↔
    x.toNat / 4096 % 2 ^ 36 = va.toNat / 4096 % 2 ^ 36 := by
  simp only [PmState.path, List.cons.injEq, and_true, ← BitVec.toNat_inj, toNat_pml4Index,
    toNat_pdptIndex, toNat_pdIndex, toNat_ptIndex]
  omega

/-- All addresses of a page have the same path. -/
theorem path_pageOf (x : Addr) : PmState.path (Kernel.pageOf x) = PmState.path x := by
  rw [path_eq_iff_mod, toNat_pageOf, Nat.mul_div_cancel _ (by decide)]

/-- The last load of a page is one of its loads. -/
theorem mem_of_lastFor {l : PageLoad} (h : lastFor L x = some l) :
    l ∈ L ∧ PmState.path l.va = PmState.path x := by
  rw [lastFor] at h
  exact ⟨List.mem_reverse.mp (List.mem_of_find?_eq_some h), by simpa using List.find?_some h⟩

/-- There is none if and only if the page is not loaded. -/
theorem lastFor_eq_none_iff :
    lastFor L x = none ↔ ∀ l ∈ L, PmState.path l.va ≠ PmState.path x := by
  simp [lastFor, List.find?_eq_none]

/-- If no page is loaded twice, each of them is the last one for its addresses. -/
theorem lastFor_eq_some {l : PageLoad}
    (hdistinct : L.Pairwise fun l₁ l₂ => PmState.path l₁.va ≠ PmState.path l₂.va) (hl : l ∈ L)
    (hx : PmState.path l.va = PmState.path x) : lastFor L x = some l := by
  induction L using List.reverseRecOn with
  | nil => cases hl
  | append_singleton L l' ih =>
      rw [lastFor_concat]
      rw [List.pairwise_append] at hdistinct
      rcases List.mem_append.mp hl with hmem | hmem
      · have hne := hdistinct.2.2 l hmem l' (List.mem_singleton_self l')
        rw [if_neg fun heq => hne (hx.trans heq.symm)]
        exact ih hdistinct.1 hmem
      · rw [List.mem_singleton.mp hmem] at hx ⊢
        rw [if_pos hx]

end Slots

/-! ### `elf_load`

The loads of `elf_load` are those of its program headers, in their order. -/

namespace Image

/-- `phdr[i]`. -/
def segment (img : Image) (i : ℕ) : Segment where
  flags := img.field (img.phdr i + 4) 4
  offset := img.offset i
  vaddr := img.field (img.phdr i + 16) 8
  filesz := img.filesz i
  memsz := img.field (img.phdr i + 40) 8

/-- The pages of one program header. -/
def pagesOf (img : Image) (i : ℕ) : List (Segment × Addr) :=
  if img.type i = ptLoad then (img.segment i).pages.map (Prod.mk (img.segment i)) else []

/-- All pages that are to be loaded, in the order of the program headers. -/
def pages (img : Image) : List (Segment × Addr) := (List.range img.phnum.toNat).flatMap img.pagesOf

end Image

section ElfLoad

variable {σ : Type} [PageAllocator σ] {img : Image} {root : Addr} {s s₁ s' : PmState σ}
  {p p' : List (Segment × Addr)}

/-- If the computation has a result, it has loaded these pages, and done nothing else to the bytes
of memory. -/
def Loading (img : Image) (root : Addr) (s : PmState σ) (p : List (Segment × Addr))
    (x : Traced Access (PmState σ)) : Prop :=
  ∀ s', x.val = some s' → ∃ L, Loads root s L s' ∧ L.map PageLoad.page = p ∧
    (∀ mem, img.bytesAfter x.log mem = img.bytesAfter (L.flatMap PageLoad.stores) mem) ∧
    L.flatMap PageLoad.stores ⊆ x.log

/-- Some loads, and then others. -/
theorem Loads.append {L L' : List PageLoad} (h : Loads root s L s₁) (h' : Loads root s₁ L' s') :
    Loads root s (L ++ L') s' := by
  induction h' with
  | nil => rwa [List.append_nil]
  | page ph va _ hframe hmap ih =>
      rw [← List.append_assoc]
      exact ih.page ph va hframe hmap

/-- To load nothing. -/
theorem loading_pure : Loading img root s [] (pure s) := by
  rintro s' hs'
  cases hs'
  exact ⟨[], .nil, rfl, fun _ => rfl, List.nil_subset _⟩

/-- To read a field of the image first is to load nothing. -/
theorem Loading.read_bind {off : Addr} {len : ℕ} {f : Addr → Traced Access (PmState σ)}
    (h : Loading img root s p (f (img.field off len))) :
    Loading img root s p (img.read off len >>= f) := by
  intro s' hs'
  obtain ⟨L, hL, hpages, hbytes, hsub⟩ := h s' hs'
  exact ⟨L, hL, hpages, hbytes, fun a ha => List.mem_cons_of_mem _ (hsub ha)⟩

/-- To compute something first is to load nothing. -/
theorem Loading.lift_bind {α : Type} {x : Option α} {f : α → Traced Access (PmState σ)}
    (h : ∀ a, x = some a → Loading img root s p (f a)) :
    Loading img root s p (Traced.lift x >>= f) := by
  intro s' hs'
  obtain ⟨a, ha, hval, hlog⟩ := Traced.exists_of_bind hs'
  rw [hlog]
  exact h a ha s' hval

/-- One part after the other. -/
theorem Loading.bind {x : Traced Access (PmState σ)} {f : PmState σ → Traced Access (PmState σ)}
    (hx : Loading img root s p x) (hf : ∀ s₁, Loading img root s₁ p' (f s₁)) :
    Loading img root s (p ++ p') (x >>= f) := by
  intro s' hs'
  obtain ⟨s₁, hs₁, hval, hlog⟩ := Traced.exists_of_bind hs'
  obtain ⟨L, hL, hpages, hbytes, hsub⟩ := hx s₁ hs₁
  obtain ⟨L', hL', hpages', hbytes', hsub'⟩ := hf s₁ s' hval
  refine ⟨L ++ L', hL.append hL', by rw [List.map_append, hpages, hpages'], fun mem => ?_, ?_⟩
  · rw [hlog, Image.bytesAfter_append, hbytes, hbytes', List.flatMap_append,
      Image.bytesAfter_append]
  · rw [hlog, List.flatMap_append]
    intro a ha
    rcases List.mem_append.mp ha with ha | ha
    · exact List.mem_append_left _ (hsub ha)
    · exact List.mem_append_right _ (hsub' ha)

/-- The rule for loops, with the pages of each iteration. -/
theorem loading_foldlM {ι : Type} {f : PmState σ → ι → Traced Access (PmState σ)}
    {g : ι → List (Segment × Addr)} (hf : ∀ s i, Loading img root s (g i) (f s i)) (l : List ι)
    (s : PmState σ) : Loading img root s (l.flatMap g) (l.foldlM f s) := by
  induction l generalizing s with
  | nil => exact loading_pure
  | cons i l ih =>
      rw [List.foldlM_cons, List.flatMap_cons]
      exact (hf s i).bind ih

namespace Image

/-- `elf_load` loads a page. -/
theorem loading_loadPage (s : PmState σ) (ph : Segment) (va : Addr) :
    Loading img root s [(ph, va)] (loadPage root ph s va) := by
  refine Loading.lift_bind fun _ hframe => Loading.lift_bind fun mapped hmap =>
    Loading.lift_bind fun _ hok => ?_
  rw [Option.guard_eq_some'] at hframe hok
  intro s' hs'
  obtain rfl : mapped.2 = s' := Option.some.inj hs'
  -- the stores of the page are the whole log
  have hlog : [⟨ph, va, s.allocPages.1⟩].flatMap PageLoad.stores =
      ph.copyTo s.allocPages.1 va ++ (ph.clearIn s.allocPages.1 va ++ []) := by
    rw [List.flatMap_singleton, List.append_nil]
    rfl
  refine ⟨[⟨ph, va, s.allocPages.1⟩], Loads.nil.page ph va hframe ?_, rfl, fun mem => ?_, ?_⟩
  · rw [hmap, ← hok]
  · rw [hlog]
    rfl
  · rw [hlog]
    exact fun a ha => ha

/-- `elf_load` loads the pages of a segment. -/
theorem loading_segment (s : PmState σ) (ph : Segment) :
    Loading img root s (ph.pages.map (Prod.mk ph)) (ph.pages.foldlM (loadPage root ph) s) := by
  rw [List.map_eq_flatMap]
  exact loading_foldlM (fun s va => loading_loadPage s ph va) ph.pages s

/-- One program header. -/
theorem loading_loadPhdr (s : PmState σ) (i : ℕ) :
    Loading img root s (img.pagesOf i) (img.loadPhdr root s i) := by
  apply Loading.read_bind
  show Loading img root s _ (if img.type i ≠ ptLoad then _ else _)
  unfold pagesOf
  by_cases htype : img.type i = ptLoad
  · rw [if_pos htype, if_neg (not_not.mpr htype)]
    refine Loading.read_bind (Loading.read_bind (Loading.lift_bind fun _ _ => ?_))
    exact Loading.read_bind (Loading.read_bind (Loading.read_bind (loading_segment s _)))
  · rw [if_neg htype, if_pos htype]
    exact loading_pure

/-- The whole image. -/
theorem exists_loads_of_elfLoad {entry : Addr} (h : (img.elfLoad s root).val = some (entry, s')) :
    ∃ L, Loads root s L s' ∧ L.map PageLoad.page = img.pages ∧ ∀ mem,
      img.bytesAfter (img.elfLoad s root).log mem =
      img.bytesAfter (L.flatMap PageLoad.stores) mem := by
  obtain ⟨_, -, hval, hlog⟩ := Traced.exists_of_bind h
  obtain ⟨s₁, hs₁, hval₁, hlog₁⟩ := Traced.exists_of_bind hval
  obtain rfl : s₁ = s' := congrArg Prod.snd (Option.some.inj hval₁)
  have hphdr : ∀ (s : PmState σ) i, Loading img root s (img.pagesOf i) (img.loadPhdr root s i) :=
    img.loading_loadPhdr
  obtain ⟨L, hL, hpages, hbytes, -⟩ := loading_foldlM hphdr _ s s₁ hs₁
  refine ⟨L, hL, hpages, fun mem => ?_⟩
  -- the header and the entry point are looked at only
  have hcheck : ∀ mem, img.bytesAfter img.elfCheck.log mem = mem := by
    intro mem
    have hread : ∀ a ∈ img.elfCheck.log, ∀ mem, a.store img some mem = mem :=
      forall_elfCheck_log fun _ _ _ _ _ => rfl
    unfold bytesAfter
    apply List.foldlRecOn (motive := fun mem' => mem' = mem) _ _ rfl
    intro mem' hmem a ha
    exact (hread a ha mem').trans hmem
  rw [elfLoad, hlog, hlog₁, bytesAfter_append, hcheck, bytesAfter_append, hbytes]
  rfl

end Image

/-! ### One segment

Distinct frames in the direct map, which each store reaches at its own address. -/

section OneSegment

variable [LawfulPageAllocator σ] {F : Shape Addr (BitVec 9)} {ph : Segment}

/-- The pages of a segment have different frames in the direct map, so that there are not more of
them than the tables can tell apart. -/
theorem pages_distinct {L : List PageLoad}
    (hpages : L.map PageLoad.page = ph.pages.map (Prod.mk ph))
    (hnodup : (L.map PageLoad.frame).Nodup)
    (hframes : ∀ l ∈ L, IsPage l.frame ∧ l.frame.toNat < 2 ^ 47) :
    L.Pairwise fun l₁ l₂ => PmState.path l₁.va ≠ PmState.path l₂.va := by
  -- frames that differ have different numbers, all below `2 ^ 35`
  have hnumbers : (L.map fun l => l.frame.toNat / 4096).Nodup := by
    rw [List.Nodup, List.pairwise_map] at hnodup ⊢
    refine hnodup.imp_of_mem fun {l₁ l₂} hl₁ hl₂ hne heq => hne (BitVec.eq_of_toNat_eq ?_)
    have h₁ := isPage_iff.mp (hframes l₁ hl₁).1
    have h₂ := isPage_iff.mp (hframes l₂ hl₂).1
    omega
  have hcount : L.length ≤ 2 ^ 35 := by
    have hsub : (L.map fun l => l.frame.toNat / 4096) ⊆ List.range (2 ^ 35) := by
      intro n hn
      obtain ⟨l, hl, rfl⟩ := List.mem_map.mp hn
      have := (hframes l hl).2
      rw [List.mem_range]
      omega
    have hle := (hnumbers.subperm hsub).length_le
    rwa [List.length_map, List.length_range] at hle
  have hvas : L.map PageLoad.va = ph.pages := by
    have hsnd := congrArg (List.map Prod.snd) hpages
    rw [List.map_map, List.map_map] at hsnd
    exact hsnd.trans (List.map_id _)
  rw [← List.length_map (f := PageLoad.va), hvas, Segment.pages, pagesFrom, List.length_map,
    List.length_range] at hcount
  have hdistinct : ph.pages.Pairwise fun va va' => PmState.path va ≠ PmState.path va' := by
    show ((List.range _).map ph.pageAt).Pairwise _
    rw [List.pairwise_map]
    refine List.pairwise_lt_range.imp_of_mem fun {i j} hi hj hlt heq => ?_
    rw [List.mem_range] at hi hj
    rw [path_eq_iff_mod, Segment.toNat_pageAt hi, Segment.toNat_pageAt hj] at heq
    omega
  rwa [← hvas, List.pairwise_map] at hdistinct

/-- In a new address space nothing is mapped. -/
theorem leaf_pmapCreate (s : PmState σ) (kernelRoot : Addr) {va : Addr} (hva : va.toNat < 2 ^ 47) :
    (s.pmapCreate kernelRoot).2.leaf (s.pmapCreate kernelRoot).1 va = none := by
  have hmaps := (PmState.represents_pmapCreate s kernelRoot).maps va hva
  cases hleaf : (s.pmapCreate kernelRoot).2.leaf (s.pmapCreate kernelRoot).1 va with
  | none => rfl
  | some x =>
      rw [hleaf] at hmaps
      exact hmaps.elim

/-- The address is mapped, and has the byte. The hardware agrees, where it accepts the address. -/
structure Reads (s : PmState σ) (root : Addr) (mem : Addr → BitVec 8) (x : Addr) (b : BitVec 8) :
    Prop where
  mapped : s.pmapExtract root x ≠ 0
  byte : mem (s.pmapExtract root x) = b
  hardware : Kernel.canonical x = true →
    Kernel.mmuTranslate s.mem root x = some (s.pmapExtract root x)

/-- What is read at an address of a loaded page is what its last load has put there. -/
theorem Loaded.reads {L : List PageLoad} (h : Loaded F root s L s') (hroot : root ∈ F.roots)
    (hva : ∀ l ∈ L, IsPage l.va ∧ l.va.toNat + 4096 < 2 ^ 64) {x : Addr}
    (hx : pml4Index x ∈ F.top) {l : PageLoad} (hl : l ∈ L) (hpage : Kernel.pageOf x = l.va)
    (hlast : lastFor L x = some l) (mem : Addr → BitVec 8) :
    Reads s' root (img.bytesAfter (L.flatMap PageLoad.stores) mem) x
      (l.ph.byteAt img (mem (l.frame + (x &&& 0xFFF#64))) x) := by
  obtain ⟨hextract, hmmu⟩ := h.extract hroot hx hl hlast
  have hframe : IsPage l.frame := isPage_of_mask (h.frames l hl).2
  refine ⟨fun hzero => (h.frames l hl).1.ne_zero ?_, ?_, ?_⟩
  · rw [← pageOf_add_offset hframe x, ← hextract, hzero]
    rfl
  · rw [hextract]
    refine bytesAfter_of_mem (fun l hl => ⟨isPage_of_mask (h.frames l hl).2, hva l hl⟩) h.nodup hl
      hpage mem
  · rwa [hextract]

/-- Everything that was loaded for one segment can be read. -/
theorem Loading.reads {x : Traced Access (PmState σ)}
    (h : Loading img root s (ph.pages.map (Prod.mk ph)) x) (hval : x.val = some s') (hwf : s.Wf F)
    (hroot : root ∈ F.roots) (htop : ∀ va ∈ ph.pages, pml4Index va ∈ F.top)
    (hfree : ∀ va ∈ ph.pages, s.leaf root va = none) (hstores : ∀ a ∈ x.log, a.InDirectMap)
    (hends : ph.Ends) (hfile : ph.filesz.toNat ≤ ph.memsz.toNat) (mem : Addr → BitVec 8) {k : ℕ}
    (hk : k < ph.memsz.toNat) :
    Reads s' root (img.bytesAfter x.log mem) (ph.vaddr + BitVec.ofNat 64 k) (ph.content img k) := by
  obtain ⟨L, hloads, hpages, hbytes, hsub⟩ := h s' hval
  have hmem : ∀ l ∈ L, l.ph = ph ∧ l.va ∈ ph.pages := by
    intro l hl
    have hpage : l.page ∈ ph.pages.map (Prod.mk ph) := hpages ▸ List.mem_map_of_mem hl
    obtain ⟨va, hva, heq⟩ := List.mem_map.mp hpage
    obtain ⟨rfl, rfl⟩ := Prod.mk.inj heq
    exact ⟨rfl, hva⟩
  have hvas : ∀ l ∈ L, IsPage l.va ∧ l.va.toNat + 4096 < 2 ^ 64 :=
    fun l hl => Segment.mem_pages (hmem l hl).2
  have hloaded : Loaded F root s L s' := by
    apply hloads.loaded hwf hroot
    intro l hl
    refine ⟨(hvas l hl).1, (hvas l hl).2, htop _ (hmem l hl).2, fun e ρ hleaf => ?_⟩
    rw [hfree _ (hmem l hl).2] at hleaf
    cases hleaf
  -- the page of the byte is one of those that were loaded, once
  have hdistinct := pages_distinct hpages hloaded.nodup fun l hl => by
    have hframe : IsPage l.frame := isPage_of_mask (hloaded.frames l hl).2
    refine ⟨hframe, hends.frame_lt hfile (by omega) (hmem l hl).2 hframe fun a ha => ?_⟩
    refine hstores a (hsub (List.mem_flatMap.mpr ⟨l, hl, ?_⟩))
    rw [PageLoad.stores, (hmem l hl).1]
    exact ha
  have hpage := hends.pageOf_mem_pages hk
  have hmem' : (ph, Kernel.pageOf (ph.vaddr + BitVec.ofNat 64 k)) ∈ L.map PageLoad.page :=
    hpages ▸ List.mem_map_of_mem hpage
  obtain ⟨l, hl, hlpage⟩ := List.mem_map.mp hmem'
  obtain ⟨hph, hva⟩ := Prod.mk.inj hlpage
  have hpath : PmState.path l.va = PmState.path (ph.vaddr + BitVec.ofNat 64 k) := by
    rw [hva, path_pageOf]
  have htop' : pml4Index (ph.vaddr + BitVec.ofNat 64 k) ∈ F.top := by
    have hindex : pml4Index l.va = pml4Index (ph.vaddr + BitVec.ofNat 64 k) :=
      (List.cons.inj hpath).1
    rw [← hindex]
    exact htop _ (hmem l hl).2
  have hreads : Reads s' root (img.bytesAfter (L.flatMap PageLoad.stores) mem) _ _ :=
    hloaded.reads hroot hvas htop' hl hva.symm (lastFor_eq_some hdistinct hl hpath) mem
  rw [hph, hends.byteAt_of_le hfile hk] at hreads
  rw [hbytes]
  exact hreads

end OneSegment

end ElfLoad

end Koharu
