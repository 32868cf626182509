import Koharu.Task.LoadMemory

/-!
# Pages that several segments share

`elf_load` takes a new frame for each page of each program header, maps it over what was there, and
stores to it only what the header asks for.

* `elfLoad_stale_free_iff`: when a loaded page has nothing left of what was in its frame before;
* `elfLoad_intact_iff`: when all segments are there at the end, and all frames are still mapped.
-/

namespace Koharu

open Radix

/-- The last page that is loaded for an address, as far as the tables tell addresses apart. -/
def lastSlot (p : List (Segment × Addr)) (x : Addr) : Option (Segment × Addr) :=
  p.reverse.find? fun q => PmState.path q.2 = PmState.path x

/-- The last page loaded over an address, by its slot or by its record. -/
theorem lastSlot_map_page (L : List PageLoad) (x : Addr) :
    lastSlot (L.map PageLoad.page) x = (lastFor L x).map PageLoad.page := by
  rw [lastSlot, ← List.map_reverse, List.find?_map]
  rfl

/-- The file's part of the segment and the zeros behind it cover the whole page. -/
def Segment.Tiles (ph : Segment) (va : Addr) : Prop :=
  (ph.vaddr ≤ va ∨ ph.vaddr + ph.filesz ≤ va) ∧
    (va + pageSize ≤ ph.vaddr + ph.filesz ∨ va + pageSize ≤ ph.vaddr + ph.memsz)

/-- Nothing is mapped yet where pages are to be loaded. -/
def Image.Free {σ : Type} (img : Image) (F : Shape Addr (BitVec 9)) (s : PmState σ) (root : Addr) :
    Prop :=
  ∀ q ∈ img.pages, pml4Index q.2 ∈ F.top ∧ s.leaf root q.2 = none

/-! ### What is left of the old contents

A frame is not cleared as a whole. What shows through is decided by the last page that was loaded
for an address. -/

namespace Segment

variable {img : Image} {ph : Segment} {va x : Addr}

/-- Inside a segment the loaded byte does not depend on what was there before. -/
theorem byteAt_eq_of_mem (hx : ph.vaddr + ph.filesz ≤ x ∧ x < ph.vaddr + ph.memsz ∨
    ph.vaddr ≤ x ∧ x < ph.vaddr + ph.filesz) (old old' : BitVec 8) :
    ph.byteAt img old x = ph.byteAt img old' x := by
  rw [byteAt, byteAt]
  split
  case isTrue => rfl
  case isFalse hzero => rw [if_pos (hx.resolve_left hzero), if_pos (hx.resolve_left hzero)]

/-- It is zero or a byte of the file. -/
theorem byteAt_cases (hx : ph.vaddr + ph.filesz ≤ x ∧ x < ph.vaddr + ph.memsz ∨
    ph.vaddr ≤ x ∧ x < ph.vaddr + ph.filesz) (old : BitVec 8) :
    ph.byteAt img old x = 0 ∨ ∃ off, ph.byteAt img old x = img.byte off := by
  rw [byteAt]
  split
  case isTrue => exact Or.inl rfl
  case isFalse hzero =>
    rw [if_pos (hx.resolve_left hzero)]
    exact Or.inr ⟨_, rfl⟩

/-- Where neither part of the segment is, the old byte is left. -/
theorem byteAt_of_not_mem (hx : ¬ (ph.vaddr + ph.filesz ≤ x ∧ x < ph.vaddr + ph.memsz ∨
    ph.vaddr ≤ x ∧ x < ph.vaddr + ph.filesz)) (old : BitVec 8) : ph.byteAt img old x = old := by
  rw [not_or] at hx
  rw [byteAt, if_neg hx.1, if_neg hx.2]

/-- A page is covered iff its first and its last byte are. -/
theorem tiles_iff (hva : IsPage va) (hwrap : va.toNat + 4096 < 2 ^ 64) : ph.Tiles va ↔
    ∀ x, Kernel.pageOf x = va → ph.vaddr + ph.filesz ≤ x ∧ x < ph.vaddr + ph.memsz ∨
      ph.vaddr ≤ x ∧ x < ph.vaddr + ph.filesz := by
  have hend := toNat_pageEnd hwrap
  simp only [Tiles, BitVec.le_def, BitVec.lt_def, hend, pageOf_eq_iff hva]
  constructor
  · rintro ⟨hfirst, hlast⟩ x ⟨hle, hlt⟩
    omega
  · intro h
    have hlast : (BitVec.ofNat 64 (va.toNat + 4095)).toNat = va.toNat + 4095 := by
      rw [BitVec.toNat_ofNat, Nat.mod_eq_of_lt (by omega)]
    have hfirst' := h va ⟨Nat.le_refl _, by omega⟩
    have hlast' := h (BitVec.ofNat 64 (va.toNat + 4095)) (by rw [hlast]; omega)
    rw [hlast] at hlast'
    omega

end Segment

section ElfLoad

variable {σ : Type} [PageAllocator σ] [LawfulPageAllocator σ] {img : Image}
  {F : Shape Addr (BitVec 9)} {root entry : Addr} {s s' : PmState σ} {L : List PageLoad}

/-- The pages of an image begin at page boundaries and do not wrap. -/
theorem Image.mem_pages {q : Segment × Addr} (hq : q ∈ img.pages) :
    IsPage q.2 ∧ q.2.toNat + 4096 < 2 ^ 64 := by
  obtain ⟨i, -, hq⟩ := List.mem_flatMap.mp hq
  rw [Image.pagesOf] at hq
  split at hq
  case isTrue =>
    obtain ⟨va, hva, rfl⟩ := List.mem_map.mp hq
    exact Segment.mem_pages hva
  case isFalse => cases hq

/-- What the tables are after the whole image was loaded. -/
theorem Image.Free.loaded (h : img.Free F s root) (hwf : s.Wf F) (hroot : root ∈ F.roots)
    (hloads : Loads root s L s') (hL : L.map PageLoad.page = img.pages) : Loaded F root s L s' := by
  apply hloads.loaded hwf hroot
  intro l hl
  have hpage : l.page ∈ img.pages := hL ▸ List.mem_map_of_mem hl
  obtain ⟨htop, hfree⟩ := h _ hpage
  obtain ⟨hva, hwrap⟩ := Image.mem_pages hpage
  refine ⟨hva, hwrap, htop, fun e ρ hleaf => ?_⟩
  cases hfree.symm.trans hleaf

section Slots

variable (hL : L.map PageLoad.page = img.pages) {x : Addr} {q : Segment × Addr}

include hL

/-- For each address of a loaded page there is a last page. -/
theorem exists_lastFor (hq : q ∈ img.pages) (hx : Kernel.pageOf x = q.2) :
    ∃ l ∈ L, lastFor L x = some l ∧ PmState.path l.va = PmState.path q.2 := by
  cases hlast : lastFor L x with
  | none =>
      rw [← hL] at hq
      obtain ⟨l, hl, rfl⟩ := List.mem_map.mp hq
      refine absurd ?_ (lastFor_eq_none_iff.mp hlast l hl)
      rw [← path_pageOf x, hx]
      rfl
  | some l =>
      obtain ⟨hl, hpath⟩ := mem_of_lastFor hlast
      exact ⟨l, hl, rfl, by rw [hpath, ← hx, path_pageOf]⟩

/-- What is found at an address that a page was loaded for. -/
theorem Loaded.bytes_of_lastFor (h : Loaded F root s L s') (hroot : root ∈ F.roots)
    (hx : pml4Index x ∈ F.top) {l : PageLoad} (hl : l ∈ L) (hlast : lastFor L x = some l) :
    ∃ y, Kernel.pageOf y = l.va ∧ (Kernel.pageOf x = l.va → y = x) ∧ ∀ mem,
      img.bytesAfter (L.flatMap PageLoad.stores) mem (s'.pmapExtract root x) =
        l.ph.byteAt img (mem (s'.pmapExtract root x)) y := by
  obtain ⟨hextract, -⟩ := h.extract hroot hx hl hlast
  have hpages : ∀ l ∈ L, IsPage l.frame ∧ IsPage l.va ∧ l.va.toNat + 4096 < 2 ^ 64 := by
    intro l hl
    have hpage : l.page ∈ img.pages := hL ▸ List.mem_map_of_mem hl
    exact ⟨isPage_of_mask (h.frames l hl).2, Image.mem_pages hpage⟩
  have hpage : Kernel.pageOf (l.va + (x &&& 0xFFF#64)) = l.va :=
    pageOf_add_offset (hpages l hl).2.1 x
  have hoff : (l.va + (x &&& 0xFFF#64)) &&& 0xFFF#64 = x &&& 0xFFF#64 := by
    have hva := isPage_iff.mp (hpages l hl).2.1
    have hwrap := (hpages l hl).2.2
    apply BitVec.eq_of_toNat_eq
    rw [Word.toNat_and_low (w := 12) (by decide), BitVec.toNat_add,
      Word.toNat_and_low (w := 12) (by decide)]
    omega
  -- the byte of the page at the offset of `x`, which is `x` itself if `x` is on that page
  refine ⟨l.va + (x &&& 0xFFF#64), hpage, fun heq => ?_, fun mem => ?_⟩
  · apply BitVec.eq_of_toNat_eq
    have hrange := (pageOf_eq_iff (hpages l hl).2.1).mp heq
    have hva := isPage_iff.mp (hpages l hl).2.1
    have hwrap := (hpages l hl).2.2
    rw [BitVec.toNat_add, Word.toNat_and_low (w := 12) (by decide)]
    omega
  · have hbytes : img.bytesAfter (L.flatMap PageLoad.stores) mem _ = _ :=
      bytesAfter_of_mem hpages h.nodup hl hpage mem
    rwa [hoff, ← hextract] at hbytes

end Slots

section Result

variable (hwf : s.Wf F) (hroot : root ∈ F.roots) (hfree : img.Free F s root)
  (hload : (img.elfLoad s root).val = some (entry, s'))

omit [PageAllocator σ] [LawfulPageAllocator σ] in
include hfree in
/-- The addresses of an image's pages lie in the part of the tables that the pmap owns. -/
theorem Image.Free.top {q : Segment × Addr} (hq : q ∈ img.pages) {x : Addr}
    (hx : Kernel.pageOf x = q.2) : pml4Index x ∈ F.top := by
  have hindex : pml4Index (Kernel.pageOf x) = pml4Index x := (List.cons.inj (path_pageOf x)).1
  rw [← hindex, hx]
  exact (hfree q hq).1

include hwf hroot hfree hload

/-- What the last page has that was loaded at an address. -/
theorem Image.Free.bytes {q : Segment × Addr} (hq : q ∈ img.pages)
    (hlast : lastSlot img.pages q.2 = some q) {x : Addr} (hx : Kernel.pageOf x = q.2)
    (mem : Addr → BitVec 8) :
    img.bytesAfter (img.elfLoad s root).log mem (s'.pmapExtract root x) =
      q.1.byteAt img (mem (s'.pmapExtract root x)) x := by
  obtain ⟨L, hloads, hL, hbytes⟩ := Image.exists_loads_of_elfLoad hload
  have hloaded := hfree.loaded hwf hroot hloads hL
  obtain ⟨l, hl, hlastFor, -⟩ := exists_lastFor hL hq hx
  -- the last load of the page of `x` is the last one of its slot
  obtain rfl : l.page = q := by
    have hsame : lastFor L x = lastFor L q.2 := by
      rw [lastFor, lastFor, ← path_pageOf x, hx]
    rw [← hL, lastSlot_map_page, ← hsame, hlastFor] at hlast
    exact Option.some.inj hlast
  obtain ⟨y, -, hy, hold⟩ := hloaded.bytes_of_lastFor hL hroot (hfree.top hq hx) hl hlastFor
  obtain rfl := hy hx
  rw [hbytes]
  exact hold mem

/-- The same for the hardware, which finds the address in that page. -/
theorem Image.Free.mmuTranslate_bytes {q : Segment × Addr} (hq : q ∈ img.pages)
    (hlast : lastSlot img.pages q.2 = some q) {x : Addr} (hx : Kernel.pageOf x = q.2)
    (hcanonical : Kernel.canonical x = true) (mem : Addr → BitVec 8) :
    (Kernel.mmuTranslate s'.mem root x).map (img.bytesAfter (img.elfLoad s root).log mem) =
      some (q.1.byteAt img (mem (s'.pmapExtract root x)) x) := by
  obtain ⟨L, hloads, hL, -⟩ := Image.exists_loads_of_elfLoad hload
  have hloaded := hfree.loaded hwf hroot hloads hL
  obtain ⟨l, hl, hlastFor, -⟩ := exists_lastFor hL hq hx
  obtain ⟨hextract, hmmu⟩ := hloaded.extract hroot (hfree.top hq hx) hl hlastFor
  rw [hmmu hcanonical, Option.map_some, ← hextract, hfree.bytes hwf hroot hload hq hlast hx]

/-- After `elf_load` has returned `0`, what the loaded pages have does not depend on what was in
memory before, and is zero or a byte of the image, iff each page is covered by the last segment that
is loaded to it. -/
theorem elfLoad_stale_free_iff :
    (∀ q ∈ img.pages, ∀ x, Kernel.pageOf x = q.2 →
      (∀ mem mem', img.bytesAfter (img.elfLoad s root).log mem (s'.pmapExtract root x) =
        img.bytesAfter (img.elfLoad s root).log mem' (s'.pmapExtract root x)) ∧
      ∀ mem, img.bytesAfter (img.elfLoad s root).log mem (s'.pmapExtract root x) = 0 ∨
        ∃ off, img.bytesAfter (img.elfLoad s root).log mem (s'.pmapExtract root x) = img.byte off) ↔
    ∀ q ∈ img.pages, lastSlot img.pages q.2 = some q → q.1.Tiles q.2 := by
  constructor
  · intro h q hq hlast
    obtain ⟨hva, hwrap⟩ := Image.mem_pages hq
    rw [Segment.tiles_iff hva hwrap]
    intro x hx
    by_contra hout
    -- the byte that was in the frame before is still there
    have hdiff := (h q hq x hx).1 (fun _ => 0) fun _ => 1
    rw [hfree.bytes hwf hroot hload hq hlast hx, hfree.bytes hwf hroot hload hq hlast hx,
      Segment.byteAt_of_not_mem hout, Segment.byteAt_of_not_mem hout] at hdiff
    exact absurd hdiff (by decide)
  · intro h q hq x hx
    obtain ⟨L, hloads, hL, hbytes⟩ := Image.exists_loads_of_elfLoad hload
    have hloaded := hfree.loaded hwf hroot hloads hL
    obtain ⟨l, hl, hlastFor, hpath⟩ := exists_lastFor hL hq hx
    obtain ⟨y, hpage, -, hold⟩ := hloaded.bytes_of_lastFor hL hroot (hfree.top hq hx) hl hlastFor
    have hmem : l.page ∈ img.pages := hL ▸ List.mem_map_of_mem hl
    have hlast : lastSlot img.pages l.va = some l.page := by
      have hsame : lastFor L l.va = lastFor L x := by
        rw [lastFor, lastFor, hpath, ← hx, path_pageOf]
      rw [← hL, lastSlot_map_page, hsame, hlastFor]
      rfl
    obtain ⟨hva, hwrap⟩ := Image.mem_pages hmem
    have hin := (Segment.tiles_iff hva hwrap).mp (h _ hmem hlast) y hpage
    simp only [hbytes, hold]
    exact ⟨fun _ _ => Segment.byteAt_eq_of_mem hin _ _, fun _ => Segment.byteAt_cases hin _⟩

end Result

end ElfLoad

section Sharing

/-- Two segments of eight bytes, one right behind the other, which `root_main` would join. -/
def sharing : Image where
  byte off := ([0x7F, 0x45, 0x4C, 0x46, 2, 1, 1, 0, 0, 0, 0, 0, 0, 0, 0, 0,
    2, 0, 62, 0, 1, 0, 0, 0, 0, 0, 0x40, 0, 0, 0, 0, 0,
    64, 0, 0, 0, 0, 0, 0, 0, 0, 0, 0, 0, 0, 0, 0, 0,
    0, 0, 0, 0, 64, 0, 56, 0, 2, 0, 0, 0, 0, 0, 0, 0,
    1, 0, 0, 0, 6, 0, 0, 0, 176, 0, 0, 0, 0, 0, 0, 0,
    0, 0, 0x40, 0, 0, 0, 0, 0, 0, 0, 0, 0, 0, 0, 0, 0,
    8, 0, 0, 0, 0, 0, 0, 0, 8, 0, 0, 0, 0, 0, 0, 0,
    0, 0x10, 0, 0, 0, 0, 0, 0,
    1, 0, 0, 0, 6, 0, 0, 0, 184, 0, 0, 0, 0, 0, 0, 0,
    8, 0, 0x40, 0, 0, 0, 0, 0, 0, 0, 0, 0, 0, 0, 0, 0,
    8, 0, 0, 0, 0, 0, 0, 0, 8, 0, 0, 0, 0, 0, 0, 0,
    0, 0x10, 0, 0, 0, 0, 0, 0,
    1, 2, 3, 4, 5, 6, 7, 8, 9, 10, 11, 12, 13, 14, 15, 16] : List (BitVec 8)).getD off.toNat 0
  size := 192#64

/-- The address space that it is loaded to. -/
def sharingStart : Addr × PmState BumpAllocator := PmState.blank.pmapCreate 0x80000#64

/-- Both segments of the example lie in one page. -/
theorem sharing_pages : sharing.pages =
    [(sharing.segment 0, 0x400000#64), (sharing.segment 1, 0x400000#64)] := by
  have hphnum : sharing.phnum.toNat = 2 := by decide +kernel
  have htypes : sharing.type 0 = ptLoad ∧ sharing.type 1 = ptLoad := by decide +kernel
  have hpages : (sharing.segment 0).pages = [0x400000#64] ∧
      (sharing.segment 1).pages = [0x400000#64] := by decide +kernel
  rw [Image.pages, hphnum]
  show sharing.pagesOf 0 ++ (sharing.pagesOf 1 ++ []) = _
  rw [Image.pagesOf, Image.pagesOf, if_pos htypes.1, if_pos htypes.2, hpages.1, hpages.2]
  rfl

/-- The tables of the example are well formed. -/
theorem sharing_wf : sharingStart.2.Wf (forest {sharingStart.1} userTop) :=
  (PmState.represents_pmapCreate PmState.blank 0x80000#64).wf

/-- Nothing is mapped there before. -/
theorem sharing_free :
    sharing.Free (forest {sharingStart.1} userTop) sharingStart.2 sharingStart.1 := by
  intro q hq
  rw [sharing_pages, List.mem_pair] at hq
  have hva : q.2 = 0x400000#64 := by rcases hq with rfl | rfl <;> rfl
  rw [hva]
  exact ⟨pml4Index_mem_userTop (by decide), leaf_pmapCreate _ _ (by decide)⟩

/-- The example is loaded. -/
theorem exists_elfLoad_sharing :
    ∃ entry s', (sharing.elfLoad sharingStart.2 sharingStart.1).val = some (entry, s') := by
  have hsome : (sharing.elfLoad sharingStart.2 sharingStart.1).val.isSome = true := by
    decide +kernel
  obtain ⟨⟨entry, s'⟩, h⟩ := Option.isSome_iff_exists.mp hsome
  exact ⟨entry, s', h⟩

/-- The second segment is the last one loaded over the page. -/
theorem sharing_last :
    lastSlot sharing.pages 0x400000#64 = some (sharing.segment 1, 0x400000#64) := by
  rw [sharing_pages, lastSlot]
  exact List.find?_cons_of_pos (decide_eq_true rfl)

/-- Behind both of them, the second frame has what it had before. -/
theorem sharing_stale : ∃ entry s',
    (sharing.elfLoad sharingStart.2 sharingStart.1).val = some (entry, s') ∧
      (sharing.segment 1, 0x400000#64) ∈ sharing.pages ∧
      Kernel.pageOf 0x400010#64 = 0x400000#64 ∧ ∃ mem mem',
        sharing.bytesAfter (sharing.elfLoad sharingStart.2 sharingStart.1).log mem
            (s'.pmapExtract sharingStart.1 0x400010#64) ≠
          sharing.bytesAfter (sharing.elfLoad sharingStart.2 sharingStart.1).log mem'
            (s'.pmapExtract sharingStart.1 0x400010#64) := by
  obtain ⟨entry, s', hload⟩ := exists_elfLoad_sharing
  have hmem : (sharing.segment 1, 0x400000#64) ∈ sharing.pages := by
    rw [sharing_pages]
    exact List.mem_cons_of_mem _ (List.mem_singleton_self _)
  -- the address is in the page of the second segment, but in none of its bytes
  have hout : ¬ ((sharing.segment 1).vaddr + (sharing.segment 1).filesz ≤ 0x400010#64 ∧
      0x400010#64 < (sharing.segment 1).vaddr + (sharing.segment 1).memsz ∨
      (sharing.segment 1).vaddr ≤ 0x400010#64 ∧
        0x400010#64 < (sharing.segment 1).vaddr + (sharing.segment 1).filesz) := by
    decide +kernel
  refine ⟨entry, s', hload, hmem, by decide, fun _ => 0, fun _ => 1, ?_⟩
  rw [sharing_free.bytes sharing_wf rfl hload hmem sharing_last (by decide),
    sharing_free.bytes sharing_wf rfl hload hmem sharing_last (by decide),
    Segment.byteAt_of_not_mem hout, Segment.byteAt_of_not_mem hout]
  decide

/-- Each of the pages is covered by its last segment iff there is no such byte. -/
theorem elfLoad_stale_free_iff_sharing : ∃ entry s',
    (sharing.elfLoad sharingStart.2 sharingStart.1).val = some (entry, s') ∧
      ((∀ q ∈ sharing.pages, ∀ x, Kernel.pageOf x = q.2 →
        (∀ mem mem', sharing.bytesAfter (sharing.elfLoad sharingStart.2 sharingStart.1).log mem
            (s'.pmapExtract sharingStart.1 x) =
          sharing.bytesAfter (sharing.elfLoad sharingStart.2 sharingStart.1).log mem'
            (s'.pmapExtract sharingStart.1 x)) ∧
        ∀ mem, sharing.bytesAfter (sharing.elfLoad sharingStart.2 sharingStart.1).log mem
              (s'.pmapExtract sharingStart.1 x) = 0 ∨
          ∃ off, sharing.bytesAfter (sharing.elfLoad sharingStart.2 sharingStart.1).log mem
            (s'.pmapExtract sharingStart.1 x) = sharing.byte off) ↔
      ∀ q ∈ sharing.pages, lastSlot sharing.pages q.2 = some q → q.1.Tiles q.2) := by
  obtain ⟨entry, s', hload⟩ := exists_elfLoad_sharing
  exact ⟨entry, s', hload, elfLoad_stale_free_iff sharing_wf rfl sharing_free hload⟩

end Sharing

/-! ### Segments that are there at the end

A page that two segments share is loaded twice, and the second load gets a new frame. The first
segment is intact when this happens to none of its pages. -/

/-- The entry is a `PT_LOAD` that is followed by another one. -/
def Image.Earlier (img : Image) (i : ℕ) : Prop :=
  img.type i = ptLoad ∧ ∃ j, i < j ∧ j < img.phnum.toNat ∧ img.type j = ptLoad

/-- The segments that are followed by another one read as what the file has and zeros behind it, and
the frames are still mapped where they were. -/
structure Image.Intact {σ : Type} (img : Image) (root : Addr) (L : List PageLoad) (s' : PmState σ)
    (mem : Addr → BitVec 8) : Prop where
  bytes : ∀ i, img.Earlier i → ∀ k < (img.segment i).memsz.toNat,
    (Kernel.mmuTranslate s'.mem root ((img.segment i).vaddr + BitVec.ofNat 64 k)).map mem =
      some ((img.segment i).content img k)
  frames : ∀ l ∈ L, Kernel.mmuTranslate s'.mem root l.va = some l.frame

/-- No page is loaded twice, the hardware accepts all of them, and the segments that are followed by
another one end where they should. -/
structure Image.PagesApart (img : Image) : Prop where
  nodup : (img.pages.map Prod.snd).Nodup
  canonical : ∀ q ∈ img.pages, Kernel.canonical q.2 = true
  ends : ∀ i, img.Earlier i → (img.segment i).memsz ≠ 0 → (img.segment i).Ends
  /-- The end of the file's part wraps around only if that part is zero anyway. -/
  file : ∀ i, img.Earlier i → (img.segment i).memsz ≠ 0 →
    (img.segment i).vaddr.toNat + (img.segment i).filesz.toNat < 2 ^ 64 ∨
      ∀ k < (img.segment i).memsz.toNat, (img.segment i).content img k = 0

section Intact

variable {σ : Type} [PageAllocator σ] [LawfulPageAllocator σ] {img : Image}
  {F : Shape Addr (BitVec 9)} {root entry : Addr} {s s' : PmState σ} {L : List PageLoad}

/-- The hardware tells canonical addresses apart. -/
theorem pageOf_eq_of_path {x y : Addr} (hx : Kernel.canonical x = true)
    (hy : Kernel.canonical y = true) (hpath : PmState.path x = PmState.path y) :
    Kernel.pageOf x = Kernel.pageOf y := by
  rw [PmState.canonical_iff] at hx hy
  rw [path_eq_iff_mod] at hpath
  rw [← BitVec.toNat_inj, toNat_pageOf, toNat_pageOf]
  have := x.isLt
  have := y.isLt
  omega

/-- An address is canonical when its page is. -/
theorem canonical_pageOf {x : Addr} :
    Kernel.canonical (Kernel.pageOf x) = true ↔ Kernel.canonical x = true := by
  rw [PmState.canonical_iff, PmState.canonical_iff, toNat_pageOf]
  omega

/-- A segment that should reach the last page of the address space has a byte there. -/
theorem Segment.exists_last {ph : Segment} (hends : ¬ ph.Ends) (hpos : ph.memsz ≠ 0) :
    ∃ k < ph.memsz.toNat, 2 ^ 64 - 4096 ≤ (ph.vaddr + BitVec.ofNat 64 k).toNat := by
  have hpos' : 0 < ph.memsz.toNat :=
    Nat.pos_of_ne_zero fun hzero => hpos (BitVec.eq_of_toNat_eq hzero)
  have hv := ph.vaddr.isLt
  unfold Ends at hends
  refine ⟨min (ph.memsz.toNat - 1) (2 ^ 64 - 1 - ph.vaddr.toNat), by omega, ?_⟩
  rw [BitVec.toNat_add, BitVec.toNat_ofNat, Nat.mod_eq_of_lt (by omega : min _ _ < 2 ^ 64),
    Nat.mod_eq_of_lt (by omega)]
  omega

/-- The pages of an earlier segment are pages of the image. -/
theorem Image.Earlier.mem_pages {i : ℕ} (h : img.Earlier i) {va : Addr}
    (hva : va ∈ (img.segment i).pages) : (img.segment i, va) ∈ img.pages := by
  obtain ⟨htype, j, hij, hj, -⟩ := h
  refine List.mem_flatMap.mpr ⟨i, List.mem_range.mpr (hij.trans hj), ?_⟩
  rw [Image.pagesOf, if_pos htype]
  exact List.mem_map_of_mem hva

/-- Each byte of a segment that ends where it should is on one of its pages. -/
theorem Image.Earlier.pageOf_mem {i k : ℕ} (h : img.Earlier i) (hends : (img.segment i).Ends)
    (hk : k < (img.segment i).memsz.toNat) :
    (img.segment i, Kernel.pageOf ((img.segment i).vaddr + BitVec.ofNat 64 k)) ∈ img.pages :=
  h.mem_pages (Segment.Ends.pageOf_mem_pages hends hk)

/-- Nothing is mapped yet at the addresses of the segments, nor where pages are to be loaded. -/
structure Image.Unmapped {σ : Type} (img : Image) (F : Shape Addr (BitVec 9)) (s : PmState σ)
    (root : Addr) : Prop where
  pages : img.Free F s root
  bytes : ∀ i < img.phnum.toNat, img.type i = ptLoad → ∀ k < (img.segment i).memsz.toNat,
    pml4Index ((img.segment i).vaddr + BitVec.ofNat 64 k) ∈ F.top ∧
      s.leaf root ((img.segment i).vaddr + BitVec.ofNat 64 k) = none

section Result

variable (hwf : s.Wf F) (hroot : root ∈ F.roots) (hfree : img.Unmapped F s root)
  (hload : (img.elfLoad s root).val = some (entry, s')) (hloads : Loads root s L s')
  (hL : L.map PageLoad.page = img.pages) (mem : Addr → BitVec 8)

include hL in
/-- Every page of the image has a record of its loading. -/
theorem exists_load {ph : Segment} {va : Addr} (hmem : (ph, va) ∈ img.pages) :
    ∃ l ∈ L, l.ph = ph ∧ l.va = va := by
  rw [← hL] at hmem
  obtain ⟨l, hl, hpage⟩ := List.mem_map.mp hmem
  obtain ⟨hph, hva⟩ := Prod.mk.inj hpage
  exact ⟨l, hl, hph, hva⟩

include hL in
/-- Pages at different canonical addresses have different paths. -/
theorem distinct_of_nodup (hnodup : (img.pages.map Prod.snd).Nodup)
    (hcanonical : ∀ q ∈ img.pages, Kernel.canonical q.2 = true) :
    L.Pairwise fun l₁ l₂ => PmState.path l₁.va ≠ PmState.path l₂.va := by
  rw [← hL, List.map_map, List.Nodup, List.pairwise_map] at hnodup
  refine hnodup.imp_of_mem fun {l₁ l₂} hl₁ hl₂ hne hpath => hne ?_
  have hpage₁ : l₁.page ∈ img.pages := hL ▸ List.mem_map_of_mem hl₁
  have hpage₂ : l₂.page ∈ img.pages := hL ▸ List.mem_map_of_mem hl₂
  have hva : ∀ l : PageLoad, l.page ∈ img.pages → Kernel.pageOf l.va = l.va := fun l hl =>
    (pageOf_eq_iff (Image.mem_pages hl).1).mpr ⟨Nat.le_refl _, Nat.lt_add_of_pos_right (by decide)⟩
  have heq := pageOf_eq_of_path (hcanonical _ hpage₁) (hcanonical _ hpage₂) hpath
  exact ((hva l₁ hpage₁).symm.trans heq).trans (hva l₂ hpage₂)

include hwf hroot hfree hload hloads hL

/-- Where no page is loaded twice, each one is where it was mapped. -/
theorem mmuTranslate_of_distinct
    (hdistinct : L.Pairwise fun l₁ l₂ => PmState.path l₁.va ≠ PmState.path l₂.va) {l : PageLoad}
    (hl : l ∈ L) {x : Addr} (hx : Kernel.pageOf x = l.va) (hcanonical : Kernel.canonical x = true) :
    Kernel.mmuTranslate s'.mem root x = some (l.frame + (x &&& 0xFFF#64)) ∧
      (Kernel.mmuTranslate s'.mem root x).map (img.bytesAfter (img.elfLoad s root).log mem) =
        some (l.ph.byteAt img (mem (s'.pmapExtract root x)) x) := by
  have hpage : l.page ∈ img.pages := hL ▸ List.mem_map_of_mem hl
  have hloaded := hfree.pages.loaded hwf hroot hloads hL
  have hpath : PmState.path l.va = PmState.path x := by rw [← hx, path_pageOf]
  -- no other page has the same slots, so that no later load replaces this one
  have hlast : ∀ y, PmState.path l.va = PmState.path y → lastFor L y = some l :=
    fun y hy => lastFor_eq_some hdistinct hl hy
  obtain ⟨-, hmmu⟩ := hloaded.extract hroot (hfree.pages.top hpage hx) hl (hlast x hpath)
  have hslot : lastSlot img.pages l.page.2 = some l.page := by
    rw [← hL, lastSlot_map_page, hlast l.page.2 rfl]
    rfl
  exact ⟨hmmu hcanonical,
    hfree.pages.mmuTranslate_bytes hwf hroot hload hpage hslot hx hcanonical mem⟩

/-- If all is intact, the pages are apart. -/
theorem Image.Intact.pagesApart
    (h : img.Intact root L s' (img.bytesAfter (img.elfLoad s root).log mem)) : img.PagesApart := by
  have hloaded := hfree.pages.loaded hwf hroot hloads hL
  have hcanonical : ∀ q ∈ img.pages, Kernel.canonical q.2 = true := by
    intro q hq
    rw [← hL] at hq
    obtain ⟨l, hl, rfl⟩ := List.mem_map.mp hq
    by_contra hnot
    rw [Bool.not_eq_true] at hnot
    have hsome : Kernel.mmuTranslate s'.mem root l.page.2 = some l.frame := h.frames l hl
    rw [PmState.mmuTranslate_of_not_canonical hnot] at hsome
    cases hsome
  have hnodup : (img.pages.map Prod.snd).Nodup := by
    -- the frame of a page can be read off from its address
    have hframes : (L.map PageLoad.va).map (Kernel.mmuTranslate s'.mem root) =
        (L.map PageLoad.frame).map some := by
      rw [List.map_map, List.map_map]
      exact List.map_congr_left h.frames
    have hsome := hloaded.nodup.map (Option.some_injective Addr)
    rw [← hframes] at hsome
    rw [← hL, List.map_map]
    exact hsome.of_map _
  have hends : ∀ i, img.Earlier i → (img.segment i).memsz ≠ 0 → (img.segment i).Ends := by
    intro i hi hpos
    by_contra hnot
    obtain ⟨k, hk, hlast⟩ := Segment.exists_last hnot hpos
    obtain ⟨htype, j, hij, hj, -⟩ := id hi
    have hx := hfree.bytes i (hij.trans hj) htype k hk
    -- no page of the list is the last page of the address space
    have hnone : lastFor L ((img.segment i).vaddr + BitVec.ofNat 64 k) = none := by
      apply lastFor_eq_none_iff.mpr
      intro l hl hpath
      have hpage : l.page ∈ img.pages := hL ▸ List.mem_map_of_mem hl
      have hwrap : l.va.toNat + 4096 < 2 ^ 64 := (Image.mem_pages hpage).2
      have hva : Kernel.canonical l.va = true := hcanonical l.page hpage
      rw [PmState.canonical_iff] at hva
      rw [path_eq_iff_mod] at hpath
      have := ((img.segment i).vaddr + BitVec.ofNat 64 k).isLt
      omega
    have hbyte := h.bytes i hi k hk
    rw [hloaded.mmuTranslate_eq_none hroot hx.1 hx.2 hnone] at hbyte
    cases hbyte
  refine ⟨hnodup, hcanonical, hends, fun i hi hpos => ?_⟩
  by_contra hnot
  push Not at hnot
  obtain ⟨hwrap, k, hk, hne⟩ := hnot
  -- the byte is on a page of its segment, so that it reads as zero
  have hmem := hi.pageOf_mem (hends i hi hpos) hk
  obtain ⟨l, hl, hph, hva⟩ := exists_load hL hmem
  have hx : Kernel.canonical ((img.segment i).vaddr + BitVec.ofNat 64 k) = true :=
    canonical_pageOf.mp (hcanonical (_, _) hmem)
  have hread := (mmuTranslate_of_distinct hwf hroot hfree hload hloads hL mem
    (distinct_of_nodup hL hnodup hcanonical) hl hva.symm hx).2
  rw [h.bytes i hi k hk, hph, (hends i hi hpos).byteAt hk, if_neg (by omega)] at hread
  exact hne (Option.some.inj hread)

/-- If the pages are apart, all is intact. -/
theorem Image.PagesApart.intact (h : img.PagesApart) :
    img.Intact root L s' (img.bytesAfter (img.elfLoad s root).log mem) := by
  have hdistinct := distinct_of_nodup hL h.nodup h.canonical
  constructor
  · intro i hi k hk
    have hpos : (img.segment i).memsz ≠ 0 := fun hzero => by
      rw [hzero] at hk
      exact absurd hk (Nat.not_lt_zero k)
    have hends := h.ends i hi hpos
    have hmem := hi.pageOf_mem hends hk
    obtain ⟨l, hl, hph, hva⟩ := exists_load hL hmem
    have hx : Kernel.canonical ((img.segment i).vaddr + BitVec.ofNat 64 k) = true :=
      canonical_pageOf.mp (h.canonical (_, _) hmem)
    rw [(mmuTranslate_of_distinct hwf hroot hfree hload hloads hL mem hdistinct hl hva.symm hx).2,
      hph, hends.byteAt hk]
    -- past the end of the file the byte is zero, as the condition says
    split
    case isTrue => rfl
    case isFalse hwrap =>
      rw [((h.file i hi hpos).resolve_left hwrap) k hk]
  · intro l hl
    have hpage : l.page ∈ img.pages := hL ▸ List.mem_map_of_mem hl
    have hva := Image.mem_pages hpage
    have hself : Kernel.pageOf l.va = l.va :=
      (pageOf_eq_iff hva.1).mpr ⟨Nat.le_refl _, Nat.lt_add_of_pos_right (by decide)⟩
    have hoff : l.va &&& 0xFFF#64 = 0#64 := by
      have hzero := isPage_iff.mp hva.1
      apply BitVec.eq_of_toNat_eq
      rw [Word.toNat_and_low (w := 12) (by decide)]
      exact hzero
    -- the first byte of the page is mapped to the first byte of its frame
    have hmmu := (mmuTranslate_of_distinct hwf hroot hfree hload hloads hL mem hdistinct hl hself
      (h.canonical l.page hpage)).1
    rwa [hoff, BitVec.add_zero] at hmmu

end Result

/-- After `elf_load` has returned `0`, the segments that are followed by another one read as their
bytes, and each frame is mapped where it was, iff no two loaded pages are the same one. -/
theorem elfLoad_intact_iff (hwf : s.Wf F) (hroot : root ∈ F.roots) (hfree : img.Unmapped F s root)
    (hload : (img.elfLoad s root).val = some (entry, s')) (mem : Addr → BitVec 8) :
    ∃ L, Loads root s L s' ∧ L.map PageLoad.page = img.pages ∧
      (img.Intact root L s' (img.bytesAfter (img.elfLoad s root).log mem) ↔ img.PagesApart) := by
  obtain ⟨L, hloads, hL, -⟩ := Image.exists_loads_of_elfLoad hload
  exact ⟨L, hloads, hL, fun h => h.pagesApart hwf hroot hfree hload hloads hL mem,
    fun h => h.intact hwf hroot hfree hload hloads hL mem⟩

end Intact

section Sharing

/-- In the example no page of the image is mapped at the start. -/
theorem sharing_unmapped :
    sharing.Unmapped (forest {sharingStart.1} userTop) sharingStart.2 sharingStart.1 := by
  refine ⟨sharing_free, fun i hi _ k hk => ?_⟩
  have hphnum : sharing.phnum.toNat = 2 := by decide +kernel
  have hbytes : ∀ i < 2, ∀ k < (sharing.segment i).memsz.toNat,
      ((sharing.segment i).vaddr + BitVec.ofNat 64 k).toNat < 2 ^ 47 := by decide +kernel
  rw [hphnum] at hi
  exact ⟨pml4Index_mem_userTop (hbytes i hi k hk), leaf_pmapCreate _ _ (hbytes i hi k hk)⟩

/-- The second segment hides the first one, which reads as the old contents of the second frame. -/
theorem sharing_hidden :
    (sharing.segment 0).vaddr.toNat + (sharing.segment 0).memsz.toNat ≤
        (sharing.segment 1).vaddr.toNat ∧
      sharing.Earlier 0 ∧ ∃ entry s',
        (sharing.elfLoad sharingStart.2 sharingStart.1).val = some (entry, s') ∧
        (Kernel.mmuTranslate s'.mem sharingStart.1
          ((sharing.segment 0).vaddr + BitVec.ofNat 64 0)).map
            (sharing.bytesAfter (sharing.elfLoad sharingStart.2 sharingStart.1).log fun _ => 0) ≠
          some ((sharing.segment 0).content sharing 0) ∧
        ∀ L, Loads sharingStart.1 sharingStart.2 L s' → L.map PageLoad.page = sharing.pages →
          ∀ mem, ¬ sharing.Intact sharingStart.1 L s'
            (sharing.bytesAfter (sharing.elfLoad sharingStart.2 sharingStart.1).log mem) := by
  obtain ⟨entry, s', hload⟩ := exists_elfLoad_sharing
  have hmem : (sharing.segment 1, 0x400000#64) ∈ sharing.pages := by
    rw [sharing_pages]
    exact List.mem_cons_of_mem _ (List.mem_singleton_self _)
  have haddr : (sharing.segment 0).vaddr + BitVec.ofNat 64 0 = 0x400000#64 := by decide +kernel
  -- the page of the second segment, loaded last, has a zero there
  have hout : ¬ ((sharing.segment 1).vaddr + (sharing.segment 1).filesz ≤ 0x400000#64 ∧
      0x400000#64 < (sharing.segment 1).vaddr + (sharing.segment 1).memsz ∨
      (sharing.segment 1).vaddr ≤ 0x400000#64 ∧
        0x400000#64 < (sharing.segment 1).vaddr + (sharing.segment 1).filesz) := by
    decide +kernel
  have hbyte : (sharing.segment 0).content sharing 0 = 1 := by decide +kernel
  refine ⟨by decide +kernel, ⟨by decide +kernel, 1, by decide +kernel⟩, entry, s', hload, ?_,
    fun L hloads hL mem h => ?_⟩
  · rw [haddr, hbyte, sharing_free.mmuTranslate_bytes sharing_wf rfl hload hmem sharing_last
      (by decide) (by decide), Segment.byteAt_of_not_mem hout]
    decide
  · have hapart := h.pagesApart sharing_wf rfl sharing_unmapped hload hloads hL mem
    have hnodup := hapart.nodup
    rw [sharing_pages] at hnodup
    exact absurd hnodup (by decide)

/-- The two pages are one. -/
theorem elfLoad_intact_iff_sharing : ∃ entry s',
    (sharing.elfLoad sharingStart.2 sharingStart.1).val = some (entry, s') ∧
      ∃ L, Loads sharingStart.1 sharingStart.2 L s' ∧ L.map PageLoad.page = sharing.pages ∧
        (sharing.Intact sharingStart.1 L s'
          (sharing.bytesAfter (sharing.elfLoad sharingStart.2 sharingStart.1).log fun _ => 0) ↔
            sharing.PagesApart) := by
  obtain ⟨entry, s', hload⟩ := exists_elfLoad_sharing
  exact ⟨entry, s', hload, elfLoad_intact_iff sharing_wf rfl sharing_unmapped hload fun _ => 0⟩

end Sharing

end Koharu
