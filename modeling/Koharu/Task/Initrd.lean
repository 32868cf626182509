import Koharu.Arch.PmapRefinement
import Koharu.Boot.DirectMap
import Koharu.Task.Syscall

/-!
# The initrd of the root server

`rootserver_boot` maps the initrd, which may begin anywhere in a page. `pmap_map` rounds its start
down to a page, and the length that it is given is the size rounded up to pages. When the offset in
the first page and the size together need one page more than the size alone, the last page is left
out (`initrd_visible_iff`).
-/

namespace Koharu

open Radix

/-- `ROOT_INITRD_VA`. -/
def rootInitrdVa : Addr := 0x700030000000#64

/-- `initrd_info_t`. -/
structure InitrdInfo where
  addr : Addr
  size : BitVec 64

/-- `initrd_phys`. -/
def InitrdInfo.phys (initrd : InitrdInfo) : Addr := initrd.addr - hhdmOffset

namespace PmState

variable {σ : Type*} [PageAllocator σ]

/-- What `rootserver_boot` does about the initrd, and what it tells the root server. Boot stops when
it cannot be mapped. -/
def bootInitrd (fuel : ℕ) (s : PmState σ) (root : Addr) (initrd : InitrdInfo) :
    Option (InitrdInfo × PmState σ) :=
  if initrd.size = 0 then some (⟨0, 0⟩, s)
  else
    match s.pmapMap fuel root rootInitrdVa initrd.phys ((initrd.size + 0xFFF#64) &&& ~~~0xFFF#64)
      (protRead ||| protUser) with
    | some (true, s) => some (⟨rootInitrdVa + (initrd.phys &&& 0xFFF#64), initrd.size⟩, s)
    | _ => none

/-! ### The hardware's translation

What user code reads goes through the page tables as the hardware walks them, which agrees with
`pmap_extract` on canonical addresses. -/

/-- The page tables lead to physical addresses of 52 bits. -/
theorem mmuTranslate_lt {mem : Addr → BitVec 9 → Entry} {root va phys : Addr}
    (h : Kernel.mmuTranslate mem root va = some phys) : phys.toNat < 2 ^ 52 := by
  simp only [Kernel.mmuTranslate] at h
  split at h
  · cases h
  -- each kind of leaf gives a base below `2 ^ 52` and an offset inside its page
  split at h
  · cases h
    rw [BitVec.toNat_add, Word.toNat_and_mask (a := 30) (w := 22) (by decide),
      Word.toNat_and_low (w := 30) (by decide)]
    omega
  split at h
  · cases h
  split at h
  · cases h
    rw [BitVec.toNat_add, Word.toNat_and_mask (a := 21) (w := 31) (by decide),
      Word.toNat_and_low (w := 21) (by decide)]
    omega
  split at h
  · cases h
  · cases h
    rw [Entry.addr, BitVec.toNat_add, Word.toNat_and_mask (a := 12) (w := 40) (by decide),
      Word.toNat_and_low (w := 12) (by decide)]
    omega

theorem mmuTranslate_of_not_canonical {mem : Addr → BitVec 9 → Entry} {root va : Addr}
    (h : Kernel.canonical va = false) : Kernel.mmuTranslate mem root va = none := by
  unfold Kernel.mmuTranslate
  simp [h]

section Walk

variable [LawfulPageAllocator σ] {s : PmState σ} {F : Shape Addr (BitVec 9)} {root va : Addr}
  (h : s.Wf F) (hr : root ∈ F.roots) (hva : pml4Index va ∈ F.top)

include h hr hva

/-- For an address that the hardware accepts, it finds what `pmap_extract` finds. -/
theorem Wf.mmuTranslate_eq (hcanonical : Kernel.canonical va = true) :
    Kernel.mmuTranslate s.mem root va =
      (s.leaf root va).map fun _ => s.pmapExtract root va := by
  have hhuge₄ := h.upper root [] root (pml4Index va) (h.has_path hr hva _ ⟨_, rfl, by simp⟩)
    (by simp) rfl
  by_cases hpresent₄ : (s.mem root (pml4Index va)).present = true
  swap
  · rw [Bool.not_eq_true] at hpresent₄
    rw [leaf_of_table (π := []) rfl rfl, findFrom_of_not_present hpresent₄]
    simp [Kernel.mmuTranslate, hpresent₄]
  have hpdpt : s.table root [pml4Index va] = some (s.mem root (pml4Index va)).addr :=
    (s.table_snoc root [] _).trans (Entry.child_eq_some hpresent₄ hhuge₄)
  obtain ⟨pdpt, haddr₄⟩ : ∃ pdpt, (s.mem root (pml4Index va)).addr = pdpt := ⟨_, rfl⟩
  rw [haddr₄] at hpdpt
  have hhuge₃ := h.upper root [pml4Index va] pdpt (pdptIndex va)
    (h.has_path hr hva _ ⟨_, rfl, by simp⟩) (by simp) hpdpt
  by_cases hpresent₃ : (s.mem pdpt (pdptIndex va)).present = true
  swap
  · rw [Bool.not_eq_true] at hpresent₃
    rw [leaf_of_table hpdpt rfl, findFrom_of_not_present hpresent₃]
    simp [Kernel.mmuTranslate, haddr₄, hpresent₃]
  have hpd : s.table root [pml4Index va, pdptIndex va] = some (s.mem pdpt (pdptIndex va)).addr := by
    apply (s.table_snoc root [pml4Index va] _).trans
    rw [hpdpt]
    exact Entry.child_eq_some hpresent₃ hhuge₃
  obtain ⟨pd, haddr₃⟩ : ∃ pd, (s.mem pdpt (pdptIndex va)).addr = pd := ⟨_, rfl⟩
  rw [haddr₃] at hpd
  by_cases hpresent₂ : (s.mem pd (pdIndex va)).present = true
  swap
  · rw [Bool.not_eq_true] at hpresent₂
    rw [leaf_of_table hpd rfl, findFrom_of_not_present hpresent₂]
    simp [Kernel.mmuTranslate, haddr₄, hhuge₃, haddr₃, hpresent₂]
  by_cases hhuge₂ : (s.mem pd (pdIndex va)).huge = true
  · rw [leaf_of_table hpd rfl]
    simp [Kernel.mmuTranslate, pmapExtract, findFrom, found, Entry.child_of_huge hhuge₂, hcanonical,
      hpresent₄, haddr₄, hpresent₃, hhuge₃, haddr₃, hpresent₂, hhuge₂]
  rw [Bool.not_eq_true] at hhuge₂
  obtain ⟨pt, haddr₂⟩ : ∃ pt, (s.mem pd (pdIndex va)).addr = pt := ⟨_, rfl⟩
  have hpt : s.table root [pml4Index va, pdptIndex va, pdIndex va] = some pt := by
    apply (s.table_snoc root [pml4Index va, pdptIndex va] _).trans
    rw [hpd, ← haddr₂]
    exact Entry.child_eq_some hpresent₂ hhuge₂
  -- both walks end at the same entry
  rw [leaf_of_table hpt rfl]
  by_cases hpresent₁ : (s.mem pt (ptIndex va)).present = true
  · simp [Kernel.mmuTranslate, pmapExtract, findFrom, found, hcanonical, hpresent₄, haddr₄,
      hpresent₃, hhuge₃, haddr₃, hpresent₂, hhuge₂, haddr₂, hpresent₁]
    rfl
  · rw [Bool.not_eq_true] at hpresent₁
    rw [findFrom_of_not_present hpresent₁]
    simp [Kernel.mmuTranslate, haddr₄, hhuge₃, haddr₃, hhuge₂, haddr₂, hpresent₁]

end Walk

section Represented

variable [LawfulPageAllocator σ] {s s' : PmState σ} {root : Addr} {m : AddressSpace}

/-- The hardware looks the map up. -/
theorem Represents.mmuTranslate (h : s.Represents root m) {va : Addr} (hva : va.toNat < 2 ^ 47) :
    Kernel.mmuTranslate s.mem root va =
      (m (va.toNat / 4096)).map fun frame : BitVec 40 =>
        (frame.setWidth 64 <<< 12 + (va &&& 0xFFF#64) : Addr) := by
  rw [h.wf.mmuTranslate_eq rfl (pml4Index_mem_userTop hva) (canonical_of_toNat (Or.inl hva)),
    h.extract hva, AddressSpace.extract]
  have hmaps := h.maps va hva
  -- the walk finds a leaf exactly where the map has a frame
  cases hleaf : s.leaf root va with
  | none =>
      cases hm : m (va.toNat / 4096) with
      | none => rfl
      | some frame => simp [Maps, hleaf, hm] at hmaps
  | some x =>
      cases hm : m (va.toNat / 4096) with
      | none => simp [Maps, hleaf, hm] at hmaps
      | some frame => rfl

end Represented

end PmState

/-! ### What the root server sees

The kernel maps whole pages from the rounded address on, and tells the root server where in them the
initrd begins. -/

/-- The number of bytes that are mapped. -/
def roundedUp (size : BitVec 64) : ℕ := (size.toNat + 4095) / 4096 * 4096

/-- All of the initrd has physical addresses and is in the user half of the root server, and either
the rounded size is enough for its offset in the first page, or the page behind was mapped to the
right frame before. -/
def InitrdVisible (m : AddressSpace) (phys size : Addr) : Prop :=
  phys.toNat + size.toNat ≤ 2 ^ 52 ∧
    rootInitrdVa.toNat + phys.toNat % 4096 + size.toNat ≤ 2 ^ 47 ∧
    (phys.toNat % 4096 + size.toNat ≤ roundedUp size ∨
      m ((rootInitrdVa.toNat + roundedUp size) / 4096) =
        some (BitVec.ofNat 40 ((phys.toNat + roundedUp size) / 4096)))

namespace PmState

variable {σ : Type*} [PageAllocator σ] [LawfulPageAllocator σ] {s s' : PmState σ} {root : Addr}
  {m : AddressSpace} {initrd told : InitrdInfo} {fuel : ℕ}

omit [LawfulPageAllocator σ] in
/-- What a successful boot has done. -/
theorem bootInitrd_cases (hsize : initrd.size ≠ 0)
    (h : s.bootInitrd fuel root initrd = some (told, s')) :
    s.pmapMap fuel root rootInitrdVa initrd.phys ((initrd.size + 0xFFF#64) &&& ~~~0xFFF#64)
        (protRead ||| protUser) = some (true, s') ∧
      told = ⟨rootInitrdVa + (initrd.phys &&& 0xFFF#64), initrd.size⟩ := by
  rw [bootInitrd, if_neg hsize] at h
  split at h
  next hmap =>
    cases h
    exact ⟨hmap, rfl⟩
  next => cases h

/-- The address of a byte of the initrd, as a number. -/
theorem toNat_told (hrange : rootInitrdVa.toNat + initrd.phys.toNat % 4096 + initrd.size.toNat ≤
    2 ^ 47) {k : ℕ} (hk : k < initrd.size.toNat) :
    (rootInitrdVa + (initrd.phys &&& 0xFFF#64) + BitVec.ofNat 64 k).toNat =
      rootInitrdVa.toNat + initrd.phys.toNat % 4096 + k := by
  rw [BitVec.toNat_add, BitVec.toNat_add, Word.toNat_and_low (w := 12) (by decide),
    BitVec.toNat_ofNat]
  omega

omit [PageAllocator σ] [LawfulPageAllocator σ] in
/-- The initrd has physical addresses, all of it, if it can be seen. -/
theorem phys_le_of_sees (h : ∀ k < initrd.size.toNat, Kernel.mmuTranslate s'.mem root
      (told.addr + BitVec.ofNat 64 k) = some (initrd.phys + BitVec.ofNat 64 k))
    (hsize : initrd.size ≠ 0) : initrd.phys.toNat + initrd.size.toNat ≤ 2 ^ 52 := by
  have hpos := pos_of_size_ne_zero hsize
  have hfirst := mmuTranslate_lt (h 0 hpos)
  rw [BitVec.toNat_add, BitVec.toNat_ofNat] at hfirst
  by_contra hlt
  have hlast := mmuTranslate_lt (h (2 ^ 52 - initrd.phys.toNat) (by omega))
  rw [BitVec.toNat_add, BitVec.toNat_ofNat] at hlast
  omega

omit [PageAllocator σ] [LawfulPageAllocator σ] in
/-- It is in the user half. -/
theorem range_of_sees (h : ∀ k < initrd.size.toNat, Kernel.mmuTranslate s'.mem root
      (rootInitrdVa + (initrd.phys &&& 0xFFF#64) + BitVec.ofNat 64 k) =
        some (initrd.phys + BitVec.ofNat 64 k)) :
    rootInitrdVa.toNat + initrd.phys.toNat % 4096 + initrd.size.toNat ≤ 2 ^ 47 := by
  have hva : rootInitrdVa.toNat = 0x700030000000 := rfl
  by_contra hlt
  obtain ⟨k, hk⟩ : ∃ k, rootInitrdVa.toNat + initrd.phys.toNat % 4096 + k = 2 ^ 47 :=
    ⟨2 ^ 47 - (rootInitrdVa.toNat + initrd.phys.toNat % 4096), by omega⟩
  have hedge : rootInitrdVa + (initrd.phys &&& 0xFFF#64) + BitVec.ofNat 64 k =
    0x800000000000#64 := by
    apply BitVec.eq_of_toNat_eq
    rw [BitVec.toNat_add, BitVec.toNat_add, Word.toNat_and_low (w := 12) (by decide),
      BitVec.toNat_ofNat]
    have hedge : (0x800000000000#64).toNat = 2 ^ 47 := rfl
    omega
  -- the first address behind the user half is not one for the hardware
  have hnone := h k (by omega)
  rw [hedge, mmuTranslate_of_not_canonical (by decide)] at hnone
  cases hnone

/-- The frame that holds an address, put together with its offset. -/
theorem toNat_frame {frame : BitVec 40} {va : Addr} :
    ((frame.setWidth 64 <<< 12 + (va &&& 0xFFF#64) : Addr)).toNat =
      frame.toNat * 4096 + va.toNat % 4096 := by
  rw [BitVec.toNat_add, BitVec.toNat_shiftLeft, BitVec.toNat_setWidth,
    Word.toNat_and_low (w := 12) (by decide), Nat.shiftLeft_eq]
  have := frame.isLt
  omega

/-- An address is translated to `phys` iff its page is mapped to the frame of `phys`. -/
theorem Represents.mmuTranslate_eq_some_iff (h : s.Represents root m) {va phys : Addr}
    (hva : va.toNat < 2 ^ 47) (hphys : phys.toNat < 2 ^ 52)
    (hoffset : va.toNat % 4096 = phys.toNat % 4096) :
    Kernel.mmuTranslate s.mem root va = some phys ↔
      m (va.toNat / 4096) = some (BitVec.ofNat 40 (phys.toNat / 4096)) := by
  rw [h.mmuTranslate hva, Option.map_eq_some_iff]
  -- the offsets agree, so that the frame decides
  constructor
  · rintro ⟨frame, hm, rfl⟩
    rw [hm, Option.some.injEq]
    apply BitVec.eq_of_toNat_eq
    rw [BitVec.toNat_ofNat, toNat_frame]
    have := frame.isLt
    omega
  · intro hm
    refine ⟨_, hm, BitVec.eq_of_toNat_eq ?_⟩
    rw [toNat_frame, BitVec.toNat_ofNat]
    omega

end PmState

/-- The pages that `pmap_map` is asked for are those of the first bytes of the initrd. -/
theorem map_initrd_inside (m : AddressSpace) {base phys size k : ℕ} (hbase : base % 4096 = 0)
    (hsize : size % 4096 = 0) (hk : phys % 4096 + k < size) :
    m.map base phys size ((base + phys % 4096 + k) / 4096) =
      some (BitVec.ofNat 40 ((phys + k) / 4096)) := by
  have hframe : phys / 4096 + ((base + phys % 4096 + k) / 4096 - base / 4096) =
    (phys + k) / 4096 := by
    omega
  rw [AddressSpace.map, if_pos (by rw [Covers]; omega), hframe]

/-- The bytes behind them are in the next page, for which nothing changes. -/
theorem map_initrd_behind (m : AddressSpace) {base phys size k : ℕ} (hbase : base % 4096 = 0)
    (hsize : size % 4096 = 0) (hge : size ≤ phys % 4096 + k) (hlt : phys % 4096 + k < size + 4096) :
    m.map base phys size ((base + phys % 4096 + k) / 4096) =
        some (BitVec.ofNat 40 ((phys + k) / 4096)) ↔
      m ((base + size) / 4096) = some (BitVec.ofNat 40 ((phys + size) / 4096)) := by
  have hpage : (base + phys % 4096 + k) / 4096 = (base + size) / 4096 := by omega
  have hframe : (phys + k) / 4096 = (phys + size) / 4096 := by omega
  rw [AddressSpace.map, if_neg (by rw [Covers]; omega), hpage, hframe]

namespace PmState

variable {σ : Type*} [PageAllocator σ] [LawfulPageAllocator σ] {s s' : PmState σ} {root : Addr}
  {m : AddressSpace} {initrd told : InitrdInfo} {fuel : ℕ}

/-- The bytes that are seen, for an initrd that is within bounds. -/
theorem sees_iff (h : s.Represents root m) (hsize : initrd.size ≠ 0)
    (hboot : s.bootInitrd fuel root initrd = some (told, s'))
    (hphys : initrd.phys.toNat + initrd.size.toNat ≤ 2 ^ 52)
    (hrange : rootInitrdVa.toNat + initrd.phys.toNat % 4096 + initrd.size.toNat ≤ 2 ^ 47) {k : ℕ}
    (hk : k < initrd.size.toNat) :
    Kernel.mmuTranslate s'.mem root (told.addr + BitVec.ofNat 64 k) =
        some (initrd.phys + BitVec.ofNat 64 k) ↔
      initrd.phys.toNat % 4096 + k < roundedUp initrd.size ∨
        m ((rootInitrdVa.toNat + roundedUp initrd.size) / 4096) =
          some (BitVec.ofNat 40 ((initrd.phys.toNat + roundedUp initrd.size) / 4096)) := by
  obtain ⟨hmap, rfl⟩ := bootInitrd_cases hsize hboot
  have hbase : rootInitrdVa.toNat % 4096 = 0 := rfl
  have hup : roundedUp initrd.size = (initrd.size.toNat + 4095) / 4096 * 4096 := rfl
  have hround : ((initrd.size + 0xFFF#64) &&& ~~~0xFFF#64).toNat = roundedUp initrd.size := by
    rw [toNat_roundDown, BitVec.toNat_add, hup]
    have : (0xFFF#64).toNat = 4095 := rfl
    omega
  have hrep := h.pmapMap (by rw [hround]; omega) (by decide) hmap
  rw [hround] at hrep
  have htold := toNat_told hrange hk
  have hbyte : (initrd.phys + BitVec.ofNat 64 k).toNat = initrd.phys.toNat + k := by
    rw [BitVec.toNat_add, BitVec.toNat_ofNat]
    omega
  dsimp only
  rw [hrep.mmuTranslate_eq_some_iff (by omega) (by omega) (by omega), htold, hbyte]
  -- the byte is on a page that was mapped, or on the one behind them
  rcases Nat.lt_or_ge (initrd.phys.toNat % 4096 + k) (roundedUp initrd.size) with hlt | hge
  · rw [map_initrd_inside m hbase (by omega) hlt]
    exact iff_of_true rfl (Or.inl hlt)
  · rw [map_initrd_behind m hbase (by omega) hge (by omega), or_iff_right (by omega)]

/-- The root server sees its initrd iff the pages that are mapped are enough for it. -/
theorem initrd_visible_iff (h : s.Represents root m) (hsize : initrd.size ≠ 0)
    (hboot : s.bootInitrd fuel root initrd = some (told, s')) :
    (∀ k < initrd.size.toNat, Kernel.mmuTranslate s'.mem root (told.addr + BitVec.ofNat 64 k) =
        some (initrd.phys + BitVec.ofNat 64 k)) ↔ InitrdVisible m initrd.phys initrd.size := by
  have hup : roundedUp initrd.size = (initrd.size.toNat + 4095) / 4096 * 4096 := rfl
  have hpos := pos_of_size_ne_zero hsize
  constructor
  · intro hsees
    have hphys := phys_le_of_sees hsees hsize
    have hrange : rootInitrdVa.toNat + initrd.phys.toNat % 4096 + initrd.size.toNat ≤ 2 ^ 47 := by
      obtain ⟨-, htold⟩ := bootInitrd_cases hsize hboot
      exact range_of_sees fun k hk => htold ▸ hsees k hk
    refine ⟨hphys, hrange, ?_⟩
    -- the last byte is in the last page
    rcases (sees_iff h hsize hboot hphys hrange (by omega)).mp
      (hsees (initrd.size.toNat - 1) (by omega)) with hlt | hbehind
    · exact Or.inl (by omega)
    · exact Or.inr hbehind
  · rintro ⟨hphys, hrange, hlast⟩ k hk
    rw [sees_iff h hsize hboot hphys hrange hk]
    exact hlast.imp_left fun hshort => by omega

/-- An initrd of less than a page that begins where a page does. -/
theorem initrd_visible_iff_aligned : ∃ told s',
    (blank.pmapCreate 0x80000#64).2.bootInitrd 2 (blank.pmapCreate 0x80000#64).1
      ⟨hhdmOffset + 0x500000#64, 0x800#64⟩ = some (told, s') ∧
    ∀ k < (0x800#64).toNat, Kernel.mmuTranslate s'.mem (blank.pmapCreate 0x80000#64).1
      (told.addr + BitVec.ofNat 64 k) =
        some (InitrdInfo.phys ⟨hhdmOffset + 0x500000#64, 0x800#64⟩ + BitVec.ofNat 64 k) := by
  have hcheck : ((blank.pmapCreate 0x80000#64).2.bootInitrd 2 (blank.pmapCreate 0x80000#64).1
      ⟨hhdmOffset + 0x500000#64, 0x800#64⟩).isSome = true := by decide +kernel
  obtain ⟨⟨told, s'⟩, hboot⟩ := Option.isSome_iff_exists.mp hcheck
  refine ⟨told, s', hboot, ?_⟩
  exact (initrd_visible_iff (represents_pmapCreate blank 0x80000#64) (by decide) hboot).mpr
    ⟨by decide, by decide, Or.inl (by decide)⟩

/-- An initrd of one page that begins in the middle of a page: its second half cannot be seen. -/
theorem initrd_cut_off : ∃ told s',
    (blank.pmapCreate 0x80000#64).2.bootInitrd 2 (blank.pmapCreate 0x80000#64).1
      ⟨hhdmOffset + 0x500800#64, 0x1000#64⟩ = some (told, s') ∧
    ¬ Kernel.mmuTranslate s'.mem (blank.pmapCreate 0x80000#64).1
      (told.addr + BitVec.ofNat 64 0x800) =
      some (InitrdInfo.phys ⟨hhdmOffset + 0x500800#64, 0x1000#64⟩ + BitVec.ofNat 64 0x800) := by
  have hcheck : ((blank.pmapCreate 0x80000#64).2.bootInitrd 2 (blank.pmapCreate 0x80000#64).1
      ⟨hhdmOffset + 0x500800#64, 0x1000#64⟩).isSome = true := by decide +kernel
  obtain ⟨⟨told, s'⟩, hboot⟩ := Option.isSome_iff_exists.mp hcheck
  refine ⟨told, s', hboot, ?_⟩
  rw [sees_iff (represents_pmapCreate blank 0x80000#64) (by decide) hboot (by decide) (by decide)
    (by decide)]
  rintro (hinside | hbehind)
  · exact absurd hinside (by decide)
  · cases hbehind

end PmState

end Koharu
