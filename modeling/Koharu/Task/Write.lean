import Koharu.Task.LoadMemory
import Koharu.Task.RangeLoops
import Koharu.Task.UserPointers

/-!
# What is printed

`SYS_WRITE` goes through its buffer page by page, and prints what it finds in the frame of each.
`Translates` is the translation that `pmap_extract` looks up, for any contents of the tables.

* `Translates.add`: within a page, the translation is a shift;
* `writeLoop_val`: the loop up to the end of the buffer, or up to an address that is not mapped;
* `sysWrite_prints_exactly`: each byte of the buffer is printed once, in order.
-/

namespace Koharu

open Radix Traced

/-- The tables map `va` to a physical address, by a page of 4 KiB or of 2 MiB. -/
inductive Translates (mem : Addr → BitVec 9 → Entry) (root va : Addr) : Addr → Prop
  | small {e₄ e₃ e₂ e₁ : Entry} (h₄ : mem root (pml4Index va) = e₄) (hp₄ : e₄.present = true)
      (h₃ : mem e₄.addr (pdptIndex va) = e₃) (hp₃ : e₃.present = true)
      (h₂ : mem e₃.addr (pdIndex va) = e₂) (hp₂ : e₂.present = true) (hsmall : e₂.huge = false)
      (h₁ : mem e₂.addr (ptIndex va) = e₁) (hp₁ : e₁.present = true) :
      Translates mem root va ((e₁ &&& pteAddrMask) + (va &&& 0xFFF#64))
  | huge {e₄ e₃ e₂ : Entry} (h₄ : mem root (pml4Index va) = e₄) (hp₄ : e₄.present = true)
      (h₃ : mem e₄.addr (pdptIndex va) = e₃) (hp₃ : e₃.present = true)
      (h₂ : mem e₃.addr (pdIndex va) = e₂) (hp₂ : e₂.present = true) (hhuge : e₂.huge = true) :
      Translates mem root va ((e₂ &&& pdAddrMask) + (va &&& 0x1FFFFF#64))

section Translates

variable {σ : Type} {s : PmState σ} {mem : Addr → BitVec 9 → Entry} {root va phys : Addr} {k : ℕ}

/-- `pmap_extract` gives the translation. -/
theorem Translates.pmapExtract (h : Translates s.mem root va phys) :
    s.pmapExtract root va = phys := by
  cases h with
  | small h₄ hp₄ h₃ hp₃ h₂ hp₂ hsmall h₁ hp₁ =>
      simp [PmState.pmapExtract, h₄, hp₄, h₃, hp₃, h₂, hp₂, hsmall, h₁, hp₁]
  | huge h₄ hp₄ h₃ hp₃ h₂ hp₂ hhuge =>
      simp [PmState.pmapExtract, h₄, hp₄, h₃, hp₃, h₂, hp₂, hhuge]

/-- An address that no page maps is reported as `0`. -/
theorem pmapExtract_of_not_translates (h : ∀ phys, ¬ Translates s.mem root va phys) :
    s.pmapExtract root va = 0 := by
  rw [PmState.pmapExtract]
  -- an address comes of a walk to an entry that is present, which is a translation
  by_contra hne
  split at hne
  case isTrue => exact hne rfl
  case isFalse hp₄ =>
    rw [Bool.not_eq_true, Bool.not_eq_false'] at hp₄
    dsimp only at hne
    split at hne
    case isTrue => exact hne rfl
    case isFalse hp₃ =>
      rw [Bool.not_eq_true, Bool.not_eq_false'] at hp₃
      split at hne
      case isTrue => exact hne rfl
      case isFalse hp₂ =>
        rw [Bool.not_eq_true, Bool.not_eq_false'] at hp₂
        split at hne
        case isTrue hhuge => exact h _ (.huge rfl hp₄ rfl hp₃ rfl hp₂ hhuge)
        case isFalse hsmall =>
          rw [Bool.not_eq_true] at hsmall
          split at hne
          case isTrue => exact hne rfl
          case isFalse hp₁ =>
            rw [Bool.not_eq_true, Bool.not_eq_false'] at hp₁
            exact h _ (.small rfl hp₄ rfl hp₃ rfl hp₂ hsmall rfl hp₁)

/-- Counting on within a page does not carry into the page number. -/
theorem pageOf_add (hk : va.toNat % 4096 + k < 4096) :
    Kernel.pageOf (va + BitVec.ofNat 64 k) = Kernel.pageOf va := by
  have hva := va.isLt
  rw [← BitVec.toNat_inj, toNat_pageOf, toNat_pageOf, BitVec.toNat_add, BitVec.toNat_ofNat]
  omega

/-- The offset under a mask grows with the address until it is used up. -/
theorem and_low_add {mask : BitVec 64} {w : ℕ} (hmask : mask.toNat = 2 ^ w - 1)
    (hk : va.toNat % 2 ^ w + k < 2 ^ w) (hw : w ≤ 64) :
    (va + BitVec.ofNat 64 k) &&& mask = (va &&& mask) + BitVec.ofNat 64 k := by
  have hle : 2 ^ w ≤ 2 ^ 64 := Nat.pow_le_pow_right (by decide) hw
  have hdvd : 2 ^ w ∣ 2 ^ 64 := pow_dvd_pow 2 hw
  apply BitVec.eq_of_toNat_eq
  rw [Word.toNat_and_low hmask, BitVec.toNat_add, BitVec.toNat_add, Word.toNat_and_low hmask,
    BitVec.toNat_ofNat, Nat.mod_eq_of_lt (by omega : k < 2 ^ 64), Nat.mod_mod_of_dvd _ hdvd,
    Nat.mod_eq_of_lt (by omega : va.toNat % 2 ^ w + k < 2 ^ 64), Nat.add_mod,
    Nat.mod_eq_of_lt (by omega : k < 2 ^ w), Nat.mod_eq_of_lt hk]

/-- Within 4 KiB, what comes later is mapped to what comes later. -/
theorem Translates.add (h : Translates mem root va phys) (hk : va.toNat % 4096 + k < 4096) :
    Translates mem root (va + BitVec.ofNat 64 k) (phys + BitVec.ofNat 64 k) := by
  -- inside a page the four indices stay the same
  have hpath : PmState.path (va + BitVec.ofNat 64 k) = PmState.path va := by
    rw [← path_pageOf, pageOf_add hk, path_pageOf]
  simp only [PmState.path, List.cons.injEq, and_true] at hpath
  obtain ⟨hpml4, hpdpt, hpd, hpt⟩ := hpath
  cases h with
  | small h₄ hp₄ h₃ hp₃ h₂ hp₂ hsmall h₁ hp₁ =>
      rw [BitVec.add_assoc, ← and_low_add (w := 12) (by decide) hk (by decide)]
      rw [← hpml4] at h₄
      rw [← hpdpt] at h₃
      rw [← hpd] at h₂
      rw [← hpt] at h₁
      exact .small h₄ hp₄ h₃ hp₃ h₂ hp₂ hsmall h₁ hp₁
  | huge h₄ hp₄ h₃ hp₃ h₂ hp₂ hhuge =>
      rw [BitVec.add_assoc, ← and_low_add (w := 21) (by decide) (by omega) (by decide)]
      rw [← hpml4] at h₄
      rw [← hpdpt] at h₃
      rw [← hpd] at h₂
      exact .huge h₄ hp₄ h₃ hp₃ h₂ hp₂ hhuge

/-- The frame of the address and its offset in the page are where it is. -/
theorem Translates.pageOf_add_low (h : Translates mem root va phys) :
    Kernel.pageOf phys + (va &&& 0xFFF#64) = phys := by
  -- a leaf of either kind keeps the offset inside the page
  have hlow : phys.toNat % 4096 = va.toNat % 4096 := by
    cases h with
    | small =>
        rename_i e₁ _ _ _ _ _ _ _ _ _
        have hmask : (e₁ &&& pteAddrMask).toNat = e₁.toNat / 2 ^ 12 % 2 ^ 40 * 2 ^ 12 :=
          Word.toNat_and_mask (by decide) e₁
        rw [BitVec.toNat_add, hmask, Word.toNat_and_low (w := 12) (by decide)]
        omega
    | huge =>
        rename_i e₂ _ _ _ _ _ _ _
        have hmask : (e₂ &&& pdAddrMask).toNat = e₂.toNat / 2 ^ 21 % 2 ^ 31 * 2 ^ 21 :=
          Word.toNat_and_mask (by decide) e₂
        rw [BitVec.toNat_add, hmask, Word.toNat_and_low (w := 21) (by decide)]
        omega
  have hphys := phys.isLt
  rw [← BitVec.toNat_inj, BitVec.toNat_add, toNat_pageOf, Word.toNat_and_low (w := 12) (by decide)]
  omega

end Translates

/-! ### The buffer

An address of the buffer is mapped for the caller, or no page of it is. -/

namespace Kernel

variable {σ : Type}

/-- The address is mapped in a pmap. -/
def Translates (s : Kernel σ) (pmap va phys : Addr) : Prop :=
  pmap ≠ 0 ∧ ∃ p, s.pmaps pmap = some p ∧ Koharu.Translates s.pm.mem p.rootPhys va phys

/-- The address is mapped, and not to the first frame, where `pmap_extract` may return `0`. -/
def Mapped (s : Kernel σ) (pmap va : Addr) : Prop :=
  ∃ phys, s.Translates pmap va phys ∧ pageOf phys ≠ 0

/-- No page maps the address. -/
def Unmapped (s : Kernel σ) (pmap va : Addr) : Prop := ∀ phys, ¬ s.Translates pmap va phys

/-- The byte at an address, by the translation of `pmap_extract`. -/
def byteAt (s : Kernel σ) (pmap va : Addr) : BitVec 8 :=
  s.loadByte ((s.pmapExtract pmap va).getD 0)

/-- The bytes from an address on. -/
def bytesFrom (s : Kernel σ) (pmap va : Addr) (n : ℕ) : List (BitVec 8) :=
  (List.range n).map fun k => s.byteAt pmap (va + BitVec.ofNat 64 k)

variable {s : Kernel σ} {pmap va phys : Addr} {k n : ℕ}

theorem Translates.pmapExtract (h : s.Translates pmap va phys) :
    s.pmapExtract pmap va = some phys := by
  obtain ⟨hpmap, p, hp, hva⟩ := h
  rw [Kernel.pmapExtract, if_neg hpmap, hp, ← hva.pmapExtract]
  rfl

/-- A translation holds for the rest of its page. -/
theorem Translates.add (h : s.Translates pmap va phys) (hk : va.toNat % 4096 + k < 4096) :
    s.Translates pmap (va + BitVec.ofNat 64 k) (phys + BitVec.ofNat 64 k) := by
  obtain ⟨hpmap, p, hp, hva⟩ := h
  exact ⟨hpmap, p, hp, hva.add hk⟩

/-- An address that is not mapped is translated to 0. -/
theorem Unmapped.pmapExtract (hspace : s.SpaceOk pmap) (h : s.Unmapped pmap va) :
    s.pmapExtract pmap va = some 0 := by
  unfold Kernel.pmapExtract
  rcases hspace with rfl | hsome
  · exact if_pos rfl
  · obtain ⟨p, hp⟩ := Option.ne_none_iff_exists'.mp hsome
    split
    case isTrue => rfl
    case isFalse hpmap =>
      rw [hp]
      exact congrArg some (pmapExtract_of_not_translates fun phys hva => h phys ⟨hpmap, p, hp, hva⟩)

/-- The buffer is the one part after the other. -/
theorem bytesFrom_add (s : Kernel σ) (pmap va : Addr) (n m : ℕ) :
    s.bytesFrom pmap va (n + m) =
      s.bytesFrom pmap va n ++ s.bytesFrom pmap (va + BitVec.ofNat 64 n) m := by
  rw [bytesFrom, List.range_add, List.map_append, List.map_map]
  refine congrArg (_ ++ ·) (List.map_congr_left fun k _ => ?_)
  show s.byteAt pmap (va + BitVec.ofNat 64 (n + k)) = _
  rw [BitVec.ofNat_add, BitVec.add_assoc]

/-- In one page, the bytes are those of its frame. -/
theorem Translates.loadBytes (h : s.Translates pmap va phys) (hn : va.toNat % 4096 + n ≤ 4096) :
    s.loadBytes (pageOf phys + (va &&& 0xFFF#64)) n = s.bytesFrom pmap va n := by
  have hphys : pageOf phys + (va &&& 0xFFF#64) = phys := by
    obtain ⟨-, p, -, hva⟩ := h
    exact hva.pageOf_add_low
  rw [hphys]
  apply List.map_congr_left
  intro k hk
  rw [List.mem_range] at hk
  rw [byteAt, (h.add (k := k) (by omega)).pmapExtract]
  rfl

end Kernel

/-! ### The loop

Every iteration prints up to the end of a page, so that a failure comes at the first page that is
not mapped. -/

namespace System

variable {σ : Type} {s : System σ} {cur : Tid} {a1 a2 a3 : BitVec 64}

/-- An iteration prints what is left of the page. -/
theorem writeLoop_of_translates {fuel : ℕ} {off phys : BitVec 64} (hlt : off < a3)
    (h : s.kernel.Translates (s.pmapOf cur) (a2 + off) phys) (hphys : phys ≠ 0) :
    (writeLoop cur a2 a3 (fuel + 1) off s).val =
      (writeLoop cur a2 a3 fuel (off + chunk (a2 + off) (a3 - off))
        { s with
          output := s.output ++
            s.kernel.bytesFrom (s.pmapOf cur) (a2 + off)
              (chunk (a2 + off) (a3 - off)).toNat }).val := by
  have hleft : 0 < (a3 - off).toNat := by
    rw [BitVec.lt_def] at hlt
    rw [BitVec.toNat_sub_of_le (BitVec.le_def.mpr hlt.le)]
    omega
  -- the chunk ends in the page that it begins in
  obtain ⟨-, -, hpage, -⟩ := chunk_spec (a2 + off) hleft
  rw [writeLoop, if_pos hlt]
  dsimp only
  rw [h.pmapExtract, lift_some_bind, if_neg hphys, val_bind, tell_val, Option.bind_some,
    h.loadBytes hpage]

/-- The loop ends at an address that is not mapped. -/
theorem writeLoop_of_unmapped {fuel : ℕ} {off : BitVec 64} (hlt : off < a3)
    (hspace : s.kernel.SpaceOk (s.pmapOf cur)) (h : s.kernel.Unmapped (s.pmapOf cur) (a2 + off)) :
    (writeLoop cur a2 a3 (fuel + 1) off s).val = some s.fails := by
  rw [writeLoop, if_pos hlt]
  dsimp only
  rw [h.pmapExtract hspace, lift_some_bind, if_pos rfl]
  rfl

section Run

variable {stop : ℕ} (hspace : s.kernel.SpaceOk (s.pmapOf cur)) (hstop : stop ≤ a3.toNat)
  (hmapped : ∀ k < stop, s.kernel.Mapped (s.pmapOf cur) (a2 + BitVec.ofNat 64 k))
  (hend : stop < a3.toNat → s.kernel.Unmapped (s.pmapOf cur) (a2 + BitVec.ofNat 64 stop))

include hend in
/-- A chunk that begins before an address that is not mapped ends before it, for whole pages are
mapped. -/
theorem chunk_le_of_unmapped {off : BitVec 64} (hoff : off.toNat < stop) (hstop : stop ≤ a3.toNat)
    {phys : Addr} (h : s.kernel.Translates (s.pmapOf cur) (a2 + off) phys) :
    off.toNat + (chunk (a2 + off) (a3 - off)).toNat ≤ stop := by
  have hleft : (a3 - off).toNat = a3.toNat - off.toNat :=
    BitVec.toNat_sub_of_le (BitVec.le_def.mpr (by omega))
  obtain ⟨-, hle, hpage, -⟩ := chunk_spec (a2 + off) (by omega : 0 < (a3 - off).toNat)
  -- a chunk beyond `stop` would have the page of `stop` mapped
  by_contra hlt
  have hstop' : a2 + BitVec.ofNat 64 stop = a2 + off + BitVec.ofNat 64 (stop - off.toNat) := by
    have hsum : off + BitVec.ofNat 64 (stop - off.toNat) = BitVec.ofNat 64 stop := by
      apply BitVec.eq_of_toNat_eq
      rw [BitVec.toNat_add, BitVec.toNat_ofNat, BitVec.toNat_ofNat]
      omega
    rw [BitVec.add_assoc, hsum]
  have hunmapped := hend (by omega)
  rw [hstop'] at hunmapped
  exact hunmapped _ (h.add (by omega))

include hspace hstop hmapped hend

/-- The loop, by induction on the bound on its iterations: what is printed is the buffer from the
current offset up to where the loop stops. -/
theorem writeLoop_val (fuel : ℕ) {off : BitVec 64} (hoff : off.toNat ≤ stop)
    (hfuel : a3.toNat - off.toNat < fuel) (out : List (BitVec 8)) :
    (writeLoop cur a2 a3 fuel off { s with output := out }).val =
      some (.returned (if stop < a3.toNat then -1 else a3) none
        { s with output := out ++
          s.kernel.bytesFrom (s.pmapOf cur) (a2 + off) (stop - off.toNat) }) := by
  induction fuel generalizing off out with
  | zero => omega
  | succ fuel ih =>
      by_cases hdone : off.toNat = stop
      · rw [hdone, Nat.sub_self]
        show _ = some (Ending.returned _ _ { s with output := out ++ [] })
        rw [List.append_nil]
        by_cases hlt : stop < a3.toNat
        · -- nothing is mapped here
          have hunmapped := hend hlt
          rw [← hdone, BitVec.ofNat_toNat, BitVec.setWidth_eq] at hunmapped
          rw [if_pos hlt]
          exact writeLoop_of_unmapped (s := { s with output := out })
            (BitVec.lt_def.mpr (hdone ▸ hlt)) hspace hunmapped
        · rw [if_neg hlt, writeLoop, if_neg fun h => by rw [BitVec.lt_def] at h; omega]
          rfl
      · have hlt : off < a3 := BitVec.lt_def.mpr (by omega)
        have hmap := hmapped off.toNat (by omega)
        rw [BitVec.ofNat_toNat, BitVec.setWidth_eq] at hmap
        obtain ⟨phys, hva, hframe⟩ := hmap
        have hphys : phys ≠ 0 := fun hzero => hframe (by rw [hzero]; rfl)
        have hleft : (a3 - off).toNat = a3.toNat - off.toNat :=
          BitVec.toNat_sub_of_le (BitVec.le_def.mpr (by omega))
        obtain ⟨hpos, -, -, -⟩ := chunk_spec (a2 + off) (by omega : 0 < (a3 - off).toNat)
        have hle := chunk_le_of_unmapped hend (by omega) hstop hva
        rw [writeLoop_of_translates (s := { s with output := out }) hlt hva hphys]
        generalize hn : chunk (a2 + off) (a3 - off) = n at hpos hle ⊢
        have hnext : (off + n).toNat = off.toNat + n.toNat := by
          rw [BitVec.toNat_add, Nat.mod_eq_of_lt (by omega)]
        -- what this iteration prints and what the others do is the rest of the buffer
        rw [ih (by omega) (by omega), List.append_assoc, ← BitVec.add_assoc, hnext]
        have hrest := s.kernel.bytesFrom_add (s.pmapOf cur) (a2 + off) n.toNat
          (stop - (off.toNat + n.toNat))
        rw [BitVec.ofNat_toNat, BitVec.setWidth_eq] at hrest
        rw [show stop - off.toNat = n.toNat + (stop - (off.toNat + n.toNat)) by omega, hrest]
        rfl

/-- `SYS_WRITE` up to where it stops. -/
theorem sysWrite_val (hfd : a1 = 1 ∨ a1 = 2) :
    (s.sysWrite cur a1 a2 a3).val =
      some (.returned (if stop < a3.toNat then -1 else a3) none
        { s with output := s.output ++ s.kernel.bytesFrom (s.pmapOf cur) a2 stop }) := by
  rw [sysWrite, if_neg fun h => hfd.elim h.1 h.2]
  split
  case isTrue hzero =>
    subst hzero
    obtain rfl : stop = 0 := Nat.le_zero.mp hstop
    show some (Ending.returned 0 none s) =
      some (Ending.returned 0 none { s with output := s.output ++ [] })
    rw [List.append_nil]
  case isFalse =>
    have hoff : (0#64).toNat ≤ stop := Nat.zero_le _
    -- the loop from offset zero, with one turn to spare
    have hloop := writeLoop_val hspace hstop hmapped hend (a3.toNat + 1) hoff (by simp) s.output
    rw [BitVec.add_zero] at hloop
    exact hloop

end Run

/-- If the whole buffer is mapped, its bytes are printed and their number is returned. Otherwise
what comes before the first address that is not mapped is printed, and the call fails. -/
theorem sysWrite_prints_exactly (hspace : s.kernel.SpaceOk (s.pmapOf cur)) (hfd : a1 = 1 ∨ a1 = 2) :
    ((∀ k < a3.toNat, s.kernel.Mapped (s.pmapOf cur) (a2 + BitVec.ofNat 64 k)) →
      (s.sysWrite cur a1 a2 a3).val = some (.returned a3 none
        { s with output := s.output ++ s.kernel.bytesFrom (s.pmapOf cur) a2 a3.toNat })) ∧
    ∀ u < a3.toNat, (∀ k < u, s.kernel.Mapped (s.pmapOf cur) (a2 + BitVec.ofNat 64 k)) →
      s.kernel.Unmapped (s.pmapOf cur) (a2 + BitVec.ofNat 64 u) →
      (s.sysWrite cur a1 a2 a3).val = some (.returned (-1) none
        { s with output := s.output ++ s.kernel.bytesFrom (s.pmapOf cur) a2 u }) := by
  refine ⟨fun hmapped => ?_, fun u hu hmapped hunmapped => ?_⟩
  · have hval := sysWrite_val hspace le_rfl hmapped (fun h => absurd h (lt_irrefl _)) hfd
    rwa [if_neg (lt_irrefl _)] at hval
  · have hval := sysWrite_val hspace hu.le hmapped (fun _ => hunmapped) hfd
    rwa [if_pos hu] at hval

/-- Two pages are mapped at `0x400000`, to frames in the other order, and the next one is not. -/
def hello : System BumpAllocator :=
  { twoThreads with kernel := { Kernel.small with pm :=
      { mem := fun page i =>
          if page = 0x4000#64 ∧ i = 0 then tableEntry 0x5000#64
          else if page = 0x5000#64 ∧ i = 0 then tableEntry 0x6000#64
          else if page = 0x6000#64 ∧ i = 2 then tableEntry 0x7000#64
          else if page = 0x7000#64 ∧ i = 0 then tableEntry 0x9000#64
          else if page = 0x7000#64 ∧ i = 1 then tableEntry 0x8000#64
          else if page = 0x9000#64 ∧ i = 511 then 0x6548000000000000#64
          else if page = 0x8000#64 ∧ i = 0 then 0x6F6C6C#64
          else if page = 0x8000#64 ∧ i = 511 then 0x2100000000000000#64
          else 0
        pmm := ⟨0⟩
        trace := [] } } }

/-- A string across two pages is printed, and one that ends on the third page is cut off. -/
theorem sysWrite_prints_exactly_hello :
    (hello.sysWrite 2 1 0x400FFE#64 5).val =
        some (.returned 5 none { hello with output := [0x48, 0x65, 0x6C, 0x6C, 0x6F] }) ∧
      (hello.sysWrite 2 1 0x401FFF#64 3).val =
        some (.returned (-1) none { hello with output := [0x21] }) := by
  have hspace : hello.kernel.SpaceOk (hello.pmapOf 2) := spaceOk_twoThreads 2
  obtain ⟨hall, -⟩ := @sysWrite_prints_exactly _ hello 2 1 0x400FFE#64 5 hspace (Or.inl rfl)
  obtain ⟨-, hprefix⟩ := @sysWrite_prints_exactly _ hello 2 1 0x401FFF#64 3 hspace (Or.inl rfl)
  constructor
  -- the five bytes lie on two pages that are mapped
  · apply hall
    intro k hk
    have hk' : k < 5 := hk
    obtain rfl | rfl | rfl | rfl | rfl : k = 0 ∨ k = 1 ∨ k = 2 ∨ k = 3 ∨ k = 4 := by omega
    all_goals
      exact ⟨_, ⟨by decide, _, rfl, .small rfl (by decide) rfl (by decide) rfl (by decide)
        (by decide) rfl (by decide)⟩, by decide⟩
  -- the second byte is on a page that is not mapped
  · refine hprefix 1 (by decide) (fun k hk => ?_) ?_
    · obtain rfl : k = 0 := Nat.lt_one_iff.mp hk
      exact ⟨_, ⟨by decide, _, rfl, .small rfl (by decide) rfl (by decide) rfl (by decide)
        (by decide) rfl (by decide)⟩, by decide⟩
    · rintro phys ⟨-, p, hp, h⟩
      obtain rfl := Option.some.inj hp
      cases h with
      | small h₄ hp₄ h₃ hp₃ h₂ hp₂ hsmall h₁ hp₁ =>
          rw [← h₁, ← h₂, ← h₃, ← h₄] at hp₁
          exact absurd hp₁ (by decide)
      | huge h₄ hp₄ h₃ hp₃ h₂ hp₂ hhuge =>
          rw [← h₂, ← h₃, ← h₄] at hhuge
          exact absurd hhuge (by decide)

end System

end Koharu
