import Koharu.Arch.PmapStores
import Koharu.Boot.Hhdm
import Koharu.Task.Syscall

/-!
# The direct maps

What the tables that `init_hhdm` makes say about every address. All of them map memory in pieces of
2 MiB, which are numbered by the upper 27 of the 48 bits of an address (`region`). `Built` says that
the tables map the regions as a partial function says, and each of the loops adds one `span` to this
function: memory below the loader's image one to one, all of memory from the middle of the address
space on, and the first 2 GiB of it once more at the end.

The three ranges are built by one kind of loop with different bounds. A store to an entry of a page
directory adds one region to the function (`Built.store`), and a new table adds none
(`Built.newTable`), so each loop is an induction on the entries that are left, with the regions that
are mapped so far as its invariant. Indices are natural numbers throughout and become addresses only
at the end, where the bounds on `max_phys_addr` say that nothing wraps around.

`directMap_agree` then reads off that the boot loader's direct map and that of `vmm_init` agree.
-/

namespace Koharu

open Radix

universe u

/-- From a sequence that succeeds, its two halves. -/
theorem exists_of_bind_eq_ok {ε : Type*} {α β : Type u} {x : Except ε α} {f : α → Except ε β}
    {b : β} (h : x >>= f = .ok b) : ∃ a, x = .ok a ∧ f a = .ok b := by
  cases x with
  | error e => cases h
  | ok a => exact ⟨a, rfl, h⟩

/-! ### Entries

The loader's entries have the same layout as the kernel's, but they are put together with other
masks. -/

/-- The loader's entries are present. -/
theorem present_bootHuge (phys : Addr) : (bootHuge phys).present = true := by
  rw [bootHuge, BitVec.or_assoc, BitVec.or_assoc]
  exact Entry.present_or (by decide)

/-- They are huge pages. -/
theorem huge_bootHuge (phys : Addr) : (bootHuge phys).huge = true := by
  have hbit : (bootHuge phys).getLsbD 7 = true := by
    have : pdeHuge.getLsbD 7 = true := by decide
    rw [bootHuge, BitVec.getLsbD_or, this, Bool.or_true]
  rw [Entry.huge, bne_iff_ne]
  intro hzero
  have := congrArg (fun e : Entry => e.getLsbD 7) hzero
  rw [BitVec.getLsbD_and, hbit] at this
  revert this
  decide

/-- So they lead to no table. -/
theorem child_bootHuge (phys : Addr) : (bootHuge phys).child = none :=
  Entry.child_of_huge (huge_bootHuge phys)

/-- An entry for 2 MiB keeps an address that is a multiple of them. -/
theorem bootHuge_and_mask {phys : Addr} (h : phys &&& pdAddrMask = phys) :
    bootHuge phys &&& pdAddrMask = phys := by
  have hflags : (ptePresent ||| (pteWritable ||| pdeHuge)) &&& pdAddrMask = 0#64 := by decide
  rw [bootHuge, BitVec.or_assoc, BitVec.or_assoc, BitVec.and_or_distrib_right, hflags,
    BitVec.or_zero, h]

section BootEntry

variable {t : Addr} (ht : t &&& pteAddrMask = t)

include ht

/-- What the entry for a table says, with either of the masks it is read with. -/
theorem bootEntry_spec :
    (bootEntry t).child = some t ∧ bootEntry t &&& ~~~0xFFF#64 = (bootEntry t).addr := by
  have hpresent : (bootEntry t).present = true := by
    rw [bootEntry, BitVec.or_assoc]
    exact Entry.present_or (by decide)
  have hhuge : (bootEntry t).huge = false := by
    have hzero : bootEntry t &&& pdeHuge = 0#64 := by
      rw [bootEntry, BitVec.or_assoc, BitVec.and_or_distrib_right,
        Entry.and_eq_zero_of_mask (b := pdeHuge) ht (by decide)]
      decide
    simp [Entry.huge, hzero]
  have haddr : (bootEntry t).addr = t := by
    have hflags : (ptePresent ||| pteWritable) &&& pteAddrMask = 0#64 := by decide
    rw [Entry.addr, bootEntry, BitVec.or_assoc, BitVec.and_or_distrib_right, ht, hflags,
      BitVec.or_zero]
  refine ⟨?_, ?_⟩
  · rw [Entry.child_eq_some hpresent hhuge, haddr]
  · have hlow : (ptePresent ||| pteWritable) &&& ~~~0xFFF#64 = 0#64 := by decide
    have hhigh : pteAddrMask &&& ~~~0xFFF#64 = pteAddrMask := by decide
    rw [haddr, bootEntry, BitVec.or_assoc, BitVec.and_or_distrib_right, hlow, BitVec.or_zero, ← ht,
      BitVec.and_assoc, hhigh]

end BootEntry

/-! ### Regions

Everything that the loader maps is a huge page, so that an address space is a function from regions
of 2 MiB to physical addresses. The three loops fill intervals of regions. -/

/-- The number of the 2 MiB of address space that the address is in. -/
def region (va : Addr) : ℕ := va.toNat % 2 ^ 48 / 2 ^ 21

/-- The number of the region that these indices lead to. -/
def regionAt (l4 l3 l2 : BitVec 9) : ℕ := l4.toNat * 2 ^ 18 + l3.toNat * 2 ^ 9 + l2.toNat

/-- The number of the 2 MiB region, from the three indices. -/
theorem region_eq (va : Addr) :
    region va = regionAt (pml4Index va) (pdptIndex va) (pdIndex va) := by
  rw [region, regionAt, toNat_pml4Index, toNat_pdptIndex, toNat_pdIndex]
  omega

/-- Different indices are different regions. -/
theorem regionAt_inj {l4 l3 l2 l4' l3' l2' : BitVec 9}
    (h : regionAt l4 l3 l2 = regionAt l4' l3' l2') : l4 = l4' ∧ l3 = l3' ∧ l2 = l2' := by
  rw [regionAt, regionAt] at h
  rw [← BitVec.toNat_inj, ← BitVec.toNat_inj, ← BitVec.toNat_inj]
  omega

/-- The regions from `lo` to `hi` are mapped to memory, from `(lo - base) * 2 MiB` on. -/
def span (lo hi base : ℕ) (m : ℕ → Option Addr) : ℕ → Option Addr := fun n =>
  if lo ≤ n ∧ n < hi then some (BitVec.ofNat 64 ((n - base) * 2 ^ 21)) else m n

/-- An empty range of regions changes nothing. -/
theorem span_self (lo base : ℕ) (m : ℕ → Option Addr) : span lo lo base m = m := by
  funext n
  rw [span, if_neg (by omega)]

/-- A range of regions and one more. -/
theorem span_succ {lo hi : ℕ} (h : lo ≤ hi) (base : ℕ) (m : ℕ → Option Addr) :
    span lo (hi + 1) base m =
      Function.update (span lo hi base m) hi (some (BitVec.ofNat 64 ((hi - base) * 2 ^ 21))) := by
  funext n
  by_cases hn : n = hi
  · subst hn
    rw [Function.update_self, span, if_pos (by omega)]
  · rw [Function.update_of_ne hn, span, span]
    exact if_congr (by omega) rfl rfl

namespace PmState

variable {σ : Type*} [PageAllocator σ] [LawfulPageAllocator σ] {s s' : PmState σ} {root : Addr}
  {m : ℕ → Option Addr}

/-- Every path of at most three indices has a table in the full shape. -/
theorem has_univ {π : List (BitVec 9)} (h : π.length ≤ 3) :
    (forest {root} Set.univ).Has root π := ⟨rfl, h, fun _ _ => Set.mem_univ _⟩

/-- The tables map the regions as `m` says. -/
structure Built (s : PmState σ) (root : Addr) (m : ℕ → Option Addr) : Prop where
  wf : s.Wf (forest {root} Set.univ)
  /-- There are no tables for normal pages. -/
  shallow : ∀ π, π.length = 3 → s.table root π = none
  /-- The links are read with another mask than that of the hardware. -/
  link_addr : ∀ π p i, π.length ≤ 1 → s.table root π = some p → (s.mem p i).present = true →
    s.mem p i &&& ~~~0xFFF#64 = (s.mem p i).addr
  leaf_eq : ∀ va, s.leaf root va = (m (region va)).map fun phys => (bootHuge phys, [ptIndex va])

/-- One entry of a page directory is stored. -/
theorem Built.store (h : s.Built root m) {l4 l3 : BitVec 9} {pd : Addr}
    (hpd : s.table root [l4, l3] = some pd) (l2 : BitVec 9) (phys : Addr) :
    (s.store .pd pd l2 (bootHuge phys)).Built root
        (Function.update m (regionAt l4 l3 l2) (some phys)) ∧
      ∀ π, π.length ≤ 2 → (s.store .pd pd l2 (bootHuge phys)).table root π = s.table root π := by
  have hπ : (forest {root} Set.univ).Has root [l4, l3] := has_univ (by simp)
  -- neither the old entry nor the new one links to a table
  have hnone : (s.mem pd l2).child = none := by
    have := (s.table_snoc root [l4, l3] l2).symm.trans (h.shallow [l4, l3, l2] rfl)
    rwa [hpd] at this
  have htable : ∀ π, π.length ≤ 3 →
      (s.store .pd pd l2 (bootHuge phys)).table root π = s.table root π := fun π hlen =>
    h.wf.table_set hπ hpd (Or.inl hnone) (Or.inl (child_bootHuge phys)) (has_univ hlen)
  refine ⟨⟨?_, fun π hlen => (htable π (by omega)).trans (h.shallow π hlen),
    fun π p i hlen hp hpresent => ?_, fun va => ?_⟩, fun π hlen => htable π (by omega)⟩
  · exact (Move.step (.set .pd _ hπ (by simp) hpd (Or.inl hnone) (Or.inl (child_bootHuge phys))
      (by simp)) h.wf).wf
  · rw [htable π (by omega)] at hp
    have hne : p ≠ pd := by
      rintro rfl
      obtain ⟨-, rfl⟩ := h.wf.sep root π root [l4, l3] p (has_univ (by omega)) hπ hp hpd
      simp at hlen
    rw [store_mem, write_apply, if_neg (by simp [hne])] at hpresent ⊢
    exact h.link_addr π p i hlen hp hpresent
  · by_cases hregion : region va = regionAt l4 l3 l2
    · obtain ⟨h4, h3, h2⟩ := regionAt_inj ((region_eq va).symm.trans hregion)
      have hpath : path va = [l4, l3] ++ l2 :: [ptIndex va] := by
        rw [path, h4, h3, h2]
        rfl
      rw [hregion, Function.update_self, h.wf.leaf_store_of_through hπ hpd hpath]
      simp [findFrom, found, child_bootHuge, present_bootHuge]
    · rw [Function.update_of_ne hregion, ← h.leaf_eq va]
      refine h.wf.leaf_store_of_not_through hπ hpd rfl (Set.mem_univ _) fun hthrough => hregion ?_
      obtain ⟨-, ρ, hρ⟩ := hthrough
      simp only [path, List.cons_append, List.nil_append, List.cons.injEq] at hρ
      rw [region_eq, hρ.1, hρ.2.1, hρ.2.2.1]

omit [LawfulPageAllocator σ] in
/-- The new table of `new_table` is linked in as `Wf.link` describes it. -/
theorem newTable_eq {level : Level} {p t : Addr} {i : BitVec 9}
    (hnew : s.newTable level p i = .ok (t, s')) :
    t ≠ 0 ∧ t = s.allocPages.1 ∧ s' = s.linkedAs level p i (bootEntry t) := by
  obtain ⟨⟨t', s₁⟩, halloc, hnew⟩ := exists_of_bind_eq_ok hnew
  unfold allocPage at halloc
  dsimp only at halloc hnew
  split at halloc
  · cases halloc
  next hne =>
    obtain ⟨rfl, rfl⟩ := Prod.mk.inj (Except.ok.inj halloc)
    obtain ⟨rfl, rfl⟩ := Prod.mk.inj (Except.ok.inj hnew)
    exact ⟨hne, rfl, rfl⟩

/-- A new table, at an entry that is not present. -/
theorem Built.newTable (h : s.Built root m) {level : Level} {p t : Addr} {π : List (BitVec 9)}
    {i : BitVec 9} (hlen : π.length ≤ 1) (hp : s.table root π = some p)
    (hnot : (s.mem p i).present = false) (hnew : s.newTable level p i = .ok (t, s')) :
    s'.Built root m ∧ s'.table root (π ++ [i]) = some t ∧
      (∀ π', π'.length ≤ π.length → s'.table root π' = s.table root π') ∧
      (∀ j, (s'.mem t j).present = false) ∧
      (∀ q, s.IsTable (forest {root} Set.univ) q → q ≠ p → s'.mem q = s.mem q) ∧
      ∀ j, j ≠ i → s'.mem p j = s.mem p j := by
  obtain ⟨hne, rfl, rfl⟩ := newTable_eq hnew
  have hπ : (forest {root} Set.univ).Has root π := has_univ (by omega)
  obtain ⟨hchild, hmask⟩ := bootEntry_spec s.allocPages_aligned
  have hmem : ∀ q j, (s.linkedAs level p i (bootEntry s.allocPages.1)).mem q j =
      if q = s.allocPages.1 then 0#64 else if q = p ∧ j = i then bootEntry s.allocPages.1
        else s.mem q j := h.wf.linkedAs_mem hπ hp hne
  have hfresh := h.wf.fresh_not_table hne
  have hpt : p ≠ s.allocPages.1 := (h.wf.fresh_ne hπ hp hne).symm
  -- every table is an old one or the new one
  have hcases : ∀ π' q, π'.length ≤ 3 →
      (s.linkedAs level p i (bootEntry s.allocPages.1)).table root π' = some q →
      s.table root π' = some q ∨ π' = π ++ [i] ∧ q = s.allocPages.1 := by
    intro π' q hlen' hq
    rcases h.wf.linkedAs_table_cases hπ hp hne hchild (has_univ hlen') hq with hold | ⟨-, heq⟩
    · exact Or.inl hold
    · exact Or.inr heq
  refine ⟨⟨?_, fun π' hlen' => ?_, fun π' q j hlen' hq hpresent => ?_, fun va => ?_⟩, ?_,
    fun π' hlen' => ?_, fun j => ?_, fun q hq hqp => ?_, fun j hj => ?_⟩
  · exact (h.wf.link hπ (fun _ => Set.mem_univ _) hp hne hchild).wf
  · rw [Option.eq_none_iff_forall_ne_some]
    intro q hq
    rcases hcases π' q (by omega) hq with hold | ⟨rfl, -⟩
    · rw [h.shallow π' hlen'] at hold
      cases hold
    · simp at hlen'
      omega
  · rw [hmem] at hpresent ⊢
    split at hpresent
    · rw [Entry.present_zero] at hpresent
      cases hpresent
    next hqt =>
      rw [if_neg hqt]
      split
      next => exact hmask
      next hentry =>
        rw [if_neg hentry] at hpresent
        rcases hcases π' q (by omega) hq with hold | ⟨-, heq⟩
        · exact h.link_addr π' q j hlen' hold hpresent
        · exact absurd heq hqt
  -- the new table is empty, so no address gets a leaf
  · have hsame : SameLeaves (forest {root} Set.univ) s
        (s.linkedAs level p i (bootEntry s.allocPages.1)) :=
      h.wf.sameLeaves_linkedAs hπ hp (by omega) hne hchild hnot
    exact (hsame root rfl va (Set.mem_univ _)).trans (h.leaf_eq va)
  · rw [h.wf.linkedAs_table hπ hp hne hchild (has_univ (by simp; omega)), if_pos ⟨rfl, rfl⟩]
  · have hnotthrough : ¬ Through root π i root π' := by
      rintro ⟨-, hprefix⟩
      have := hprefix.length_le
      rw [List.length_append, List.length_singleton] at this
      omega
    rw [h.wf.linkedAs_table hπ hp hne hchild (has_univ (by omega)), if_neg, if_neg hnotthrough]
    rintro ⟨-, rfl⟩
    exact hnotthrough ⟨rfl, List.prefix_refl _⟩
  · rw [hmem, if_pos rfl]
    exact Entry.present_zero
  · funext j
    rw [hmem, if_neg, if_neg (by simp [hqp])]
    rintro rfl
    exact hfresh hq
  · rw [hmem, if_neg hpt, if_neg (by simp [hj])]

/-! ### The loader's image

Pages of the image may share tables, so that each step first looks for the table and makes it only
if it is missing. -/

/-- The table at an entry, or a new one. -/
theorem Built.bootTable (h : s.Built root m) {level : Level} {p t : Addr} {π : List (BitVec 9)}
    {i : BitVec 9} (hlen : π.length ≤ 1) (hp : s.table root π = some p)
    (hboot : s.bootTable level p i = .ok (t, s')) :
    s'.Built root m ∧ s'.table root (π ++ [i]) = some t ∧
      (∀ q, s.IsTable (forest {root} Set.univ) q → q ≠ p → s'.mem q = s.mem q) ∧
      ∀ j, j ≠ i → s'.mem p j = s.mem p j := by
  rw [PmState.bootTable] at hboot
  split at hboot
  next hpresent =>
    obtain ⟨rfl, rfl⟩ := Prod.mk.inj (Except.ok.inj hboot)
    refine ⟨h, ?_, fun _ _ _ => rfl, fun _ _ => rfl⟩
    have hhuge := h.wf.upper root π p i (has_univ (by simp; omega)) (by omega) hp
    rw [h.link_addr π p i hlen hp hpresent, table_snoc, hp]
    exact Entry.child_eq_some hpresent hhuge
  next hnot =>
    obtain ⟨hbuilt, htable, -, -, hother, hsame⟩ :=
      h.newTable hlen hp (by simpa using hnot) hboot
    exact ⟨hbuilt, htable, hother, hsame⟩

/-- The root is not one of the tables below it. -/
theorem Built.ne_root (h : s.Built root m) {π : List (BitVec 9)} {p : Addr} (hπ : π ≠ [])
    (hlen : π.length ≤ 3) (hp : s.table root π = some p) : root ≠ p := by
  rintro rfl
  exact hπ (h.wf.sep root π root [] root (has_univ hlen) (has_univ (by simp)) hp rfl).2

omit [PageAllocator σ] [LawfulPageAllocator σ] in
/-- The root is a table. -/
theorem isTable_root (s : PmState σ) (root : Addr) :
    s.IsTable (forest {root} Set.univ) root := ⟨root, [], has_univ (by simp), rfl⟩

/-- 2 MiB of the image. -/
theorem Built.identityPage (h : s.Built root m) {addr : Addr}
    (hpage : s.identityPage root addr = .ok s') :
    s'.Built root (Function.update m (region addr) (some addr)) ∧
      ∀ j, j ≠ pml4Index addr → s'.mem root j = s.mem root j := by
  obtain ⟨⟨pdpt, s₁⟩, hboot₁, hpage⟩ := exists_of_bind_eq_ok hpage
  obtain ⟨h₁, hpdpt, -, hsame₁⟩ := h.bootTable (π := []) (by simp) rfl hboot₁
  obtain ⟨⟨pd, s₂⟩, hboot₂, hpage⟩ := exists_of_bind_eq_ok hpage
  obtain ⟨h₂, hpd, hother₂, -⟩ := h₁.bootTable (π := [pml4Index addr]) (by simp) hpdpt hboot₂
  obtain rfl := Except.ok.inj hpage
  obtain ⟨h₃, -⟩ := h₂.store hpd (pdIndex addr) addr
  rw [region_eq]
  refine ⟨h₃, fun j hj => ?_⟩
  have hne₁ : root ≠ pdpt := h₁.ne_root (by simp) (by simp) hpdpt
  have hne₂ : root ≠ pd := h₂.ne_root (by simp) (by simp) hpd
  calc (s₂.store .pd pd (pdIndex addr) (bootHuge addr)).mem root j = s₂.mem root j := by
        rw [store_mem, write_apply, if_neg (by simp [hne₂])]
    _ = s₁.mem root j := by rw [hother₂ root (isTable_root s₁ root) hne₁]
    _ = s.mem root j := hsame₁ j hj

/-- The loop over the image maps it one to one, and stays in the lower half. -/
theorem Built.identityLoop {imageEnd : Addr} (hend : imageEnd.toNat ≤ 2 ^ 47) {lo : ℕ} (fuel : ℕ)
    {addr : Addr} (halign : 2 ^ 21 ∣ addr.toNat) (hlo : lo ≤ addr.toNat / 2 ^ 21)
    (h : s.Built root (span lo (addr.toNat / 2 ^ 21) 0 m))
    (hloop : identityLoop root imageEnd fuel addr s = .ok s') :
    (∃ hi, imageEnd.toNat ≤ hi * 2 ^ 21 ∧ s'.Built root (span lo hi 0 m)) ∧
      ∀ j ∉ userTop, s'.mem root j = s.mem root j := by
  induction fuel generalizing s addr with
  | zero => cases hloop
  | succ fuel ih =>
      rw [PmState.identityLoop] at hloop
      split at hloop
      next hlt =>
        rw [BitVec.lt_def] at hlt
        obtain ⟨s₁, hpage, hloop⟩ := exists_of_bind_eq_ok hloop
        obtain ⟨h₁, hroot₁⟩ := h.identityPage hpage
        have hnext : (addr + 0x200000#64).toNat = addr.toNat + 2 ^ 21 := by
          rw [BitVec.toNat_add, show (0x200000#64).toNat = 2 ^ 21 from rfl, Nat.mod_eq_of_lt]
          omega
        have hregion : region addr = addr.toNat / 2 ^ 21 := by
          rw [region, Nat.mod_eq_of_lt (by omega)]
        have haddr : BitVec.ofNat 64 ((addr.toNat / 2 ^ 21 - 0) * 2 ^ 21) = addr := by
          rw [Nat.sub_zero, Nat.div_mul_cancel halign, BitVec.ofNat_toNat, BitVec.setWidth_eq]
        have hspan : (addr + 0x200000#64).toNat / 2 ^ 21 = addr.toNat / 2 ^ 21 + 1 := by
          rw [hnext]
          omega
        -- one more region is mapped to itself
        have h₁' : s₁.Built root (span lo ((addr + 0x200000#64).toNat / 2 ^ 21) 0 m) := by
          rw [hspan, span_succ hlo, haddr, ← hregion]
          exact hregion ▸ h₁
        obtain ⟨hbuilt, hroot⟩ := ih (by rw [hnext]; exact Nat.dvd_add halign dvd_rfl)
          (by omega) h₁' hloop
        refine ⟨hbuilt, fun j hj => (hroot j hj).trans (hroot₁ j ?_)⟩
        rintro rfl
        exact hj (pml4Index_mem_userTop (by omega))
      next hlt =>
        obtain rfl := Except.ok.inj hloop
        rw [BitVec.lt_def] at hlt
        obtain ⟨q, hq⟩ := halign
        refine ⟨⟨addr.toNat / 2 ^ 21, ?_, h⟩, fun _ _ => rfl⟩
        omega

/-! ### The loops of the direct map

From inside out: the entries of a page directory, the directories of a PDPT, the PDPTs of the root.
Each loop extends the interval of regions that is mapped, and the last turn may be cut off at the
end of memory. -/

/-- The regions of a page directory follow each other. -/
theorem regionAt_ofNat (l4 l3 : BitVec 9) {k : ℕ} (hk : k < 512) :
    regionAt l4 l3 (BitVec.ofNat 9 k) = regionAt l4 l3 0#9 + k := by
  simp only [regionAt, BitVec.toNat_ofNat, Nat.mod_eq_of_lt hk, Nat.zero_mod]
  omega

/-- The page directories of a table follow each other at 512 regions. -/
theorem regionAt_middle (l4 : BitVec 9) {j : ℕ} (hj : j < 512) :
    regionAt l4 (BitVec.ofNat 9 j) 0#9 = regionAt l4 0#9 0#9 + j * 512 := by
  simp only [regionAt, BitVec.toNat_ofNat, Nat.mod_eq_of_lt hj, Nat.zero_mod]
  omega

/-- The entries of the root stand for 2^18 regions each. -/
theorem regionAt_top {l4 : ℕ} (hl4 : l4 < 512) :
    regionAt (BitVec.ofNat 9 l4) 0#9 0#9 = l4 * 2 ^ 18 := by
  simp only [regionAt, BitVec.toNat_ofNat, Nat.mod_eq_of_lt hl4, Nat.zero_mod]
  omega

/-- Different small numbers are different indices. -/
theorem ofNat_ne {j k : ℕ} (hne : j ≠ k) (hj : j < 512) (hk : k < 512) :
    BitVec.ofNat 9 j ≠ BitVec.ofNat 9 k := by
  intro heq
  have := congrArg BitVec.toNat heq
  simp only [BitVec.toNat_ofNat] at this
  omega

/-- The innermost loop makes the entries of one page directory, or those that are left. -/
theorem Built.fillPd {l4 l3 : BitVec 9} {pd : Addr} {total base : ℕ} (left : ℕ) {k pdes : ℕ}
    (h : s.Built root (span base (base + pdes) base m)) (hpd : s.table root [l4, l3] = some pd)
    (hk : k + left = 512) (hregion : regionAt l4 l3 0#9 + k = base + pdes) (hle : pdes ≤ total) :
    ∃ pdes' s', PmState.fillPd total pd left k pdes s = (pdes', s') ∧
      pdes' = min total (pdes + left) ∧ s'.Built root (span base (base + pdes') base m) ∧
      (∀ π, π.length ≤ 2 → s'.table root π = s.table root π) ∧
      ∀ q, q ≠ pd → s'.mem q = s.mem q := by
  induction left generalizing s k pdes with
  | zero => exact ⟨pdes, s, rfl, by omega, h, fun _ _ => rfl, fun _ _ => rfl⟩
  | succ left ih =>
      rw [PmState.fillPd]
      split
      next hdone => exact ⟨pdes, s, rfl, by omega, h, fun _ _ => rfl, fun _ _ => rfl⟩
      next hmore =>
        -- entry `k` maps the next two megabytes
        obtain ⟨h₁, htable₁⟩ := h.store hpd (BitVec.ofNat 9 k)
          (BitVec.ofNat 64 (pdes * 2 * 1024 * 1024))
        have hphys : pdes * 2 * 1024 * 1024 = (base + pdes - base) * 2 ^ 21 := by omega
        have hspan : span base (base + (pdes + 1)) base m = Function.update
            (span base (base + pdes) base m) (regionAt l4 l3 (BitVec.ofNat 9 k))
            (some (BitVec.ofNat 64 (pdes * 2 * 1024 * 1024))) := by
          rw [← Nat.add_assoc, span_succ (by omega), regionAt_ofNat l4 l3 (by omega), hregion,
            hphys]
        rw [← hspan] at h₁
        obtain ⟨pdes', s', heq, hcount, hbuilt, htable, hmem⟩ := ih (k := k + 1) h₁
          ((htable₁ [l4, l3] le_rfl).trans hpd) (by omega) (by omega) (by omega)
        refine ⟨pdes', s', heq, by omega, hbuilt,
          fun π hπ => (htable π hπ).trans (htable₁ π hπ), fun q hq => ?_⟩
        rw [hmem q hq]
        funext j
        rw [store_mem, write_apply, if_neg (by simp [hq])]

/-- The middle loop makes the page directories of one PDPT, or those that are left. -/
theorem Built.fillPdpt {l4 : BitVec 9} {pdpt : Addr} {totalPdts total base : ℕ}
    (hceil : totalPdts = (total + 511) / 512) (left : ℕ) {j pdts pdes pdts' pdes' : ℕ}
    (h : s.Built root (span base (base + pdes) base m)) (hpdpt : s.table root [l4] = some pdpt)
    (hj : j + left = 512)
    (hvacant : ∀ j', j ≤ j' → j' < 512 → (s.mem pdpt (BitVec.ofNat 9 j')).present = false)
    (hregion : pdts < totalPdts → regionAt l4 0#9 0#9 + j * 512 = base + 512 * pdts)
    (hpdts : pdts ≤ totalPdts) (hpdes : pdes = min total (512 * pdts))
    (hloop : PmState.fillPdpt totalPdts total pdpt left j pdts pdes s = .ok ((pdts', pdes'), s')) :
    pdts' = min totalPdts (pdts + left) ∧ pdes' = min total (512 * pdts') ∧
      s'.Built root (span base (base + pdes') base m) ∧ s'.mem root = s.mem root := by
  induction left generalizing s j pdts pdes with
  | zero =>
      obtain ⟨hcounts, rfl⟩ := Prod.mk.inj (Except.ok.inj hloop)
      obtain ⟨rfl, rfl⟩ := Prod.mk.inj hcounts
      exact ⟨by omega, hpdes, h, rfl⟩
  | succ left ih =>
      rw [PmState.fillPdpt] at hloop
      split at hloop
      next hdone =>
        obtain ⟨hcounts, rfl⟩ := Prod.mk.inj (Except.ok.inj hloop)
        obtain ⟨rfl, rfl⟩ := Prod.mk.inj hcounts
        exact ⟨by omega, hpdes, h, rfl⟩
      next hmore =>
        obtain ⟨⟨pd, s₁⟩, hnew, hloop⟩ := exists_of_bind_eq_ok hloop
        obtain ⟨h₁, hpd, hshort, -, hother, hsame⟩ := h.newTable (π := [l4]) (by simp) hpdpt
          (hvacant j le_rfl (by omega)) hnew
        have hpdpt₁ : s₁.table root [l4] = some pdpt := (hshort [l4] le_rfl).trans hpdpt
        -- all page directories before this one are full
        have hexact : pdes = 512 * pdts := by omega
        have hstart : regionAt l4 (BitVec.ofNat 9 j) 0#9 + 0 = base + pdes := by
          rw [regionAt_middle l4 (by omega), Nat.add_zero, hregion (by omega), hexact]
        obtain ⟨pdes₁, s₂, heq, hcount, h₂, htable, hmem⟩ := h₁.fillPd tableEntries hpd (k := 0)
          (Nat.zero_add 512) hstart (show pdes ≤ total by omega)
        rw [show tableEntries = 512 from rfl] at hcount
        dsimp only at hloop
        rw [heq] at hloop
        -- the three tables are different pages
        have hne : pdpt ≠ pd := by
          rintro rfl
          have := (h₁.wf.sep root [l4] root ([l4] ++ [BitVec.ofNat 9 j]) pdpt (has_univ (by simp))
            (has_univ (by simp)) hpdpt₁ hpd).2
          simp at this
        have hroot₁ : root ≠ pdpt := h.ne_root (by simp) (by simp) hpdpt
        have hroot₂ : root ≠ pd := h₁.ne_root (by simp) (by simp) hpd
        -- the entries behind this one are still vacant
        have hvacant₂ : ∀ j', j + 1 ≤ j' → j' < 512 →
            (s₂.mem pdpt (BitVec.ofNat 9 j')).present = false := by
          intro j' hle hlt
          rw [hmem pdpt hne, hsame _ (ofNat_ne (by omega) hlt (by omega))]
          exact hvacant j' (by omega) hlt
        have hregion₂ : pdts + 1 < totalPdts →
            regionAt l4 0#9 0#9 + (j + 1) * 512 = base + 512 * (pdts + 1) := by
          intro hlt
          have := hregion (by omega)
          rw [Nat.add_one_mul j, Nat.mul_add_one 512 pdts, ← Nat.add_assoc, this, Nat.add_assoc]
        obtain ⟨hpdts', hpdes', hbuilt, hroot⟩ := ih h₂ ((htable [l4] (by simp)).trans hpdpt₁)
          (by omega) hvacant₂ hregion₂ (by omega) (by omega) hloop
        refine ⟨by omega, hpdes', hbuilt, ?_⟩
        rw [hroot, hmem root hroot₂, hother root (isTable_root s root) hroot₁]

/-- The outer loop makes the direct map. -/
theorem Built.fillPml4 {totalPdpts totalPdts total : ℕ} (hceil : totalPdts = (total + 511) / 512)
    (hceil' : totalPdpts = (totalPdts + 511) / 512) (hmax : totalPdpts ≤ 255) (left : ℕ)
    {i pdts pdes : ℕ} (h : s.Built root (span (2 ^ 26) (2 ^ 26 + pdes) (2 ^ 26) m))
    (hi : i + left = 256) (hle : i ≤ totalPdpts)
    (hvacant : ∀ l4, 256 + i ≤ l4 → l4 < 512 → (s.mem root (BitVec.ofNat 9 l4)).present = false)
    (hpdts : pdts = min totalPdts (512 * i)) (hpdes : pdes = min total (512 * pdts))
    (hloop : PmState.fillPml4 totalPdpts totalPdts total root left i pdts pdes s = .ok s') :
    s'.Built root (span (2 ^ 26) (2 ^ 26 + total) (2 ^ 26) m) ∧
      (s'.mem root 511#9).present = false := by
  -- when no PDPT is missing any more, no region is
  have hdone : ¬ i < totalPdpts → s.Built root (span (2 ^ 26) (2 ^ 26 + total) (2 ^ 26) m) ∧
      (s.mem root 511#9).present = false := by
    intro hlast
    have hall : pdes = total := by omega
    exact ⟨hall ▸ h, hvacant 511 (by omega) (by omega)⟩
  induction left generalizing s i pdts pdes with
  | zero =>
      obtain rfl := Except.ok.inj hloop
      exact hdone (by omega)
  | succ left ih =>
      rw [PmState.fillPml4] at hloop
      split at hloop
      next hmore =>
        obtain ⟨⟨pdpt, s₁⟩, hnew, hloop⟩ := exists_of_bind_eq_ok hloop
        obtain ⟨h₁, hpdpt, -, hzero, -, hsame⟩ := h.newTable (π := []) (by simp) rfl
          (hvacant (256 + i) le_rfl (by omega)) hnew
        obtain ⟨⟨⟨pdts₁, pdes₁⟩, s₂⟩, hfill, hloop⟩ := exists_of_bind_eq_ok hloop
        -- the regions of this entry follow those that are mapped
        have hregion : pdts < totalPdts →
            regionAt (BitVec.ofNat 9 (256 + i)) 0#9 0#9 + 0 * 512 = 2 ^ 26 + 512 * pdts := by
          intro _
          rw [regionAt_top (by omega)]
          omega
        obtain ⟨hpdts₁, hpdes₁, h₂, hroot⟩ :=
          h₁.fillPdpt hceil tableEntries hpdpt (Nat.zero_add 512)
          (fun j' _ _ => hzero _) hregion (by omega) hpdes hfill
        rw [show tableEntries = 512 from rfl] at hpdts₁
        have hvacant₂ : ∀ l4, 256 + (i + 1) ≤ l4 → l4 < 512 →
            (s₂.mem root (BitVec.ofNat 9 l4)).present = false := by
          intro l4 hlo hhi
          rw [hroot, hsame _ (ofNat_ne (by omega) hhi (by omega))]
          exact hvacant l4 (by omega) hhi
        apply ih h₂ (by omega) (by omega) hvacant₂ (by omega) hpdes₁ hloop
        intro hlast
        have hall : pdes₁ = total := by omega
        exact ⟨hall ▸ h₂, hvacant₂ 511 (by omega) (by omega)⟩
      next hlast =>
        obtain rfl := Except.ok.inj hloop
        exact hdone hlast

/-! ### The kernel's part

Two page directories below the last entry of the root. -/

/-- The entries of one of the kernel's page directories. -/
theorem Built.fillKernelPd {l4 l3 : BitVec 9} {pdptIdx base lo : ℕ} {pd : Addr} (hle : base ≤ lo)
    (hlo : lo - base = (pdptIdx - 510) * 512) (hregion : regionAt l4 l3 0#9 = lo) (left : ℕ) {k : ℕ}
    (h : s.Built root (span base (lo + k) base m)) (hpd : s.table root [l4, l3] = some pd)
    (hk : k + left = 512) :
    (PmState.fillKernelPd pd pdptIdx left k s).Built root (span base (lo + 512) base m) ∧
      (∀ π, π.length ≤ 2 →
        (PmState.fillKernelPd pd pdptIdx left k s).table root π = s.table root π) ∧
      ∀ q, q ≠ pd → (PmState.fillKernelPd pd pdptIdx left k s).mem q = s.mem q := by
  induction left generalizing s k with
  | zero =>
      obtain rfl : k = 512 := by omega
      exact ⟨h, fun _ _ => rfl, fun _ _ => rfl⟩
  | succ left ih =>
      obtain ⟨h₁, htable₁⟩ := h.store hpd (BitVec.ofNat 9 k)
        (BitVec.ofNat 64 ((pdptIdx - 510) * 1024 * 1024 * 1024 + k * 2 * 1024 * 1024))
      have hphys : (pdptIdx - 510) * 1024 * 1024 * 1024 + k * 2 * 1024 * 1024 =
          (lo + k - base) * 2 ^ 21 := by
        omega
      -- entry `k` maps region `k` of this directory
      have hspan : span base (lo + (k + 1)) base m = Function.update (span base (lo + k) base m)
          (regionAt l4 l3 (BitVec.ofNat 9 k)) (some (BitVec.ofNat 64
            ((pdptIdx - 510) * 1024 * 1024 * 1024 + k * 2 * 1024 * 1024))) := by
        rw [← Nat.add_assoc, span_succ (by omega), regionAt_ofNat l4 l3 (by omega), hregion, hphys]
      rw [← hspan] at h₁
      obtain ⟨hbuilt, htable, hmem⟩ := ih h₁ ((htable₁ [l4, l3] le_rfl).trans hpd) (by omega)
      refine ⟨hbuilt, fun π hπ => (htable π hπ).trans (htable₁ π hπ), fun q hq => ?_⟩
      apply (hmem q hq).trans
      funext j
      rw [store_mem, write_apply, if_neg (by simp [hq])]

/-- One page directory of the kernel. -/
theorem Built.kernelPd {l4 : BitVec 9} {pdptIdx base lo : ℕ} {pdpt : Addr} (hle : base ≤ lo)
    (hlo : lo - base = (pdptIdx - 510) * 512)
    (hregion : regionAt l4 (BitVec.ofNat 9 pdptIdx) 0#9 = lo)
    (h : s.Built root (span base lo base m)) (hpdpt : s.table root [l4] = some pdpt)
    (hvacant : (s.mem pdpt (BitVec.ofNat 9 pdptIdx)).present = false)
    (hmade : s.kernelPd pdpt pdptIdx = .ok s') :
    s'.Built root (span base (lo + 512) base m) ∧ s'.table root [l4] = some pdpt ∧
      ∀ j, j ≠ BitVec.ofNat 9 pdptIdx → s'.mem pdpt j = s.mem pdpt j := by
  obtain ⟨⟨pd, s₁⟩, hnew, hmade⟩ := exists_of_bind_eq_ok hmade
  obtain ⟨h₁, hpd, hshort, -, -, hsame⟩ := h.newTable (π := [l4]) (by simp) hpdpt hvacant hnew
  have hpdpt₁ : s₁.table root [l4] = some pdpt := (hshort [l4] le_rfl).trans hpdpt
  obtain ⟨hbuilt, htable, hmem⟩ :=
    Built.fillKernelPd (k := 0) hle hlo hregion tableEntries h₁ hpd (Nat.zero_add 512)
  obtain rfl := Except.ok.inj hmade
  have hne : pdpt ≠ pd := by
    rintro rfl
    have := (h₁.wf.sep root [l4] root ([l4] ++ [BitVec.ofNat 9 pdptIdx]) pdpt
      (has_univ (by simp)) (has_univ (by simp)) hpdpt₁ hpd).2
    simp at this
  refine ⟨hbuilt, (htable [l4] (by simp)).trans hpdpt₁, fun j hj => ?_⟩
  rw [hmem pdpt hne, hsame j hj]

/-! ### The whole of `init_hhdm`

The three maps one after another, on a root that is new. The image comes first and stays below the
direct map, so that no map takes the place of another. -/

/-- A new root maps nothing. -/
theorem built_root {s₁ : PmState σ} (halloc : s.allocPage = .ok (root, s₁)) :
    s₁.Built root (fun _ => none) ∧ ∀ i, (s₁.mem root i).present = false := by
  unfold allocPage at halloc
  dsimp only at halloc
  split at halloc
  · cases halloc
  next hne =>
    obtain ⟨rfl, rfl⟩ := Prod.mk.inj (Except.ok.inj halloc)
    have hzero : ∀ i, (s.allocPages.2.clear s.allocPages.1).mem s.allocPages.1 i = 0#64 := by
      simp [clear]
    have hvacant : ∀ i, ((s.allocPages.2.clear s.allocPages.1).mem s.allocPages.1 i).present =
        false := fun i => (congrArg Entry.present (hzero i)).trans Entry.present_zero
    refine ⟨⟨wf_of_zero hne (LawfulPageAllocator.alloc_mem s.pmm hne) fun i _ => hzero i,
      fun π hlen => ?_, fun π p i hlen hp hpresent => ?_, fun va => ?_⟩, hvacant⟩
    · cases π with
      | nil => simp at hlen
      | cons i π => simp only [table, node, hzero, Entry.child_zero, Option.bind_none]
    · cases π with
      | nil =>
          obtain rfl := Option.some.inj hp
          rw [hvacant] at hpresent
          cases hpresent
      | cons i π =>
          simp only [table, node, hzero, Entry.child_zero, Option.bind_none] at hp
          cases hp
    · rw [leaf_of_table (π := []) rfl rfl, findFrom_of_not_present (hvacant _)]
      rfl

/-- `init_hhdm` adds its three maps. -/
theorem built_initHhdm {fuel : ℕ} {maxPhysAddr imageBase imageSize : Addr}
    (hmax : maxPhysAddr.toNat ≤ 255 * 2 ^ 39)
    (himage : imageBase.toNat + imageSize.toNat ≤ 2 ^ 47)
    (hinit : s.initHhdm fuel maxPhysAddr imageBase imageSize = .ok (root, s')) :
    ∃ hi, imageBase.toNat + imageSize.toNat ≤ hi * 2 ^ 21 ∧
      s'.Built root (span (2 ^ 27 - 1024) (2 ^ 27) (2 ^ 27 - 1024)
        (span (2 ^ 26) (2 ^ 26 + (maxPhysAddr.toNat + 0x1FFFFF) / 2 ^ 21) (2 ^ 26)
          (span (imageBase.toNat / 2 ^ 21) hi 0 fun _ => none))) := by
  obtain ⟨⟨pml4, s₁⟩, halloc, hinit⟩ := exists_of_bind_eq_ok hinit
  obtain ⟨s₂, hidentity, hinit⟩ := exists_of_bind_eq_ok hinit
  obtain ⟨s₃, hfill, hinit⟩ := exists_of_bind_eq_ok hinit
  obtain ⟨⟨pdpt, s₄⟩, hnew, hinit⟩ := exists_of_bind_eq_ok hinit
  obtain ⟨s₅, hfirst, hinit⟩ := exists_of_bind_eq_ok hinit
  obtain ⟨s₆, hsecond, hinit⟩ := exists_of_bind_eq_ok hinit
  obtain ⟨rfl, rfl⟩ := Prod.mk.inj (Except.ok.inj hinit)
  obtain ⟨h₁, hvacant₁⟩ := built_root halloc
  have hend : (imageBase + imageSize).toNat = imageBase.toNat + imageSize.toNat := by
    rw [BitVec.toNat_add, Nat.mod_eq_of_lt (by omega)]
  have hstart : (imageBase &&& ~~~0x1FFFFF#64).toNat = imageBase.toNat / 2 ^ 21 * 2 ^ 21 :=
    Word.toNat_and_high (a := 21) (by decide) (by decide) imageBase
  have hlo : (imageBase &&& ~~~0x1FFFFF#64).toNat / 2 ^ 21 = imageBase.toNat / 2 ^ 21 := by
    rw [hstart, Nat.mul_div_cancel _ (by decide)]
  -- the loader's image
  rw [← span_self (imageBase.toNat / 2 ^ 21) 0 fun _ => none, ← hlo] at h₁
  obtain ⟨⟨hi, hhi, h₂⟩, hroot₂⟩ := h₁.identityLoop (by omega) fuel
    (by rw [hstart]; exact Nat.dvd_mul_left _ _) (by omega) hidentity
  rw [hlo] at h₂
  refine ⟨hi, by omega, ?_⟩
  -- the direct map
  have htotal : ((maxPhysAddr + 0x1FFFFF#64) >>> 21).toNat =
      (maxPhysAddr.toNat + 0x1FFFFF) / 2 ^ 21 := by
    rw [BitVec.toNat_ushiftRight, Nat.shiftRight_eq_div_pow, BitVec.toNat_add,
      show (0x1FFFFF#64).toNat = 0x1FFFFF from rfl, Nat.mod_eq_of_lt (by omega)]
  rw [htotal] at hfill
  simp only [Nat.shiftRight_eq_div_pow] at hfill
  obtain ⟨total, htotal'⟩ : ∃ total, total = (maxPhysAddr.toNat + 0x1FFFFF) / 2 ^ 21 := ⟨_, rfl⟩
  rw [← htotal'] at hfill ⊢
  rw [← span_self (2 ^ 26) (2 ^ 26) (span _ _ _ _)] at h₂
  have hvacant₂ : ∀ l4, 256 + 0 ≤ l4 → l4 < 512 →
      (s₂.mem pml4 (BitVec.ofNat 9 l4)).present = false := by
    intro l4 hle hlt
    rw [hroot₂ _ fun huser => ?_]
    · exact hvacant₁ _
    · have := (ofNat_mem_userTop hlt).mp huser
      omega
  obtain ⟨h₃, hvacant₃⟩ := h₂.fillPml4 (i := 0) rfl rfl (by omega) 256 (by omega) (by omega)
    hvacant₂ (by omega) (by omega) hfill
  -- the kernel
  rw [← span_self (2 ^ 27 - 1024) (2 ^ 27 - 1024) (span _ _ _ _)] at h₃
  obtain ⟨h₄, hpdpt, -, hzero, -, -⟩ := h₃.newTable (π := []) (by simp) rfl hvacant₃ hnew
  obtain ⟨h₅, hpdpt₅, hsame₅⟩ := h₄.kernelPd le_rfl (by omega) (by decide) hpdpt (hzero _) hfirst
  obtain ⟨h₆, -, -⟩ := h₅.kernelPd (by omega) (by omega) (by decide) hpdpt₅
    (by rw [hsame₅ _ (by decide)]; exact hzero _) hsecond
  exact h₆

/-- The hardware finds what the tables were built for. -/
theorem Built.mmuTranslate (h : s.Built root m) {va phys : Addr} (hva : Kernel.canonical va = true)
    (hm : m (region va) = some phys) (hphys : phys &&& pdAddrMask = phys) :
    Kernel.mmuTranslate s.mem root va = some (phys + (va &&& 0x1FFFFF#64)) := by
  have hleaf := h.leaf_eq va
  rw [hm] at hleaf
  rcases h.wf.walk_cases rfl (Set.mem_univ (pml4Index va)) with ⟨hnone, -, -⟩ |
    ⟨pd, hpd, hhuge, hfound, -, -⟩ | ⟨_, _, _, -, -, -, hfound, -, -⟩
  · rw [hnone] at hleaf
    cases hleaf
  · -- the three entries of the walk
    obtain ⟨pdpt, hpdpt, hchild₃⟩ := Option.bind_eq_some_iff.mp
      ((s.table_snoc root [pml4Index va] (pdptIndex va)).symm.trans hpd)
    obtain ⟨hpresent₄, -, haddr₄⟩ := Entry.child_eq_some_iff.mp
      ((s.table_snoc root [] (pml4Index va)).symm.trans hpdpt)
    obtain ⟨hpresent₃, hhuge₃, haddr₃⟩ := Entry.child_eq_some_iff.mp hchild₃
    rw [hfound] at hleaf
    have hentry : s.mem pd (pdIndex va) = bootHuge phys :=
      congrArg Prod.fst (Option.some.inj hleaf)
    simp only [Kernel.mmuTranslate, haddr₄, haddr₃, hva, hpresent₄, hpresent₃, hhuge₃, hentry,
      present_bootHuge, huge_bootHuge, bootHuge_and_mask hphys]
    simp
  · rw [hfound] at hleaf
    simp at hleaf

/-! ### Addresses

From regions to addresses: both translations are `phys + HHDM_OFFSET` in the other direction, for
the loader and for `vmm_init`. -/

/-- The hardware accepts the addresses of both halves. -/
theorem canonical_iff {va : Addr} :
    Kernel.canonical va = true ↔ va.toNat < 2 ^ 47 ∨ 2 ^ 64 - 2 ^ 47 ≤ va.toNat := by
  have hmsb : (va.setWidth 48).msb = decide (2 ^ 47 ≤ va.toNat % 2 ^ 48) := by
    rw [BitVec.msb_eq_decide, BitVec.toNat_setWidth]
  rw [Kernel.canonical, decide_eq_true_eq, ← BitVec.toNat_inj, BitVec.toNat_signExtend, hmsb,
    BitVec.toNat_setWidth, BitVec.toNat_setWidth]
  have := va.isLt
  split
  next hhigh =>
    have := of_decide_eq_true hhigh
    omega
  next hlow =>
    have := of_decide_eq_false (Bool.not_eq_true _ ▸ hlow)
    omega

/-- The addresses of the lowest and the highest 2^47 bytes are canonical. -/
theorem canonical_of_toNat {va : Addr} (h : va.toNat < 2 ^ 47 ∨ 2 ^ 64 - 2 ^ 47 ≤ va.toNat) :
    Kernel.canonical va = true :=
  canonical_iff.mpr h

/-- Multiples of 2 MiB fit the address bits of an entry. -/
theorem ofNat_and_pdAddrMask {n : ℕ} (hn : n < 2 ^ 31) :
    BitVec.ofNat 64 (n * 2 ^ 21) &&& pdAddrMask = BitVec.ofNat 64 (n * 2 ^ 21) := by
  rw [← BitVec.toNat_inj, Word.toNat_and_mask (a := 21) (w := 31) (by decide), BitVec.toNat_ofNat,
    Nat.mod_eq_of_lt (by omega : n * 2 ^ 21 < 2 ^ 64)]
  omega

/-- An address in a region that is mapped from `base` on. -/
theorem Built.translates (h : s.Built root m) {va p : Addr} (base : ℕ)
    (hva : va.toNat < 2 ^ 47 ∨ 2 ^ 64 - 2 ^ 47 ≤ va.toNat)
    (hm : m (region va) = some (BitVec.ofNat 64 ((region va - base) * 2 ^ 21)))
    (hp : p.toNat = (region va - base) * 2 ^ 21 + va.toNat % 2 ^ 21) (hbound : p.toNat < 2 ^ 52) :
    Kernel.mmuTranslate s.mem root va = some p := by
  rw [h.mmuTranslate (canonical_of_toNat hva) hm (ofNat_and_pdAddrMask (by omega)),
    Option.some.injEq, ← BitVec.toNat_inj, BitVec.toNat_add, BitVec.toNat_ofNat,
    Word.toNat_and_low (w := 21) (by decide)]
  omega

end PmState

/-- `HHDM_OFFSET`. -/
def hhdmOffset : Addr := 0xFFFF800000000000#64

/-- Where the kernel is linked to. -/
def kernelOffset : Addr := 0xFFFFFFFF80000000#64

/-- The direct map begins 2^47 bytes before the end of the address space. -/
theorem toNat_hhdm {p : Addr} (hp : p.toNat < 2 ^ 47) :
    (hhdmOffset + p).toNat = 2 ^ 64 - 2 ^ 47 + p.toNat := by
  rw [BitVec.toNat_add, show hhdmOffset.toNat = 2 ^ 64 - 2 ^ 47 from rfl, Nat.mod_eq_of_lt]
  omega

namespace PmState

variable {σ : Type} [PageAllocator σ] [LawfulPageAllocator σ] {s s' : PmState σ} {root : Addr}

/-- The pages of 2 MiB are the regions. -/
theorem samePage_huge_iff {flags : BitVec 32} (hflags : hasProt flags protHuge = true)
    {va va' : Addr} : SamePage flags va va' ↔ region va' = region va := by
  rw [SamePage, if_pos hflags, region_eq, region_eq]
  constructor
  · intro h
    simp only [path, List.take_succ_cons, List.take_zero, List.cons.injEq, and_true] at h
    rw [h.1, h.2.1, h.2.2]
  · intro h
    obtain ⟨h4, h3, h2⟩ := regionAt_inj h
    simp only [path, List.take_succ_cons, List.take_zero, h4, h3, h2]

/-- The direct map of `vmm_init`. -/
theorem extract_of_vmmInit {s₀ s₁ : PmState σ} {fuel : ℕ} {maxPhysAddr p : Addr}
    (hinit : s₀.pmapInit = (some root, s₁)) (hmax : maxPhysAddr.toNat ≤ 255 * 2 ^ 39)
    (hmap : s₁.pmapMap fuel root hhdmOffset 0 maxPhysAddr (protRead ||| protWrite ||| protHuge) =
      some (true, s')) (hp : p.toNat < maxPhysAddr.toNat) :
    s'.pmapExtract root (hhdmOffset + p) = p := by
  have hwf := (kernelTables_pmapInit hinit).wf
  obtain ⟨flags, hflags⟩ : ∃ flags, flags = protRead ||| protWrite ||| protHuge := ⟨_, rfl⟩
  rw [← hflags] at hmap
  have hhuge : hasProt flags protHuge = true := by rw [hflags]; decide
  have hstep : (mapStep flags).toNat = 2 ^ 21 := by rw [toNat_mapStep, if_pos hhuge]
  have hstart : (mapStart flags hhdmOffset).toNat = 2 ^ 64 - 2 ^ 47 := by
    rw [mapStart, toNat_round, hstep]
    rfl
  have hend : (mapEnd flags hhdmOffset maxPhysAddr).toNat =
      (2 ^ 64 - 2 ^ 47 + maxPhysAddr.toNat + (2 ^ 21 - 1)) / 2 ^ 21 * 2 ^ 21 := by
    have hmask : (mapStep flags - 1).toNat = 2 ^ 21 - 1 := by rw [hflags]; decide
    rw [mapEnd, toNat_round, hstep, BitVec.toNat_add, toNat_hhdm (by omega), hmask,
      Nat.mod_eq_of_lt (by omega)]
  have htop : InTop (forest {root} kernelTop) (mapStart flags hhdmOffset)
      (mapEnd flags hhdmOffset maxPhysAddr) := by
    intro va hle _
    rw [BitVec.le_def, hstart] at hle
    have := va.isLt
    show 256#9 ≤ pml4Index va
    rw [BitVec.le_def, toNat_pml4Index]
    show 256 ≤ va.toNat / 2 ^ 39 % 512
    omega
  have hmapped := hwf.pmapMap rfl htop (fun hnot => absurd hhuge (by simp [hnot])) hmap
  -- the `k`-th page is the `k`-th region of the upper half
  have hpage : ∀ k < 2 ^ 26,
      region (pageAt flags (mapStart flags hhdmOffset) k) = 2 ^ 26 + k := by
    intro k hk
    rw [region, pageAt, BitVec.toNat_add, BitVec.toNat_mul, BitVec.toNat_ofNat, hstart, hstep]
    omega
  have hregion : region (hhdmOffset + p) = 2 ^ 26 + p.toNat / 2 ^ 21 := by
    rw [region, toNat_hhdm (by omega)]
    omega
  have hcount : mapCount flags hhdmOffset maxPhysAddr =
      (maxPhysAddr.toNat + (2 ^ 21 - 1)) / 2 ^ 21 := by
    have hsize : maxPhysAddr ≠ 0 := by
      rintro rfl
      exact absurd hp (by simp)
    rw [mapCount, if_neg hsize, hend, hstart, hstep]
    omega
  have hva : pml4Index (hhdmOffset + p) ∈ (forest {root} kernelTop).top := by
    show 256#9 ≤ pml4Index (hhdmOffset + p)
    rw [BitVec.le_def, toNat_pml4Index, toNat_hhdm (by omega)]
    show 256 ≤ (2 ^ 64 - 2 ^ 47 + p.toNat) / 2 ^ 39 % 512
    omega
  have hleaf := hmapped.inside rfl (hhdmOffset + p) hva (p.toNat / 2 ^ 21) (by omega)
    ((samePage_huge_iff hhuge).mpr (by rw [hpage _ (by omega), hregion]))
    fun j hj hlt hsame => by
      rw [samePage_huge_iff hhuge, hpage j (by omega), hregion] at hsame
      omega
  have hframe : (pageAt flags (mapStart flags 0) (p.toNat / 2 ^ 21)).toNat =
      p.toNat / 2 ^ 21 * 2 ^ 21 := by
    have hzero : (mapStart flags 0).toNat = 0 := by
      rw [mapStart, toNat_round]
      simp
    rw [pageAt, BitVec.toNat_add, BitVec.toNat_mul, BitVec.toNat_ofNat, hstep, hzero]
    omega
  rw [(hmapped.moves.step hwf).wf.extract_of_mappedLeaf rfl hva hleaf, translation, if_pos hhuge,
    ← BitVec.toNat_inj, BitVec.toNat_add, Word.toNat_and_mask (a := 21) (w := 31) (by decide),
    Word.toNat_and_low (w := 21) (by decide), toNat_hhdm (by omega), hframe]
  omega

/-- The direct maps of the boot loader and of the kernel agree: both map `HHDM_OFFSET + p` to `p`,
for all of memory. The boot loader also maps the first 2 GiB where the kernel is linked to, and its
own image one to one. -/
theorem directMap_agree {maxPhysAddr imageBase imageSize : Addr} (hpos : 0 < maxPhysAddr.toNat)
    (hmax : maxPhysAddr.toNat ≤ 255 * 2 ^ 39)
    (himage : imageBase.toNat + imageSize.toNat ≤ 2 ^ 47) :
    (∀ (fuel : ℕ) (s s' : PmState σ) (root : Addr),
      s.initHhdm fuel maxPhysAddr imageBase imageSize = .ok (root, s') →
      (∀ p : Addr, p.toNat < maxPhysAddr.toNat →
        Kernel.mmuTranslate s'.mem root (hhdmOffset + p) = some p) ∧
      (∀ q : Addr, q.toNat < 2 ^ 31 →
        Kernel.mmuTranslate s'.mem root (kernelOffset + q) = some q) ∧
      ∀ va : Addr, imageBase.toNat ≤ va.toNat → va.toNat < imageBase.toNat + imageSize.toNat →
        Kernel.mmuTranslate s'.mem root va = some va) ∧
    ∀ (fuel : ℕ) (s₀ s₁ s' : PmState σ) (root : Addr), s₀.pmapInit = (some root, s₁) →
      s₁.pmapMap fuel root hhdmOffset 0 maxPhysAddr (protRead ||| protWrite ||| protHuge) =
        some (true, s') →
      ∀ p : Addr, p.toNat < maxPhysAddr.toNat → s'.pmapExtract root (hhdmOffset + p) = p := by
  refine ⟨fun fuel s s' root hinit => ?_, fun fuel s₀ s₁ s' root hinit hmap p hp =>
    extract_of_vmmInit hinit hmax hmap hp⟩
  -- the loader maps three ranges of regions, the last of which is looked at first
  obtain ⟨hi, hhi, h⟩ := built_initHhdm hmax himage hinit
  refine ⟨fun p hp => ?_, fun q hq => ?_, fun va hle hlt => ?_⟩
  · have hva := toNat_hhdm (show p.toNat < 2 ^ 47 by omega)
    have hregion : region (hhdmOffset + p) = 2 ^ 26 + p.toNat / 2 ^ 21 := by
      rw [region, hva]
      omega
    refine h.translates (2 ^ 26) (by omega) ?_ (by omega) (by omega)
    rw [hregion, span, if_neg (by omega), span, if_pos (by omega)]
  · have hva : (kernelOffset + q).toNat = 2 ^ 64 - 2 ^ 31 + q.toNat := by
      rw [BitVec.toNat_add, show kernelOffset.toNat = 2 ^ 64 - 2 ^ 31 from rfl, Nat.mod_eq_of_lt]
      omega
    have hregion : region (kernelOffset + q) = 2 ^ 27 - 1024 + q.toNat / 2 ^ 21 := by
      rw [region, hva]
      omega
    refine h.translates (2 ^ 27 - 1024) (by omega) ?_ (by omega) (by omega)
    rw [hregion, span, if_pos (by omega)]
  · have hregion : region va = va.toNat / 2 ^ 21 := by
      rw [region, Nat.mod_eq_of_lt (by omega)]
    refine h.translates 0 (by omega) ?_ (by omega) (by omega)
    rw [hregion, span, if_neg (by omega), span, if_neg (by omega), span, if_pos (by omega)]

/-- A machine with 2 MiB of memory, whose boot loader is at 1 MiB. -/
theorem directMap_agree_small :
    (∃ root s', blank.initHhdm 2 0x200000#64 0x100000#64 0x1000#64 = .ok (root, s') ∧
      Kernel.mmuTranslate s'.mem root (hhdmOffset + 0x12345#64) = some 0x12345#64 ∧
      Kernel.mmuTranslate s'.mem root (kernelOffset + 0x7FFFFFFF#64) = some 0x7FFFFFFF#64 ∧
      Kernel.mmuTranslate s'.mem root 0x100008#64 = some 0x100008#64) ∧
    ∃ root s₁ s', blank.pmapInit = (some root, s₁) ∧
      s₁.pmapMap 2 root hhdmOffset 0 0x200000#64 (protRead ||| protWrite ||| protHuge) =
        some (true, s') ∧
      s'.pmapExtract root (hhdmOffset + 0x12345#64) = 0x12345#64 := by
  -- two megabytes of memory, with the image at one megabyte
  obtain ⟨hboot, hkernel⟩ := @directMap_agree BumpAllocator _ _ 0x200000#64 0x100000#64 0x1000#64
    (by decide) (by decide) (by decide)
  constructor
  · have hok : (blank.initHhdm 2 0x200000#64 0x100000#64 0x1000#64).isOk = true := by
      decide +kernel
    obtain ⟨⟨root, s'⟩, hinit⟩ : ∃ x,
      blank.initHhdm 2 0x200000#64 0x100000#64 0x1000#64 = .ok x := by
      cases hcase : blank.initHhdm 2 0x200000#64 0x100000#64 0x1000#64 with
      | error e => rw [hcase] at hok; cases hok
      | ok x => exact ⟨x, rfl⟩
    obtain ⟨hhdm, hlinked, himage⟩ := hboot 2 blank s' root hinit
    exact ⟨root, s', hinit, hhdm _ (by decide), hlinked _ (by decide),
      himage _ (by decide) (by decide)⟩
  · have hcheck : ((blank.pmapInit.2.pmapMap 2 0x1000#64 hhdmOffset 0 0x200000#64
        (protRead ||| protWrite ||| protHuge)).any fun x => x.1) = true := by
      decide +kernel
    obtain ⟨⟨ok, s'⟩, hmap, rfl⟩ := (Option.any_eq_true _ _).mp hcheck
    exact ⟨0x1000#64, blank.pmapInit.2, s', rfl, hmap,
      hkernel 2 blank blank.pmapInit.2 s' 0x1000#64 rfl hmap _ (by decide)⟩

end PmState

end Koharu
