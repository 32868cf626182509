import Koharu.Arch.PmapIsolation
import Koharu.Task.MapAuthority

/-!
# The kernel half under system calls

Every address space has the same kernel half: `pmap_create` copies 256 entries of the top level, and
the tables below them are shared. `SYS_MAP`, `SYS_UNMAP` and `SYS_THREAD_CONTROL` work on the tables
of the user half and are handed addresses and pointers by user threads.

The invariant says that the kernel half of every space is that of boot, while the trees of the user
halves are apart from each other and from the tables of the kernel (`Isolated`), and that threads
run in spaces that there are. A system call that is `Allowed` works on the user half of one space:
moves of its tree leave all pages outside of the tree alone. A store through the active address
space goes to a page that is none of the tables, and the walk that finds this page is not changed by
it.

`kernelHalfKept_of_run` says what they have to be handed for the kernel half to stay as it was at
boot (`Allowed`). None of it is checked by the kernel: `sysMap_kernel_half` is a run that maps a
page into the kernel half of all address spaces.
-/

namespace Koharu

open Radix PmState

namespace Kernel

variable {σ : Type} {s s' : Kernel σ}

/-- The state that a system call leaves. -/
def Outcome.state : Outcome σ → Kernel σ
  | .returned _ s => s
  | .exited s => s

/-- The tables of the top level of all pmaps. -/
def roots (s : Kernel σ) : Set Addr := {r | ∃ ptr p, s.pmaps ptr = some p ∧ p.rootPhys = r}

/-! ### Stores of the kernel to user memory

The kernel stores through the active page tables without a check, so that where a store goes is a
question of the translation. -/

/-- The hardware reads the entries of a walk. -/
theorem mmuTranslate_congr {mem mem' : Addr → BitVec 9 → Entry} {root va : Addr}
    (hhuge : (mem root (pml4Index va)).huge = false)
    (h : ∀ π i π' q, path va = π ++ i :: π' → node Entry.child mem root π = some q →
      mem' q i = mem q i) :
    mmuTranslate mem' root va = mmuTranslate mem root va := by
  have h4 : mem' root (pml4Index va) = mem root (pml4Index va) := h [] _ _ root rfl rfl
  simp only [mmuTranslate, h4]
  cases hpresent4 : (mem root (pml4Index va)).present with
  | false => simp
  | true =>
      -- at each level the entry read is one of those on the path
      have hpdpt : node Entry.child mem root [pml4Index va] =
          some (mem root (pml4Index va)).addr := by
        simp [node, Entry.child_eq_some hpresent4 hhuge]
      have h3 := h [pml4Index va] (pdptIndex va) _ _ rfl hpdpt
      rw [h3]
      cases hpresent3 : (mem (mem root (pml4Index va)).addr (pdptIndex va)).present with
      | false => simp
      | true =>
          cases hhuge3 : (mem (mem root (pml4Index va)).addr (pdptIndex va)).huge with
          | true => simp
          | false =>
              have hpd : node Entry.child mem root [pml4Index va, pdptIndex va] =
                  some (mem (mem root (pml4Index va)).addr (pdptIndex va)).addr := by
                apply (node_snoc root [pml4Index va] (pdptIndex va)).trans
                rw [hpdpt]
                exact Entry.child_eq_some hpresent3 hhuge3
              have h2 := h [pml4Index va, pdptIndex va] (pdIndex va) _ _ rfl hpd
              rw [h2]
              generalize hpd' : (mem (mem root (pml4Index va)).addr (pdptIndex va)).addr = pd at *
              cases hpresent2 : (mem pd (pdIndex va)).present with
              | false => simp
              | true =>
                  cases hhuge2 : (mem pd (pdIndex va)).huge with
                  | true => simp
                  | false =>
                      have hpt : node Entry.child mem root
                          [pml4Index va, pdptIndex va, pdIndex va] =
                          some (mem pd (pdIndex va)).addr := by
                        apply (node_snoc root [pml4Index va, pdptIndex va] (pdIndex va)).trans
                        rw [hpd]
                        exact Entry.child_eq_some hpresent2 hhuge2
                      have h1 := h [pml4Index va, pdptIndex va, pdIndex va] (ptIndex va) _ _ rfl hpt
                      rw [h1]

/-- What `mapM` collects. -/
theorem exists_of_mem_mapM {α β : Type} {f : α → Option β} {l : List α} {l' : List β}
    (h : l.mapM f = some l') {b : β} (hb : b ∈ l') : ∃ a ∈ l, f a = some b := by
  induction l generalizing l' with
  | nil =>
      cases h
      cases hb
  | cons a l ih =>
      rw [List.mapM_cons] at h
      obtain ⟨b', hb', h⟩ := Option.bind_eq_some_iff.mp h
      obtain ⟨l'', hl'', h⟩ := Option.bind_eq_some_iff.mp h
      cases h
      rcases List.mem_cons.mp hb with rfl | hb
      · exact ⟨a, List.mem_cons_self, hb'⟩
      · obtain ⟨a', ha', hf⟩ := ih hl'' hb
        exact ⟨a', List.mem_cons_of_mem a ha', hf⟩

/-- Bytes stored outside a page leave the page. -/
theorem foldl_storeByte_of_ne {q : Addr} (bytes : List (Addr × BitVec 8))
    (mem : Addr → BitVec 9 → Entry) (h : ∀ b ∈ bytes, pageOf b.1 ≠ q) :
    bytes.foldl (fun mem b => storeByte mem b.1 b.2) mem q = mem q := by
  induction bytes generalizing mem with
  | nil => rfl
  | cons b bytes ih =>
      rw [List.foldl_cons, ih _ fun b' hb' => h b' (List.mem_cons_of_mem b hb')]
      have hne : q ≠ pageOf b.1 := (h b List.mem_cons_self).symm
      simp [storeByte, write, hne]

/-- `put_user_u64` changes the pages that its eight bytes lie in. -/
theorem putUserU64_eq {dst : Addr} {val : BitVec 64} (h : s.putUserU64 dst val = some s') :
    ∃ mem, s' = { s with pm := { s.pm with mem } } ∧
      ∀ q, (∀ j < 8, ∀ phys, mmuTranslate s.pm.mem s.cr3 (dst + BitVec.ofNat 64 j) = some phys →
        pageOf phys ≠ q) → mem q = s.pm.mem q := by
  obtain ⟨bytes, hbytes, h⟩ := Option.bind_eq_some_iff.mp h
  split at h
  · cases h
  · cases h
    refine ⟨_, rfl, fun q hq => foldl_storeByte_of_ne bytes _ fun b hb => ?_⟩
    obtain ⟨j, hj, hmap⟩ := exists_of_mem_mapM hbytes hb
    obtain ⟨phys, hphys, rfl⟩ := Option.map_eq_some_iff.mp hmap
    exact hq j (List.mem_range.mp hj) phys hphys

/-! ### The invariant

The entries of the kernel half are those that the kernel's own pmap has. The record of frees says
which pages can still be tables. -/

section Invariant

variable [PageAllocator σ] [LawfulPageAllocator σ] {s₀ : Kernel σ} {k : Addr}

/-- The address spaces have the kernel half of `s₀`, where `k` is the table of the top level of the
kernel's pmap, and threads run in address spaces that are there. -/
structure Inv (s₀ : Kernel σ) (k : Addr) (s : Kernel σ) : Prop where
  isolated : Isolated s₀.pm k s.roots s.pm
  kernel : (s.pmaps s.kernelPmap).map Pmap.rootPhys = some k
  active : s.cr3 ∈ s.roots
  live : ∀ tid, s.registered tid = true → (s.pmaps (s.thread tid).pmap).isSome

/-- The state after boot. The record of what is given back to the page allocator starts here. -/
structure Booted (s₀ : Kernel σ) (k : Addr) : Prop where
  root_ne : k ≠ 0
  wf : s₀.pm.Wf (forest {k} kernelTop)
  trace : s₀.pm.trace = []
  inv : Inv s₀ k s₀

omit [PageAllocator σ] [LawfulPageAllocator σ] in
/-- The root of a pmap in the store is one of the roots. -/
theorem mem_roots {ptr : Addr} {p : Pmap} (h : s.pmaps ptr = some p) : p.rootPhys ∈ s.roots :=
  ⟨ptr, p, h, rfl⟩

/-- The kernel's root is one of the roots. -/
theorem Inv.kernel_mem (h : Inv s₀ k s) : k ∈ s.roots := by
  obtain ⟨p, hp, rfl⟩ := Option.map_eq_some_iff.mp h.kernel
  exact mem_roots hp

/-- Changes of the tables that keep the kernel half, and of the counters. -/
theorem Inv.update (h : Inv s₀ k s) {pm : PmState σ} (hpm : Isolated s₀.pm k s.roots pm)
    (maps : BitVec 64 → BitVec 16) : Inv s₀ k { s with pm, maps } :=
  ⟨hpm, h.kernel, h.active, h.live⟩

/-! ### `SYS_MAP` -/

/-- The pages to map are in the user half, and none of them lies in a huge page so far. -/
def MapAllowed (s : Kernel σ) (root va size : Addr) (flags : BitVec 32) : Prop :=
  (∀ va', mapStart flags va ≤ va' → va' < mapEnd flags va size → pml4Index va' ∈ userTop) ∧
    (hasProt flags protHuge = false → s.pm.NoHuge root (mapStart flags va) (mapEnd flags va size))

/-- `SYS_MAP` keeps the kernel halves equal when each call it lets through is allowed. -/
theorem Inv.sysMap (h : Inv s₀ k s) {fuel : ℕ} {a1 a2 a3 a4 a5 v : BitVec 64}
    (hallowed : MapChecked fuel s a1 a3 a4 a5 → ∀ p, s.pmaps (s.thread a1).pmap = some p →
      s.MapAllowed p.rootPhys a2 a4 (mapFlags a5))
    (hcall : s.sysMap fuel a1 a2 a3 a4 a5 = some (v, s')) : Inv s₀ k s' := by
  obtain ⟨-, rfl⟩ | ⟨hchecked, p, ok, pm, maps, hp, hmap, rfl, -⟩ := sysMap_cases hcall
  · exact h
  · obtain ⟨huser, hnot⟩ := hallowed hchecked p hp
    have hmapped := h.isolated.wf.pmapMap (mem_roots hp) huser hnot hmap
    exact h.update (h.isolated.step (hmapped.moves.step h.isolated.wf)) maps

/-! ### `SYS_UNMAP` -/

omit [PageAllocator σ] [LawfulPageAllocator σ] in
/-- The page after one of the user half. -/
theorem toNat_add_page {va : Addr} (hva : pml4Index va ∈ userTop) :
    (va + pageSize).toNat = va.toNat + 4096 := by
  have hlow : (pml4Index va).toNat < 256 := hva
  rw [toNat_pml4Index] at hlow
  rw [BitVec.toNat_add, show pageSize.toNat = 4096 from rfl, Nat.mod_eq_of_lt (by omega)]

/-- The loop of `SYS_UNMAP`. -/
theorem Inv.unmapPages (h : Inv s₀ k s) {pmap vaEnd : Addr} (fuel : ℕ) {va : Addr}
    (halign : va &&& ~~~0xFFF#64 = va)
    (huser : ∀ va', va ≤ va' → va' < vaEnd → pml4Index va' ∈ userTop)
    (hloop : unmapPages pmap vaEnd fuel va s = some s') : Inv s₀ k s' := by
  induction fuel generalizing s va with
  | zero => cases hloop
  | succ fuel ih =>
      rw [Kernel.unmapPages] at hloop
      split at hloop
      next hlt =>
        have hva := huser va (BitVec.le_refl va) hlt
        have hnext := toNat_add_page hva
        have halign' : (va + pageSize) &&& ~~~0xFFF#64 = va + pageSize := by
          have hround := congrArg BitVec.toNat halign
          rw [toNat_roundDown] at hround
          rw [← BitVec.toNat_inj, toNat_roundDown, hnext, Nat.add_div_right _ (by decide),
            Nat.succ_mul, hround]
        have huser' : ∀ va', va + pageSize ≤ va' → va' < vaEnd → pml4Index va' ∈ userTop := by
          intro va' hle
          apply huser va'
          rw [BitVec.le_def] at hle ⊢
          omega
        obtain ⟨phys, -, hloop⟩ := Option.bind_eq_some_iff.mp hloop
        split at hloop
        · exact ih h halign' huser' hloop
        · obtain ⟨s₁, hunmap, hloop⟩ := Option.bind_eq_some_iff.mp hloop
          -- one page is unmapped, by a call of `pmap_unmap` on the user half
          have h₁ : Inv s₀ k s₁ := by
            rw [Kernel.pmapUnmap] at hunmap
            split at hunmap
            · cases hunmap
              exact h
            · obtain ⟨p, hp, hunmap⟩ := Option.bind_eq_some_iff.mp hunmap
              obtain ⟨pm, hpm, hunmap⟩ := Option.bind_eq_some_iff.mp hunmap
              cases hunmap
              exact h.update (h.isolated.step
                ((h.isolated.wf.pmapUnmap_page (mem_roots hp) halign hva hva hpm).step
                h.isolated.wf))
                s.maps
          refine ih ?_ halign' huser' hloop
          -- counting the mapping touches no table
          rw [grantMappingRemove]
          split
          · exact h₁.update h₁.isolated _
          · exact h₁
      next =>
        cases hloop
        exact h

/-- `SYS_UNMAP` keeps the kernel halves equal when its range is one of the user half. -/
theorem Inv.sysUnmap (h : Inv s₀ k s) {fuel : ℕ} {a1 a2 a3 v : BitVec 64}
    (hallowed : s.registered a1 = true → (s.thread a1).pagerTid = s.current → a3 ≠ 0 →
      ∀ va, a2 &&& ~~~0xFFF#64 ≤ va → va < a2 + a3 → pml4Index va ∈ userTop)
    (hcall : s.sysUnmap fuel a1 a2 a3 = some (v, s')) : Inv s₀ k s' := by
  rw [Kernel.sysUnmap] at hcall
  split at hcall
  · cases hcall
    exact h
  next hregistered =>
  split at hcall
  · cases hcall
    exact h
  next hpager =>
  split at hcall
  · cases hcall
    exact h
  next hsize =>
  obtain ⟨s₁, hloop, hcall⟩ := Option.bind_eq_some_iff.mp hcall
  cases hcall
  -- the tests are passed, so that the range that the call names is the caller's to unmap
  refine h.unmapPages fuel ?_ (hallowed (by simpa using hregistered) (by simpa using hpager) hsize)
    hloop
  rw [BitVec.and_assoc, BitVec.and_self]

/-! ### Stores through the active address space

A store to a page that is no table does not change a translation. -/

section Translate

variable (hboot : Booted s₀ k) (h : Inv s₀ k s) {mem : Addr → BitVec 9 → Entry} {va : Addr}

include h

/-- Translations of the user half depend on the tables of the active address space. -/
theorem Inv.mmuTranslate_user (hva : pml4Index va ∈ userTop)
    (hmem : ∀ q, s.pm.IsTable (forest {s.cr3} userTop) q → mem q = s.pm.mem q) :
    mmuTranslate mem s.cr3 va = mmuTranslate s.pm.mem s.cr3 va := by
  have hwf : s.pm.Wf (forest {s.cr3} userTop) :=
    h.isolated.wf.mono (Set.singleton_subset_iff.mpr h.active)
  refine mmuTranslate_congr ?_ fun π i π' q hpath hq => ?_
  · exact hwf.upper s.cr3 [] s.cr3 _ (hwf.has_path rfl hva _ ⟨_, rfl, by simp⟩) (by simp) rfl
  · rw [hmem q ⟨s.cr3, π, hwf.has_path rfl hva π ⟨_, hpath, by simp⟩, hq⟩]

include hboot

/-- Translations of the kernel half depend on one entry and the shared tables. -/
theorem Inv.mmuTranslate_kernel (hva : pml4Index va ∈ kernelTop)
    (htop : mem s.cr3 (pml4Index va) = s.pm.mem s.cr3 (pml4Index va))
    (hmem : ∀ q, s₀.pm.Shared k q → mem q = s.pm.mem q) :
    mmuTranslate mem s.cr3 va = mmuTranslate s.pm.mem s.cr3 va := by
  refine mmuTranslate_congr ?_ fun π i π' q hpath hq => ?_
  · rw [h.isolated.top _ h.active _ hva]
    refine hboot.wf.upper k [] k _ ⟨rfl, by simp [forest], fun j hj => ?_⟩ (by simp) rfl
    obtain rfl : pml4Index va = j := Option.some.inj hj
    exact hva
  -- the entry of the root is the one assumed; below it each table is shared with the kernel's
  · cases π with
    | nil =>
        obtain rfl : s.cr3 = q := Option.some.inj hq
        obtain rfl : pml4Index va = i := (List.cons.inj hpath).1
        exact htop
    | cons j π =>
        obtain rfl : pml4Index va = j := (List.cons.inj hpath).1
        have hlen : π.length < 3 := by
          have := congrArg List.length hpath
          simp only [path, List.length_append, List.length_cons, List.length_nil] at this
          omega
        have hq₀ : s₀.pm.table k (pml4Index va :: π) = some q :=
          (h.isolated.table_eq h.active hva hlen).symm.trans hq
        rw [hmem q ⟨_, hva, π, hlen, hq₀⟩]

/-- Memory that agrees on all tables has the same translations. -/
theorem Inv.mmuTranslate_eq (hmem : ∀ q, s.pm.IsTable (forest s.roots userTop) q ∨
      s₀.pm.Shared k q → mem q = s.pm.mem q) (va : Addr) :
    mmuTranslate mem s.cr3 va = mmuTranslate s.pm.mem s.cr3 va := by
  by_cases hva : pml4Index va ∈ userTop
  · exact h.mmuTranslate_user hva fun q hq =>
      hmem q (Or.inl (isTable_mono (Set.singleton_subset_iff.mpr h.active) hq))
  · have hroot := hmem s.cr3 (Or.inl ⟨s.cr3, [], Shape.has_nil h.active, rfl⟩)
    exact h.mmuTranslate_kernel hboot (not_mem_userTop.mp hva) (by rw [hroot]) fun q hq =>
      hmem q (Or.inr hq)

/-- Where an address is translated after `pmap_create`, it was translated to the same before. The
page that `pmap_create` clears can be the root of the active address space only if it is `NULL`. -/
theorem Inv.mmuTranslate_create {phys : Addr}
    (htranslate : mmuTranslate (s.pm.pmapCreate k).2.mem s.cr3 va = some phys) :
    mmuTranslate s.pm.mem s.cr3 va = some phys := by
  -- a table of the kernel is not the new root, which was free
  have hshared : ∀ q, s₀.pm.Shared k q → (s.pm.pmapCreate k).2.mem q = s.pm.mem q := by
    intro q hq
    obtain ⟨hout, -⟩ := h.isolated.shared q hq
    apply pmapCreate_mem_of_ne k
    intro heq
    exact LawfulPageAllocator.alloc_fresh s.pm.pmm (heq ▸ hout.ne_zero) (heq ▸ hout.allocated)
  by_cases hva : pml4Index va ∈ userTop
  -- the new root translates nothing of the user's half yet
  · by_cases hcr3 : s.cr3 = s.pm.allocPages.1
    · have hzero := pmapCreate_mem_user (s := s.pm) k hva
      simp [mmuTranslate, hcr3, hzero] at htranslate
    · rw [← htranslate]
      refine (h.mmuTranslate_user hva fun q hq => pmapCreate_mem_of_ne k ?_).symm
      rintro rfl
      obtain ⟨r, π, ⟨rfl, hπ⟩, hq⟩ := hq
      rcases h.isolated.wf.owned s.cr3 π _ ⟨h.active, hπ⟩ hq with ⟨hne, halloc⟩ | ⟨rfl, -⟩
      · exact LawfulPageAllocator.alloc_fresh s.pm.pmm hne halloc
      · exact hcr3 (Option.some.inj hq)
  · have hk := not_mem_userTop.mp hva
    rw [← htranslate]
    have hcreated := h.isolated.create h.kernel_mem hboot.root_ne
    refine (h.mmuTranslate_kernel hboot hk ?_ hshared).symm
    rw [hcreated.top s.cr3 (Set.mem_insert_of_mem _ h.active) _ hk,
      h.isolated.top s.cr3 h.active _ hk]

/-- A store to pages that are no tables. -/
theorem Inv.putUserU64 {dst : Addr} {val : BitVec 64}
    (hplain : ∀ j < 8, ∀ phys, mmuTranslate s.pm.mem s.cr3 (dst + BitVec.ofNat 64 j) = some phys →
      ¬ (s.pm.IsTable (forest s.roots userTop) (pageOf phys) ∨ s₀.pm.Shared k (pageOf phys)))
    (hstore : s.putUserU64 dst val = some s') :
    Inv s₀ k s' ∧ (∀ va, mmuTranslate s'.pm.mem s'.cr3 va = mmuTranslate s.pm.mem s.cr3 va) ∧
      ∀ q, s'.pm.IsTable (forest s'.roots userTop) q → s.pm.IsTable (forest s.roots userTop) q := by
  obtain ⟨mem, rfl, hmem⟩ := putUserU64_eq hstore
  -- none of the eight bytes falls into a table
  have hsame : ∀ q, s.pm.IsTable (forest s.roots userTop) q ∨ s₀.pm.Shared k q →
      mem q = s.pm.mem q := by
    intro q hq
    apply hmem q
    intro j hj phys hphys heq
    exact hplain j hj phys hphys (heq ▸ hq)
  refine ⟨⟨h.isolated.congr hsame (fun _ _ _ hq => hq) fun _ _ hq => hq, h.kernel, h.active,
    h.live⟩, h.mmuTranslate_eq hboot hsame, ?_⟩
  rintro q ⟨r, π, hπ, hq⟩
  exact ⟨r, π, hπ, (node_congr (fun q' hq' => hsame q' (Or.inl hq')) hπ).symm.trans hq⟩

end Translate

/-! ### `TC_CREATE`

A new pmap gets a copy of the kernel half, and only then are its pages used. -/

/-- The page is neither a table nor memory of the kernel, and `pmap_create` will not take it. -/
structure Plain (s₀ : Kernel σ) (k : Addr) (s : Kernel σ) (q : Addr) : Prop where
  not_table : ¬ s.pm.IsTable (forest s.roots userTop) q
  not_shared : ¬ s₀.pm.Shared k q
  not_kernel : s.kernelData q = false
  not_next : q ≠ s.pm.allocPages.1

/-- `TC_CREATE` is given a pmap that is there, or memory for a new one that is not in use, and the
sixteen bytes of the UTCB that it fills in are user memory. -/
structure CreateAllowed (s₀ : Kernel σ) (k : Addr) (s : Kernel σ) (alloc : Alloc) (a3 a5 : Addr) :
    Prop where
  given : a3 ≠ 0 → (s.pmaps a3).isSome
  fresh : a3 = 0 → alloc.pmapPtr ≠ 0 → s.pmaps alloc.pmapPtr = none
  utcb : a5 ≠ 0 → ∀ j < 16, ∀ phys,
    mmuTranslate s.pm.mem s.cr3 (a5 + BitVec.ofNat 64 j) = some phys → Plain s₀ k s (pageOf phys)

omit [LawfulPageAllocator σ] in
/-- The state after `pmap_create` has made a pmap at `ptr`. -/
def created (s : Kernel σ) (k ptr : Addr) : Kernel σ :=
  { s with
    pm := (s.pm.pmapCreate k).2
    pmaps := Function.update s.pmaps ptr
      (some { rootPhys := (s.pm.pmapCreate k).1, grants := [] }) }

/-- `pmap_create` fails without a trace or adds one pmap with a root of its own. -/
theorem Inv.pmapCreate_cases (h : Inv s₀ k s) {ptr pmap : Addr}
    (hcreate : s.pmapCreate ptr = some (pmap, s')) :
    (pmap = 0 ∧ s' = s) ∨ (ptr ≠ 0 ∧ pmap = ptr ∧ s' = s.created k ptr) := by
  rw [Kernel.pmapCreate] at hcreate
  split at hcreate
  · cases hcreate
    exact Or.inl ⟨rfl, rfl⟩
  next hne =>
    obtain ⟨p, hp, hcreate⟩ := Option.bind_eq_some_iff.mp hcreate
    obtain rfl : p.rootPhys = k := by simpa [hp] using h.kernel
    cases hcreate
    exact Or.inr ⟨hne, rfl, rfl⟩

omit [LawfulPageAllocator σ] in
/-- The new root is the only one added. -/
theorem roots_created {ptr : Addr} (hptr : s.pmaps ptr = none) :
    (s.created k ptr).roots = insert (s.pm.pmapCreate k).1 s.roots := by
  ext r
  constructor
  · rintro ⟨ptr', p, hp, rfl⟩
    -- the new pmap brings the one new root
    by_cases heq : ptr' = ptr
    · subst heq
      simp only [created, Function.update_self, Option.some.injEq] at hp
      exact Or.inl (by rw [← hp])
    · simp only [created, Function.update_of_ne heq] at hp
      exact Or.inr ⟨ptr', p, hp, rfl⟩
  · rintro (rfl | ⟨ptr', p, hp, rfl⟩)
    · exact ⟨ptr, { rootPhys := (s.pm.pmapCreate k).1, grants := [] }, by simp [created], rfl⟩
    · refine ⟨ptr', p, ?_, rfl⟩
      have hne : ptr' ≠ ptr := by
        rintro rfl
        rw [hptr] at hp
        cases hp
      simpa only [created, Function.update_of_ne hne] using hp

/-- The root is filled from the kernel's half, which makes it agree with all others. -/
theorem Inv.created (hboot : Booted s₀ k) (h : Inv s₀ k s) {ptr : Addr}
    (hptr : s.pmaps ptr = none) : Inv s₀ k (s.created k ptr) := by
  refine ⟨?_, ?_, ?_, fun tid htid => ?_⟩
  · rw [roots_created hptr]
    exact h.isolated.create h.kernel_mem hboot.root_ne
  -- the kernel's pmap exists already, so that it is not the new one
  · have hne : s.kernelPmap ≠ ptr := by
      intro heq
      have := h.kernel
      rw [heq, hptr] at this
      cases this
    simpa only [Kernel.created, Function.update_of_ne hne] using h.kernel
  · rw [roots_created hptr]
    exact Set.mem_insert_of_mem _ h.active
  · have hsome := h.live tid htid
    by_cases heq : (s.thread tid).pmap = ptr
    · simp [Kernel.created, heq]
    · simpa only [Kernel.created, Function.update_of_ne heq] using hsome

/-- The tables of the state after `pmap_create`. -/
theorem Inv.isTable_created (h : Inv s₀ k s) {ptr q : Addr} (hptr : s.pmaps ptr = none)
    (hq : (s.created k ptr).pm.IsTable (forest (s.created k ptr).roots userTop) q) :
    q = s.pm.allocPages.1 ∨ s.pm.IsTable (forest s.roots userTop) q := by
  rw [roots_created hptr] at hq
  obtain ⟨r, π, hπ, hq⟩ := hq
  rcases h.isolated.wf.create_table_cases k hπ hq with ⟨-, -, heq⟩ | ⟨-, hπ, hq⟩
  · exact Or.inl heq
  · exact Or.inr ⟨r, π, hπ, hq⟩

/-- When there is no memory for a thread, the new pmap is given up. -/
theorem Inv.destroyed (hboot : Booted s₀ k) (h : Inv s₀ k s) {ptr : Addr}
    (hptr : s.pmaps ptr = none) {tid : BitVec 32}
    (hdestroy : ({ s.created k ptr with nextTid := tid } : Kernel σ).pmapDestroy ptr = some s') :
    Inv s₀ k s' := by
  have hcreated := h.isolated.create h.kernel_mem hboot.root_ne
  -- the root to be freed is no other pmap's: it was fresh when it was made
  have hroot : (s.pm.pmapCreate k).1 ∈ s.roots → (s.pm.pmapCreate k).1 = 0 := by
    intro hmem
    rcases h.isolated.wf.owned _ [] _ (Shape.has_nil hmem) rfl with ⟨hne, halloc⟩ | ⟨-, hzero⟩
    · exact absurd halloc (LawfulPageAllocator.alloc_fresh s.pm.pmm hne)
    · exact hzero
  rw [Kernel.pmapDestroy] at hdestroy
  split at hdestroy
  · cases hdestroy
    exact ⟨(h.created hboot hptr).isolated, (h.created hboot hptr).kernel,
      (h.created hboot hptr).active, (h.created hboot hptr).live⟩
  · obtain ⟨p, hp, hdestroy⟩ := Option.bind_eq_some_iff.mp hdestroy
    obtain rfl : { rootPhys := (s.pm.pmapCreate k).1, grants := [] } = p := by
      simpa [Kernel.created] using hp
    -- with the new pmap gone the pmaps are those from before
    have hpmaps : Function.update (s.created k ptr).pmaps ptr none = s.pmaps := by
      simp only [Kernel.created, Function.update_idem]
      rw [← hptr, Function.update_eq_self]
    simp only [Option.pure_def, Option.some.injEq, hpmaps] at hdestroy
    subst hdestroy
    exact ⟨hcreated.destroyNew hroot fun i hi => pmapCreate_mem_user k hi, h.kernel, h.active,
      h.live⟩

/-- Changes of threads that leave them in address spaces that are there. -/
theorem Inv.threads (h : Inv s₀ k s) (thread : BitVec 64 → KThread) (registered : BitVec 64 → Bool)
    (tid : BitVec 32) (hlive : ∀ tid, registered tid = true → (s.pmaps (thread tid).pmap).isSome) :
    Inv s₀ k { s with thread, registered, nextTid := tid } :=
  ⟨h.isolated, h.kernel, h.active, hlive⟩

/-- No table lies where the bytes at `utcb` are stored. -/
def UtcbPlain (s₀ : Kernel σ) (k : Addr) (s : Kernel σ) (utcb : Addr) : Prop :=
  ∀ j < 16, ∀ phys, mmuTranslate s.pm.mem s.cr3 (utcb + BitVec.ofNat 64 j) = some phys →
    ¬ (s.pm.IsTable (forest s.roots userTop) (pageOf phys) ∨ s₀.pm.Shared k (pageOf phys))

/-- Writing the UTCB keeps the invariant when the UTCB lies in plain memory. -/
theorem Inv.setUtcb (hboot : Booted s₀ k) (h : Inv s₀ k s) {tid pager : BitVec 64} {utcb : Addr}
    (hplain : utcb ≠ 0 → UtcbPlain s₀ k s utcb) (hset : s.setUtcb tid pager utcb = some s') :
    Inv s₀ k s' := by
  -- the fields of the thread change first
  have h₁ := h.threads
    (Function.update s.thread tid { s.thread tid with pagerTid := pager, utcb := utcb })
    s.registered s.nextTid (by
      intro tid' htid
      by_cases heq : tid' = tid
      · subst heq
        simpa using h.live tid' htid
      · simpa only [Function.update_of_ne heq] using h.live tid' htid)
  unfold Kernel.setUtcb at hset
  dsimp only at hset
  split at hset
  · cases hset
    exact h₁
  next hne =>
    have hplain := hplain hne
    obtain ⟨s₂, hstore, hset⟩ := Option.bind_eq_some_iff.mp hset
    obtain ⟨h₂, htranslate, htable⟩ := h₁.putUserU64 hboot (fun j hj phys hphys => by
      rw [add_zero] at hphys
      exact hplain j (by omega) phys hphys) hstore
    -- the second word is eight bytes behind the first
    refine (h₂.putUserU64 hboot (fun j hj phys hphys hq => ?_) hset).1
    have haddr : utcb + 8 + BitVec.ofNat 64 j = utcb + BitVec.ofNat 64 (8 + j) := by
      rw [BitVec.ofNat_add, ← BitVec.add_assoc]
      rfl
    rw [htranslate, haddr] at hphys
    apply hplain (8 + j) (by omega) phys hphys
    rcases hq with hq | hq
    · exact Or.inl (htable _ hq)
    · exact Or.inr hq

/-- The rest of `TC_CREATE`, after it has a pmap. -/
theorem Inv.threadCreateChild (h : Inv s₀ k s) (alloc : Alloc) {pmap : Addr}
    (hpmap : (s.pmaps pmap).isSome) :
    (∃ tid, s.threadCreateChild alloc pmap = (none, { s with nextTid := tid })) ∨
      ∃ tid s', s.threadCreateChild alloc pmap = (some tid, s') ∧ Inv s₀ k s' ∧
        s'.pm = s.pm ∧ s'.pmaps = s.pmaps ∧ s'.cr3 = s.cr3 := by
  rw [Kernel.threadCreateChild]
  split
  · exact Or.inl ⟨s.nextTid, rfl⟩
  dsimp only
  split
  · exact Or.inl ⟨_, rfl⟩
  · refine Or.inr ⟨_, _, rfl, h.threads _ _ _ fun tid htid => ?_, rfl, rfl, rfl⟩
    -- the new thread's pmap is the one given, which exists
    by_cases heq : tid = s.nextTid.setWidth 64
    · subst heq
      simpa using hpmap
    · rw [Function.update_of_ne heq] at htid ⊢
      exact h.live tid htid

omit [LawfulPageAllocator σ] in
/-- `TC_CREATE` in two steps: the pmap it works on, then the thread in it. -/
theorem tcCreate_eq (s : Kernel σ) (alloc : Alloc) (a3 a4 a5 : BitVec 64) :
    s.tcCreate alloc a3 a4 a5 =
      (if a3 ≠ 0 then some (a3, s) else s.pmapCreate alloc.pmapPtr).bind fun x =>
        if x.1 = 0 then some (.returned (-1) x.2)
        else match x.2.threadCreateChild alloc x.1 with
          | (none, s) => (if a3 = 0 then s.pmapDestroy x.1 else some s).bind fun s =>
              some (.returned (-1) s)
          | (some tid, s) => (s.setUtcb tid a4 a5).bind fun s => some (.returned tid s) := by
  unfold Kernel.tcCreate
  by_cases ha3 : a3 = 0
  · simp only [ha3, ne_eq, not_true_eq_false, if_false, if_true]
    rfl
  · simp only [ha3, ne_eq, not_false_eq_true, if_false, if_true]
    rfl

/-- `TC_CREATE` keeps the invariant, on its error paths as well. -/
theorem Inv.tcCreate (hboot : Booted s₀ k) (h : Inv s₀ k s) {alloc : Alloc} {a3 a4 a5 : BitVec 64}
    (hallowed : CreateAllowed s₀ k s alloc a3 a5) {o : Outcome σ}
    (hcall : s.tcCreate alloc a3 a4 a5 = some o) :
    Inv s₀ k o.state := by
  rw [tcCreate_eq] at hcall
  obtain ⟨⟨pmap, s₁⟩, hget, hrest⟩ := Option.bind_eq_some_iff.mp hcall
  -- the pmap the thread is to run in, and what has become of the rest
  have hpmap : pmap = 0 ∧ s₁ = s ∨ ((s₁.pmaps pmap).isSome ∧ Inv s₀ k s₁ ∧
      (a5 ≠ 0 → UtcbPlain s₀ k s₁ a5) ∧ (a3 = 0 → pmap ≠ 0 ∧ s.pmaps pmap = none ∧
        s₁ = s.created k pmap)) := by
    by_cases ha3 : a3 = 0
    · rw [if_neg (not_not.mpr ha3)] at hget
      rcases h.pmapCreate_cases hget with ⟨rfl, rfl⟩ | ⟨hne, rfl, rfl⟩
      · exact Or.inl ⟨rfl, rfl⟩
      · have hptr := hallowed.fresh ha3 hne
        refine Or.inr ⟨by simp [Kernel.created], h.created hboot hptr,
          fun ha5 j hj phys hphys => ?_, fun _ => ⟨hne, hptr, rfl⟩⟩
        have hplain := hallowed.utcb ha5 j hj phys (h.mmuTranslate_create hboot hphys)
        rintro (hq | hq)
        · rcases h.isTable_created hptr hq with hq | hq
          · exact hplain.not_next hq
          · exact hplain.not_table hq
        · exact hplain.not_shared hq
    · rw [if_pos ha3] at hget
      cases hget
      refine Or.inr ⟨hallowed.given ha3, h, fun ha5 j hj phys hphys => ?_, fun hzero =>
        absurd hzero ha3⟩
      have hplain := hallowed.utcb ha5 j hj phys hphys
      exact not_or.mpr ⟨hplain.not_table, hplain.not_shared⟩
  dsimp only at hrest
  split at hrest
  next hzero =>
    rcases hpmap with ⟨-, rfl⟩ | ⟨-, h₁, -⟩
    · cases hrest
      exact h
    · cases hrest
      exact h₁
  next hzero =>
    obtain ⟨hsome, h₁, hplain, hnew⟩ := hpmap.resolve_left fun heq => hzero heq.1
    rcases h₁.threadCreateChild alloc hsome with
      ⟨tid, heq⟩ | ⟨tid, s₂, heq, h₂, hpm, hpmaps, hcr3⟩
    · simp only [heq] at hrest
      obtain ⟨s₃, hdestroy, hrest⟩ := Option.bind_eq_some_iff.mp hrest
      cases hrest
      split at hdestroy
      next ha3 =>
        obtain ⟨-, hptr, rfl⟩ := hnew ha3
        exact h.destroyed hboot hptr hdestroy
      · cases hdestroy
        exact ⟨h₁.isolated, h₁.kernel, h₁.active, h₁.live⟩
    · simp only [heq] at hrest
      obtain ⟨s₃, hset, hrest⟩ := Option.bind_eq_some_iff.mp hrest
      cases hrest
      refine h₂.setUtcb hboot (fun ha5 => ?_) hset
      have hroots : s₂.roots = s₁.roots := by rw [roots, roots, hpmaps]
      rw [UtcbPlain, hroots, hpm, hcr3]
      exact hplain ha5

/-! ### `TC_DESTROY` and `TC_BIND_SPACE`

Removing an address space, and choosing another one for a thread. -/

/-- Destroying a thread removes roots and entries of the user half only. -/
theorem Inv.tcDestroy (h : Inv s₀ k s) (a2 : BitVec 64) : Inv s₀ k (s.tcDestroy a2).state := by
  rw [Kernel.tcDestroy]
  split
  · exact h
  split
  · exact h
  split
  · refine ⟨h.isolated, h.kernel, h.active, fun tid htid => ?_⟩
    -- a caller that destroys itself keeps its pmap until it is reaped
    by_cases heq : tid = s.current
    · subst heq
      simpa [Outcome.state, cur] using h.live s.current htid
    · simpa only [Outcome.state, Function.update_of_ne heq] using h.live tid htid
  · refine ⟨h.isolated, h.kernel, h.active, fun tid htid => ?_⟩
    by_cases heq : tid = a2
    · subst heq
      simp [Outcome.state] at htid
    · exact h.live tid (by simpa only [Outcome.state, Function.update_of_ne heq] using htid)

/-- Binding a thread to a pmap changes no table. -/
theorem Inv.tcBindSpace (h : Inv s₀ k s) {a2 a3 : BitVec 64}
    (hallowed : s.registered a2 = true → (s.thread a2).pagerTid = s.current → a3 ≠ 0 →
      (s.pmaps a3).isSome) : Inv s₀ k (s.tcBindSpace a2 a3).state := by
  rw [Kernel.tcBindSpace]
  split
  · exact h
  next hregistered =>
  split
  · exact h
  next hpager =>
  split
  · exact h
  next hne =>
  refine ⟨h.isolated, h.kernel, h.active, fun tid htid => ?_⟩
  -- the thread bound gets the pmap of the call, which exists by the condition
  by_cases heq : tid = a2
  · subst heq
    simpa [Outcome.state] using hallowed (by simpa using hregistered) (by simpa using hpager) hne
  · simpa only [Outcome.state, Function.update_of_ne heq] using h.live tid htid

/-! ### Runs

The calls that reach page tables, in any order and by any thread, with other events in between. -/

/-- A system call and its arguments. -/
inductive Call
  | map (a1 a2 a3 a4 a5 : BitVec 64)
  | unmap (a1 a2 a3 : BitVec 64)
  | threadControl (alloc : Alloc) (op a2 a3 a4 a5 : BitVec 64)

omit [LawfulPageAllocator σ] in
/-- Execute a system call of the current thread. -/
def exec (fuel : ℕ) (s : Kernel σ) : Call → Option (Kernel σ)
  | .map a1 a2 a3 a4 a5 => (s.sysMap fuel a1 a2 a3 a4 a5).map Prod.snd
  | .unmap a1 a2 a3 => (s.sysUnmap fuel a1 a2 a3).map Prod.snd
  | .threadControl alloc op a2 a3 a4 a5 =>
      (s.sysThreadControl alloc op a2 a3 a4 a5).map Outcome.state

/-- The conditions on the arguments. `SYS_MAP` and `SYS_UNMAP` stay in the user half if they get
past their checks, and `SYS_MAP` maps no normal page inside a huge one. `SYS_THREAD_CONTROL` names
pmaps that are there and a UTCB in user memory. -/
def Allowed (s₀ : Kernel σ) (k : Addr) (fuel : ℕ) (s : Kernel σ) : Call → Prop
  | .map a1 a2 a3 a4 a5 => MapChecked fuel s a1 a3 a4 a5 →
      ∀ p, s.pmaps (s.thread a1).pmap = some p → s.MapAllowed p.rootPhys a2 a4 (mapFlags a5)
  | .unmap a1 a2 a3 => s.registered a1 = true → (s.thread a1).pagerTid = s.current → a3 ≠ 0 →
      ∀ va, a2 &&& ~~~0xFFF#64 ≤ va → va < a2 + a3 → pml4Index va ∈ userTop
  | .threadControl alloc op a2 a3 _ a5 => (op = 0 → CreateAllowed s₀ k s alloc a3 a5) ∧
      (op = 2 → s.registered a2 = true → (s.thread a2).pagerTid = s.current → a3 ≠ 0 →
        (s.pmaps a3).isSome)

/-- What happens between these system calls: threads are scheduled, grants are made, pages are taken
from the page allocator and memory that holds no tables is written. -/
structure Other (s₀ : Kernel σ) (k : Addr) (s s' : Kernel σ) : Prop where
  pmaps : ∀ ptr, (s'.pmaps ptr).map Pmap.rootPhys = (s.pmaps ptr).map Pmap.rootPhys
  kernelPmap : s'.kernelPmap = s.kernelPmap
  registered : s'.registered = s.registered
  thread : ∀ tid, (s'.thread tid).pmap = (s.thread tid).pmap
  active : s'.cr3 = s.cr3 ∨ ∃ p, s'.pmaps s'.cur.pmap = some p ∧ s'.cr3 = p.rootPhys
  mem : ∀ q, s.pm.IsTable (forest s.roots userTop) q ∨ s₀.pm.Shared k q →
    s'.pm.mem q = s.pm.mem q
  allocated : ∀ q, s.pm.IsTable (forest s.roots userTop) q ∨ s₀.pm.Shared k q →
    s.pm.Allocated q → s'.pm.Allocated q
  trace : ∀ q, s₀.pm.Shared k q → .free q ∈ s'.pm.trace → .free q ∈ s.pm.trace

/-- The states that system calls lead to whose arguments all satisfy `cond`. -/
inductive Run (cond : ℕ → Kernel σ → Call → Prop) (s₀ : Kernel σ) (k : Addr) : Kernel σ → Prop
  | boot : Run cond s₀ k s₀
  | call {s s' : Kernel σ} {fuel : ℕ} {c : Call} (hrun : Run cond s₀ k s) (hcond : cond fuel s c)
      (hexec : s.exec fuel c = some s') : Run cond s₀ k s'
  | other {s s' : Kernel σ} (hrun : Run cond s₀ k s) (hother : Other s₀ k s s') : Run cond s₀ k s'

/-- One system call keeps the invariant, by cases on the call. -/
theorem Inv.exec (hboot : Booted s₀ k) (h : Inv s₀ k s) {fuel : ℕ} {c : Call}
    (hallowed : Allowed s₀ k fuel s c) (hexec : s.exec fuel c = some s') : Inv s₀ k s' := by
  -- one lemma for each system call
  cases c with
  | map a1 a2 a3 a4 a5 =>
      obtain ⟨⟨v, s'⟩, hcall, rfl⟩ := Option.map_eq_some_iff.mp hexec
      exact h.sysMap hallowed hcall
  | unmap a1 a2 a3 =>
      obtain ⟨⟨v, s'⟩, hcall, rfl⟩ := Option.map_eq_some_iff.mp hexec
      exact h.sysUnmap hallowed hcall
  | threadControl alloc op a2 a3 a4 a5 =>
      obtain ⟨o, hcall, rfl⟩ := Option.map_eq_some_iff.mp hexec
      rw [sysThreadControl] at hcall
      split at hcall
      next hop => exact h.tcCreate hboot (hallowed.1 hop) hcall
      split at hcall
      · cases hcall
        exact h.tcDestroy a2
      split at hcall
      next hop =>
        cases hcall
        exact h.tcBindSpace (hallowed.2 hop)
      · cases hcall
        exact h

omit [PageAllocator σ] [LawfulPageAllocator σ] in
/-- The roots are those of the pmaps in the store. -/
theorem roots_congr
    (h : ∀ ptr, (s'.pmaps ptr).map Pmap.rootPhys = (s.pmaps ptr).map Pmap.rootPhys) :
    s'.roots = s.roots := by
  ext r
  have hiff : ∀ t : Kernel σ, r ∈ t.roots ↔ ∃ ptr, (t.pmaps ptr).map Pmap.rootPhys = some r := by
    intro t
    simp only [Option.map_eq_some_iff]
    rfl
  rw [hiff, hiff]
  simp only [h]

/-- What the rest of the kernel may do to the tables keeps the invariant. -/
theorem Inv.other (h : Inv s₀ k s) (hother : Other s₀ k s s') : Inv s₀ k s' := by
  have hroots := roots_congr hother.pmaps
  refine ⟨?_, ?_, ?_, fun tid htid => ?_⟩
  · rw [hroots]
    exact h.isolated.congr hother.mem (fun q hq _ => hother.allocated q hq) hother.trace
  · rw [hother.kernelPmap, hother.pmaps]
    exact h.kernel
  · rw [hroots]
    -- the root in use afterwards is the old one, or that of a pmap switched to
    rcases hother.active with heq | ⟨p, hp, heq⟩
    · rw [heq]
      exact h.active
    · rw [heq, ← hroots]
      exact mem_roots hp
  · rw [hother.registered] at htid
    have hsome := h.live tid htid
    rw [← Option.isSome_map (f := Pmap.rootPhys), ← hother.pmaps, Option.isSome_map] at hsome
    rwa [hother.thread]

/-- The translations of the kernel half are those that the kernel's pmap had at boot, in every pmap,
and the tables that all pmaps share have not been given back. -/
def KernelHalfKept (s₀ s : Kernel σ) : Prop :=
  ∀ k ∈ s₀.pmaps s₀.kernelPmap,
    (∀ ptr, ∀ p ∈ s.pmaps ptr, ∀ va, pml4Index va ∈ kernelTop →
      s.pm.entries p.rootPhys va = s₀.pm.entries k.rootPhys va) ∧
    ∀ q, s₀.pm.Shared k.rootPhys q → .free q ∉ s.pm.trace

/-- In every run whose system calls satisfy the conditions, the kernel half stays as it was at
boot. -/
theorem kernelHalfKept_of_run (hboot : Booted s₀ k) (hrun : Run (Allowed s₀ k) s₀ k s) :
    KernelHalfKept s₀ s := by
  have h : Inv s₀ k s := by
    induction hrun with
    | boot => exact hboot.inv
    | call _ hcond hexec ih => exact ih.exec hboot hcond hexec
    | other _ hother ih => exact ih.other hother
  intro p₀ hp₀
  obtain rfl : p₀.rootPhys = k := by
    have hk := hboot.inv.kernel
    rw [Option.mem_def.mp hp₀] at hk
    exact Option.some.inj hk
  -- the upper halves agree, and no table of the kernel was freed since boot
  refine ⟨fun ptr p hp va hva => h.isolated.entries_eq (mem_roots hp) hva, fun q hq hfree => ?_⟩
  have := (h.isolated.shared q hq).2.2 hfree
  rw [hboot.trace] at this
  cases this

/-- The end of boot: the kernel has built its tables and made the pmap of the root server. -/
theorem booted_of_kernelTables {pm : PmState σ} (h : pm.KernelTables k)
    (hpm : s.pm = { (pm.pmapCreate k).2 with trace := [] })
    (hroots : s.roots = {(pm.pmapCreate k).1, k})
    (hkernel : (s.pmaps s.kernelPmap).map Pmap.rootPhys = some k) (hactive : s.cr3 ∈ s.roots)
    (hlive : ∀ tid, s.registered tid = true → (s.pmaps (s.thread tid).pmap).isSome) :
    Booted s k := by
  have hisolated := (h.isolated.create rfl h.ne_zero).rebase
    (Set.mem_insert_of_mem _ (Set.mem_singleton k))
  -- the kernel's own tables are not the page that the root server's root is in
  have hwf : (pm.pmapCreate k).2.Wf (forest {k} kernelTop) := by
    refine h.wf.congr (fun q hq => pmapCreate_mem_of_ne k ?_)
      fun q _ _ hq => LawfulPageAllocator.alloc_mono pm.pmm q hq
    rintro rfl
    obtain ⟨r, π, hπ, hq⟩ := hq
    rcases h.wf.owned r π _ hπ hq with ⟨hne, halloc⟩ | ⟨rfl, hzero⟩
    · exact LawfulPageAllocator.alloc_fresh pm.pmm hne halloc
    · obtain rfl : r = k := hπ.1
      exact h.ne_zero ((Option.some.inj hq).trans hzero)
  refine ⟨h.ne_zero, ?_, by rw [hpm], ?_, hkernel, hactive, hlive⟩
  · rw [hpm]
    exact ⟨hwf.depth, hwf.sep, hwf.owned, hwf.upper⟩
  · rw [hpm, hroots]
    refine ⟨⟨hisolated.wf.depth, hisolated.wf.sep, hisolated.wf.owned, hisolated.wf.upper⟩,
      fun q hq => ⟨?_, rfl, id⟩, hisolated.top⟩
    obtain ⟨hne, halloc, hnot⟩ := (hisolated.shared q hq).1
    exact ⟨hne, halloc, hnot⟩

end Invariant

/-! ### A small system

An example that meets all conditions, and the call that breaks the property without them. -/

/-- The kernel has mapped the first 2 MiB of memory, and there is one pmap for user threads. -/
def smallPm : PmState BumpAllocator :=
  match PmState.blank.pmapInit.2.pmapMap 2 0x1000#64 0xFFFF800000000000#64 0#64 0x200000#64
    (protRead ||| protWrite ||| protHuge) with
  | some (_, pm) => { (pm.pmapCreate 0x1000#64).2 with trace := [] }
  | none => PmState.blank

/-- Thread 1 is the pager of thread 2 and holds the frame `0x200`. -/
def small : Kernel BumpAllocator :=
  { oneGrant with
    pm := smallPm
    pmaps := fun p =>
      if p = 0x100#64 then some { rootPhys := 0x4000#64, grants := [⟨0x200#64, 3#8⟩] }
      else if p = 0x300#64 then some { rootPhys := 0x1000#64, grants := [] }
      else none
    thread := fun tid => { oneGrant.thread tid with pmap := 0x100#64 }
    cr3 := 0x4000#64 }

/-- The two roots of the example. -/
theorem roots_small : small.roots = {0x4000#64, 0x1000#64} := by
  ext r
  constructor
  · rintro ⟨ptr, p, hp, rfl⟩
    simp only [small] at hp
    split_ifs at hp
    · cases hp
      exact Or.inl rfl
    · cases hp
      exact Or.inr rfl
  · rintro (rfl | rfl)
    · exact ⟨0x100#64, _, rfl, rfl⟩
    · exact ⟨0x300#64, _, rfl, rfl⟩

/-- The example is a machine after boot. -/
theorem booted_small : Booted small 0x1000#64 := by
  -- `pmap_init`, the kernel's map and the root server's root are evaluated once
  have hcheck : ((PmState.blank.pmapInit.2.pmapMap 2 0x1000#64 0xFFFF800000000000#64 0#64
      0x200000#64 (protRead ||| protWrite ||| protHuge)).any fun x =>
        (x.2.pmapCreate 0x1000#64).1 = 0x4000#64) = true := by
    decide +kernel
  obtain ⟨⟨ok, pm⟩, hmap, hroot⟩ := (Option.any_eq_true _ _).mp hcheck
  have hinit : PmState.blank.pmapInit = (some 0x1000#64, PmState.blank.pmapInit.2) :=
    Prod.ext (by decide) rfl
  have htables := (kernelTables_pmapInit hinit).pmapMap (fun va hle hlt => ?_)
    (fun hflags => absurd hflags (by decide)) hmap
  · refine booted_of_kernelTables htables ?_ ?_ rfl ?_ fun tid _ => rfl
    · show smallPm = _
      rw [smallPm, hmap]
    · rw [roots_small, of_decide_eq_true hroot]
    · rw [roots_small]
      exact Or.inl rfl
  -- the range mapped is in the upper half
  · have hle' : 0xFFFF800000000000 ≤ va.toNat := BitVec.le_def.mp hle
    have hlt' : va.toNat < 0xFFFF800000200000 := BitVec.lt_def.mp hlt
    show 256#9 ≤ pml4Index va
    rw [BitVec.le_def, toNat_pml4Index]
    simp
    omega

/-- Nothing is mapped yet at the page at `0x400000`, which is in the user half. -/
theorem mapAllowed_small :
    small.MapAllowed 0x4000#64 0x400000#64 0x1000#64 (mapFlags 3#64) := by
  -- the range asked for is in the first entry of the root, which is empty
  have hlow : ∀ va, mapStart (mapFlags 3#64) 0x400000#64 ≤ va →
      va < mapEnd (mapFlags 3#64) 0x400000#64 0x1000#64 → pml4Index va = 0#9 := by
    intro va _ hlt
    have hlt' : va.toNat < 0x401000 := BitVec.lt_def.mp hlt
    rw [← BitVec.toNat_inj, toNat_pml4Index]
    simp
    omega
  refine ⟨fun va hle hlt => ?_, fun _ va hle hlt e ρ hleaf => ?_⟩
  · rw [hlow va hle hlt]
    exact (by decide : 0#9 < 256#9)
  · have hzero : small.pm.mem 0x4000#64 (pml4Index va) = 0#64 := by
      rw [hlow va hle hlt]
      decide +kernel
    have hnone : small.pm.leaf 0x4000#64 va = none :=
      (leaf_of_table (π := []) rfl rfl).trans (findFrom_of_not_present (by rw [hzero]; rfl) _)
    cases hnone.symm.trans hleaf

/-- Thread 1 maps its frame into the user half for thread 2. -/
theorem kernelHalfKept_of_run_onePage : ∃ s, Run (Allowed small 0x1000#64) small 0x1000#64 s ∧
    s.pmapExtract (small.thread 2).pmap 0x400000#64 = some 0x200000#64 ∧
    KernelHalfKept small s := by
  have hcheck : ((small.exec 2 (.map 2 0x400000#64 0x200000#64 0x1000#64 3#64)).any fun s =>
      s.pmapExtract (small.thread 2).pmap 0x400000#64 = some 0x200000#64) = true := by
    decide +kernel
  obtain ⟨s, hexec, hextract⟩ := (Option.any_eq_true _ _).mp hcheck
  have hrun : Run (Allowed small 0x1000#64) small 0x1000#64 s := by
    refine Run.boot.call ?_ hexec
    intro _ p hp
    obtain rfl : { rootPhys := 0x4000#64, grants := [⟨0x200#64, 3#8⟩] } = p := Option.some.inj hp
    exact mapAllowed_small
  exact ⟨s, hrun, of_decide_eq_true hextract, kernelHalfKept_of_run booted_small hrun⟩

/-- Thread 1 maps its frame into the kernel half. All address spaces have it there afterwards. -/
theorem sysMap_kernel_half : ∃ s₀ : Kernel BumpAllocator, ∃ k s, Booted s₀ k ∧
    Run (fun _ _ _ => True) s₀ k s ∧ ¬ KernelHalfKept s₀ s := by
  have hcheck : ((small.exec 2 (.map 2 0xFFFF800000200000#64 0x200000#64 0x1000#64 3#64)).any
      fun s => s.pmaps 0x300#64 = small.pmaps 0x300#64 ∧
        s.pm.entries 0x1000#64 0xFFFF800000200000#64 ≠
          small.pm.entries 0x1000#64 0xFFFF800000200000#64) = true := by
    decide +kernel
  obtain ⟨s, hexec, hcheck⟩ := (Option.any_eq_true _ _).mp hcheck
  obtain ⟨hpmaps, hne⟩ := of_decide_eq_true hcheck
  refine ⟨small, 0x1000#64, s, booted_small, Run.boot.call trivial hexec, fun hkept => ?_⟩
  exact hne ((hkept _ rfl).1 0x300#64 _ hpmaps 0xFFFF800000200000#64
    (by decide : 256#9 ≤ pml4Index 0xFFFF800000200000#64))

end Kernel

end Koharu
