import Koharu.Arch.PmapOwnership

/-!
# What `pmap_map` stores to

`pmap_map_page` takes an entry of a page directory that is present for a link to a table, also when
it maps a huge page. A normal page inside a huge one is then stored into the memory that the huge
page maps (`not_confined_of_huge`), which is what `acpi_init` does after `vmm_init`. In every other
case `pmap_map` stores to tables of its own only and changes the translations it is meant to change
(`stores_of_run`).

A pmap that `pmap_create` made shares the tables below the entries of its root that were copied from
the kernel's pmap. These are not its own.
-/

namespace Koharu

open Radix

/-- A page that is held was taken. -/
theorem alloc_mem_of_mem_held {t : List Effect} {q : Addr} (hq : q ∈ held t) : .alloc q ∈ t := by
  -- only an `alloc` makes a page held, so the last effect that matters is one
  induction t using List.reverseRecOn with
  | nil => exact absurd hq (Set.notMem_empty q)
  | append_singleton t e ih =>
      rw [held_snoc] at hq
      apply List.mem_append.mpr
      cases e with
      | alloc p =>
          rw [Effect.after] at hq
          split at hq
          · exact Or.inl (ih hq)
          · rcases hq with rfl | hq
            · exact Or.inr (List.mem_singleton_self _)
            · exact Or.inl (ih hq)
      | free p => exact Or.inl (ih hq.1)
      | clear p => exact Or.inl (ih hq)
      | copy src p => exact Or.inl (ih hq)
      | store level p i e => exact Or.inl (ih hq)

namespace PmState

variable {σ : Type*} [PageAllocator σ] [LawfulPageAllocator σ] {s s' s₁ : PmState σ} {root : Addr}
  {top : Set (BitVec 9)}

/-- A pmap right after `pmap_init` or `pmap_create`, where the record of effects starts, and the
entries of its root that are its own. -/
inductive Begins (root : Addr) : Set (BitVec 9) → PmState σ → Prop
  | init (s₀ : PmState σ) {s₁ : PmState σ}
      (hinit : { s₀ with trace := [] }.pmapInit = (some root, s₁)) : Begins root Set.univ s₁
  | create {s₀ : PmState σ} {kernelRoot : Addr} (hroot : (s₀.pmapCreate kernelRoot).1 = root)
      (hne : root ≠ 0) : Begins root {i | i ∈ userTop ∨ s₀.mem kernelRoot i = 0#64}
        ({ s₀ with trace := [] }.pmapCreate kernelRoot).2

/-- The call of `pmap_map` stays below the entries `top` and, if it is for normal pages, off the
huge ones. -/
def MapOk (top : Set (BitVec 9)) (s : PmState σ) (root virt size : Addr) (flags : BitVec 32) :
    Prop :=
  size ≠ 0 → InTop (forest {root} top) (mapStart flags virt) (mapEnd flags virt size) ∧
    (hasProt flags protHuge = false →
      s.NoHuge root (mapStart flags virt) (mapEnd flags virt size))

/-- The call of `pmap_unmap` stays below the entries `top`. Its loop may wrap around from the last
huge page of the address space. -/
def UnmapOk (top : Set (BitVec 9)) (root virt size : Addr) : Prop :=
  size ≠ 0 →
    InTop (forest {root} top) (virt &&& ~~~0xFFF#64) ((virt + size + 0xFFF#64) &&& ~~~0xFFF#64) ∧
    ((∀ i, i ∈ top) ∨ ((virt + size + 0xFFF#64) &&& ~~~0xFFF#64).toNat + 2 ^ 21 ≤ 2 ^ 64)

/-- Any sequence of such calls, whether they succeed or not. In between the rest of the kernel
leaves the pages of the pmap alone. -/
inductive CallRun (root : Addr) (top : Set (BitVec 9)) (s₁ : PmState σ) : PmState σ → Prop
  | start : CallRun root top s₁ s₁
  | map {s s' : PmState σ} {fuel : ℕ} {virt phys size : Addr} {flags : BitVec 32} {ok : Bool}
      (hrun : CallRun root top s₁ s) (hok : s.MapOk top root virt size flags)
      (hmap : s.pmapMap fuel root virt phys size flags = some (ok, s')) : CallRun root top s₁ s'
  | unmap {s s' : PmState σ} {fuel : ℕ} {virt size : Addr} (hrun : CallRun root top s₁ s)
      (hok : UnmapOk top root virt size) (hunmap : s.pmapUnmap fuel root virt size = some s') :
      CallRun root top s₁ s'
  | other {s s' : PmState σ} (hrun : CallRun root top s₁ s)
      (hmem : ∀ q ∈ held s.trace, s'.mem q = s.mem q)
      (halloc : ∀ q ∈ held s.trace, s'.Allocated q) (htrace : s'.trace = s.trace) :
      CallRun root top s₁ s'

/-- The translation of an address in a page that is mapped to `pa`. -/
def translation (flags : BitVec 32) (pa va : Addr) : Addr :=
  if hasProt flags protHuge then (pa &&& pdAddrMask) + (va &&& 0x1FFFFF#64)
  else (pa &&& pteAddrMask) + (va &&& 0xFFF#64)

/-- The pages below the root that `pmap_extract` reads for an address. -/
def Reads (s : PmState σ) (root va q : Addr) : Prop :=
  let e₄ := s.mem root (pml4Index va)
  let e₃ := s.mem e₄.addr (pdptIndex va)
  let e₂ := s.mem e₃.addr (pdIndex va)
  e₄.present ∧ (q = e₄.addr ∨ e₃.present ∧
    (q = e₃.addr ∨ e₂.present ∧ e₂.huge = false ∧ q = e₂.addr))

/-! ### The calls

The two ways in which a pmap comes about, and the calls that stay below its entries of the root. The
confined stores and the translations are read off the moves of each call. -/

/-- The tables of a new pmap are its own. -/
theorem Begins.owns (hstart : Begins root top s₁) : Owns (forest {root} top) s₁ := by
  -- `pmap_init` clears the whole root, `pmap_create` what it does not copy from the kernel
  cases hstart with
  | init s₀ hinit =>
      unfold pmapInit at hinit
      dsimp only at hinit
      split at hinit
      · simp at hinit
      next hne =>
        obtain ⟨hroot, rfl⟩ := Prod.mk.inj hinit
        obtain rfl := Option.some.inj hroot
        obtain ⟨hheld, hconfined⟩ := held_root hne
        exact owns_of_zero hne (LawfulPageAllocator.alloc_mem s₀.pmm hne)
          (fun i _ => by simp [clear]) hheld hconfined
  | @create s₀ kernelRoot hroot hne =>
      subst hroot
      apply owns_pmapCreate hne
      intro i hi
      apply (pmapCreate_mem { s₀ with trace := [] } kernelRoot _ i).trans
      apply (if_pos rfl).trans
      split
      next hcopied => exact hi.resolve_left fun huser => BitVec.not_lt.mpr hcopied.1 huser
      next => rfl

/-- A call of `pmap_map` maps the pages of its range. -/
theorem MapOk.mapped (h : Owns (forest {root} top) s) {fuel : ℕ} {virt phys size : Addr}
    {flags : BitVec 32} {ok : Bool} (hok : s.MapOk top root virt size flags)
    (hmap : s.pmapMap fuel root virt phys size flags = some (ok, s')) :
    Mapped (forest {root} top) root flags (mapStart flags virt) (mapStart flags phys)
      (mapCount flags virt size) ok s s' := by
  by_cases hsize : size = 0
  · rw [PmState.pmapMap, if_pos hsize] at hmap
    obtain ⟨rfl, rfl⟩ := Prod.mk.inj (Option.some.inj hmap)
    rw [mapCount, if_pos hsize]
    exact .refl _ _ _ _ _ _ _
  · obtain ⟨htop, hnot⟩ := hok hsize
    exact h.wf.pmapMap rfl htop hnot hmap

/-- A call of `pmap_unmap` moves tables only. -/
theorem UnmapOk.moves (h : Owns (forest {root} top) s) {fuel : ℕ} {virt size : Addr}
    (hok : UnmapOk top root virt size) (hunmap : s.pmapUnmap fuel root virt size = some s') :
    Moves (forest {root} top) s s' := by
  by_cases hsize : size = 0
  · rw [PmState.pmapUnmap, if_pos hsize] at hunmap
    obtain rfl := Option.some.inj hunmap
    exact .refl
  · obtain ⟨htop, hwrap⟩ := hok hsize
    exact (h.wf.pmapUnmap rfl htop hwrap hunmap).1

/-- The tables stay the pmap's own in every run, by induction on it. -/
theorem CallRun.owns (hstart : Begins root top s₁) (hrun : CallRun root top s₁ s) :
    Owns (forest {root} top) s := by
  induction hrun with
  | start => exact hstart.owns
  | map _ hok hmap ih => exact ih.moves (hok.mapped ih hmap).moves
  | unmap _ hok hunmap ih => exact ih.moves (hok.moves ih hunmap)
  | other _ hmem halloc htrace ih => exact ih.congr hmem halloc htrace

/-- The entries of the root that are not the pmap's own stay. -/
theorem CallRun.rest (hstart : Begins root top s₁) (hrun : CallRun root top s₁ s) {i : BitVec 9}
    (hi : i ∉ top) : s.mem root i = s₁.mem root i := by
  induction hrun with
  | start => rfl
  | map hrun hok hmap ih =>
      have howns := hrun.owns hstart
      exact (((hok.mapped howns hmap).moves.step howns.wf).rest root rfl i hi).trans ih
  | unmap hrun hok hunmap ih =>
      have howns := hrun.owns hstart
      exact (((hok.moves howns hunmap).step howns.wf).rest root rfl i hi).trans ih
  | other hrun hmem _ _ ih =>
      have hroot := ((hrun.owns hstart).mem_held root).mpr ⟨root, [], Shape.has_nil rfl, rfl⟩
      exact (congrFun (hmem root hroot) i).trans ih

omit [PageAllocator σ] [LawfulPageAllocator σ] in
/-- `pmap_extract` depends on the pages that it reads. -/
theorem extract_congr {va : Addr} (hroot : s'.mem root (pml4Index va) = s.mem root (pml4Index va))
    (hreads : ∀ q, s.Reads root va q → s'.mem q = s.mem q) :
    s'.pmapExtract root va = s.pmapExtract root va := by
  rw [pmapExtract, pmapExtract, hroot]
  -- down the walk: each table that is read is one of `Reads`
  by_cases h₄ : (s.mem root (pml4Index va)).present = true
  swap
  · rw [if_pos (by simpa using h₄), if_pos (by simpa using h₄)]
  simp only [hreads _ ⟨h₄, .inl rfl⟩]
  by_cases h₃ : (s.mem (s.mem root (pml4Index va)).addr (pdptIndex va)).present = true
  swap
  · simp [h₃]
  simp only [hreads _ ⟨h₄, .inr ⟨h₃, .inl rfl⟩⟩]
  obtain ⟨e, he⟩ : ∃ e,
    e = s.mem (s.mem (s.mem root (pml4Index va)).addr (pdptIndex va)).addr (pdIndex va) :=
    ⟨_, rfl⟩
  rw [← he]
  by_cases h₂ : e.present = true ∧ e.huge = false
  · have hreads₁ := hreads e.addr ⟨h₄, .inr ⟨h₃, .inr ⟨he ▸ h₂.1, he ▸ h₂.2, by rw [he]⟩⟩⟩
    simp only [hreads₁]
  · rcases Classical.not_and_iff_not_or_not.mp h₂ with hpresent | hhuge
    · simp [hpresent]
    · simp [hhuge]

/-- The translation that a mapped page gives. -/
theorem Wf.extract_of_mappedLeaf {F : Shape Addr (BitVec 9)} (h : s.Wf F) (hr : root ∈ F.roots)
    {va pa : Addr} {flags : BitVec 32} (hva : pml4Index va ∈ F.top)
    (hleaf : s.leaf root va = some (mappedLeaf flags pa va)) :
    s.pmapExtract root va = translation flags pa va := by
  rw [h.extract_eq hr hva, hleaf, mappedLeaf, translation]
  cases hflags : hasProt flags protHuge with
  | true => exact congrArg (· + (va &&& 0x1FFFFF#64)) (hugeEntry_and_mask pa flags)
  | false => exact congrArg (· + (va &&& 0xFFF#64)) (addr_pageEntry pa flags)

/-- As long as all calls stay below the entries that are the pmap's own, and no normal page is
mapped inside a huge one, every store goes to a page that the pmap has taken from the allocator and
not given back. A call of `pmap_map` leaves the translations alone outside of its pages and, if it
succeeds, gives each address the translation of the last of its pages that the address is in. The
entries that are not the pmap's own stay, and so do the translations below them, as long as their
tables are not the pmap's. -/
theorem stores_of_run (hstart : Begins root top s₁) (hrun : CallRun root top s₁ s) :
    (Confined s.trace ∧ ∀ i ∉ top, s.mem root i = s₁.mem root i) ∧
    ∀ fuel virt phys size flags ok s', s.MapOk top root virt size flags →
      s.pmapMap fuel root virt phys size flags = some (ok, s') →
      Confined s'.trace ∧
      (∀ va, pml4Index va ∈ top →
        (∀ k < mapCount flags virt size,
          ¬ SamePage flags (pageAt flags (mapStart flags virt) k) va) →
        s'.pmapExtract root va = s.pmapExtract root va) ∧
      (ok = true → ∀ va, pml4Index va ∈ top → ∀ k < mapCount flags virt size,
        SamePage flags (pageAt flags (mapStart flags virt) k) va →
        (∀ j < mapCount flags virt size, k < j →
          ¬ SamePage flags (pageAt flags (mapStart flags virt) j) va) →
        s'.pmapExtract root va = translation flags (pageAt flags (mapStart flags phys) k) va) ∧
      ∀ va, pml4Index va ∉ top →
        (∀ q, s.Reads root va q → q ≠ 0 ∧ s.Allocated q ∧ q ∉ held s.trace) →
        s'.pmapExtract root va = s.pmapExtract root va := by
  have howns := hrun.owns hstart
  refine ⟨⟨howns.confined, fun i hi => hrun.rest hstart hi⟩,
    fun fuel virt phys size flags ok s' hok hmap => ?_⟩
  have hmapped := hok.mapped howns hmap
  have howns' := howns.moves hmapped.moves
  have hstep := hmapped.moves.step howns.wf
  -- pages that the call does not name, pages that it maps, and addresses in tables of others
  refine ⟨howns'.confined, fun va hva hout => ?_, fun hsucceeds va hva k hk hin hlast => ?_,
    fun va hva htables => extract_congr (hstep.rest root rfl _ hva) fun q hq => ?_⟩
  · rw [howns.wf.extract_eq rfl hva, howns'.wf.extract_eq rfl hva, hmapped.outside hva hout]
  · exact howns'.wf.extract_of_mappedLeaf rfl hva (hmapped.inside hsucceeds va hva k hk hin hlast)
  · obtain ⟨hne, halloc, hheld⟩ := htables q hq
    exact (hstep.outside q ⟨hne, halloc, fun htable => hheld ((howns.mem_held q).mpr htable)⟩).2.1

/-- 2 MiB of memory are mapped with a huge page, as in `vmm_init`, and then a normal page is mapped
elsewhere, as in `map_kernel`. -/
theorem stores_of_run_directMap : ∃ s s', Begins 0x1000#64 Set.univ blank.pmapInit.2 ∧
    CallRun 0x1000#64 Set.univ blank.pmapInit.2 s ∧
    s.MapOk Set.univ 0x1000#64 0xFFFFFFFF80000000#64 0x1000#64 (protRead ||| protExec) ∧
    s.pmapMap 2 0x1000#64 0xFFFFFFFF80000000#64 0x300000#64 0x1000#64 (protRead ||| protExec) =
      some (true, s') ∧
    Confined s'.trace := by
  have hbegins : Begins 0x1000#64 Set.univ blank.pmapInit.2 := Begins.init blank rfl
  have hcheck : ((blank.pmapInit.2.pmapMap 2 0x1000#64 0xFFFF800000200000#64 0x200000#64
      0x200000#64 (protRead ||| protWrite ||| protHuge)).any fun x =>
        !(x.2.mem 0x1000#64 511#9).present &&
        (x.2.pmapMap 2 0x1000#64 0xFFFFFFFF80000000#64 0x300000#64 0x1000#64
          (protRead ||| protExec)).any fun y => y.1) = true := by
    decide +kernel
  obtain ⟨⟨ok, s⟩, hmap, hcheck⟩ := (Option.any_eq_true _ _).mp hcheck
  obtain ⟨hempty, hcheck⟩ := (Bool.and_eq_true _ _).mp hcheck
  obtain ⟨⟨ok', s'⟩, hmap', rfl⟩ := (Option.any_eq_true _ _).mp hcheck
  have hin : ∀ virt vaEnd, InTop (forest {0x1000#64} Set.univ) virt vaEnd :=
    fun _ _ _ _ _ => Set.mem_univ _
  have hrun : CallRun 0x1000#64 Set.univ blank.pmapInit.2 s := by
    exact CallRun.start.map (fun _ => ⟨hin _ _, fun hflags => absurd hflags (by decide)⟩) hmap
  have hok : s.MapOk Set.univ 0x1000#64 0xFFFFFFFF80000000#64 0x1000#64
      (protRead ||| protExec) := by
    refine fun _ => ⟨hin _ _, fun _ va hle hlt e ρ hfound => ?_⟩
    have hstart : (mapStart (protRead ||| protExec) 0xFFFFFFFF80000000#64).toNat =
        0xFFFFFFFF80000000 := by decide
    have hindex : pml4Index va = 511#9 := by
      rw [BitVec.le_def, hstart] at hle
      have := va.isLt
      rw [← BitVec.toNat_inj, toNat_pml4Index]
      show va.toNat / 2 ^ 39 % 512 = 511
      omega
    -- nothing is mapped there yet
    rw [leaf_of_table (π := []) rfl rfl, hindex,
      findFrom_of_not_present (by simpa using hempty)] at hfound
    cases hfound
  obtain ⟨-, hcall⟩ := stores_of_run hbegins hrun
  exact ⟨s, s', hbegins, hrun, hok, hmap', (hcall _ _ _ _ _ _ _ hok hmap').1⟩

/-- A normal page is mapped inside a huge page of the direct map, as `acpi_init` does for the page
of the RSDP. The entry is stored into the memory that this huge page maps. -/
theorem not_confined_of_huge : ∃ s s', Begins 0x1000#64 Set.univ blank.pmapInit.2 ∧
    blank.pmapInit.2.pmapMap 2 0x1000#64 0xFFFF800000200000#64 0x200000#64 0x200000#64
      (protRead ||| protWrite ||| protHuge) = some (true, s) ∧
    s.pmapMap 2 0x1000#64 0xFFFF8000003FF000#64 0x3FF000#64 36#64 protRead = some (true, s') ∧
    ¬ Confined s'.trace := by
  have hbegins : Begins 0x1000#64 Set.univ blank.pmapInit.2 := Begins.init blank rfl
  have hcheck : ((blank.pmapInit.2.pmapMap 2 0x1000#64 0xFFFF800000200000#64 0x200000#64
      0x200000#64 (protRead ||| protWrite ||| protHuge)).any fun x => x.1 &&
        ((x.2.pmapMap 2 0x1000#64 0xFFFF8000003FF000#64 0x3FF000#64 36#64 protRead).any fun y =>
          y.1 && decide (y.2.trace = x.2.trace ++
            [.store .pt 0x200000#64 511#9 (pageEntry 0x3FF000#64 protRead)]) &&
          !x.2.trace.contains (.alloc 0x200000#64))) = true := by
    decide +kernel
  obtain ⟨⟨ok, s⟩, hmap, hcheck⟩ := (Option.any_eq_true _ _).mp hcheck
  obtain ⟨rfl, hcheck⟩ : ok = true ∧ _ := (Bool.and_eq_true _ _).mp hcheck
  obtain ⟨⟨ok', s'⟩, hmap', hcheck⟩ := (Option.any_eq_true _ _).mp hcheck
  simp only [Bool.and_eq_true, decide_eq_true_eq, Bool.not_eq_true'] at hcheck
  obtain ⟨⟨rfl, htrace⟩, hfresh⟩ := hcheck
  refine ⟨s, s', hbegins, hmap, hmap', fun hconfined => ?_⟩
  -- the last store goes to a page that no allocation has given out
  rw [htrace, confined_snoc] at hconfined
  have hmem := alloc_mem_of_mem_held hconfined.2
  rw [← List.contains_iff_mem, hfresh] at hmem
  cases hmem

end PmState

end Koharu
