import Koharu.User.Merge

/-!
# Images that are loaded safely

Neither loader compares `p_offset + p_filesz` with the size as a sum of numbers: `elf_load` compares
a sum of words, which may have wrapped around, and `load_segment` compares nothing. Both stay inside
of the images that are well placed; of the other ones they stay inside if they turn the image away
in time, for a segment that comes before the first bad one.

* `Image.ElfReaches`, `Image.RootReaches`: how far a loader can get in the table;
* `Image.ElfSafe`, `Image.RootSafe`: what it looks at and copies on the way lies in the image, and
  if nothing stops it the image is well placed;
* `WellPlaced.elfSafe`, `WellPlaced.rootSafe`: both hold of well placed images;
* `loads_inside_iff`: the images for which both loaders stay inside.
-/

namespace Koharu

open Traced

/-! ### How far the loaders get

What each loader looks at before a check stops it. Behind that the image may say anything. -/

namespace Segment

variable (ph : Segment) (size va : Addr)

/-- The part of the file that goes to the page at `va` lies in the image. -/
def CopyInside : Prop :=
  ph.fileLo va < ph.fileHi va →
    InImage size (ph.offset + (ph.fileLo va - ph.vaddr)) (ph.fileHi va - ph.fileLo va).toNat

variable {ph size va}

/-- The copy for a page reads inside the file when its bytes in the file lie there. -/
theorem copyTo_inside_iff (page : Addr) :
    (∀ a ∈ ph.copyTo page va, a.Inside size) ↔ ph.CopyInside size va := by
  rw [copyTo, CopyInside]
  split
  case isTrue hlt =>
    simp only [List.mem_singleton, forall_eq]
    exact ⟨fun h _ => h, fun h => h hlt⟩
  case isFalse hlt =>
    exact ⟨fun _ hlt' => absurd hlt' hlt, fun _ a ha => absurd ha List.not_mem_nil⟩

end Segment

namespace Image

variable (img : Image)

/-- What `elf_load` looks at of a program header. -/
def phdrLooks (i : ℕ) : List Access :=
  .read (img.phdr i) 4 ::
    if img.type i ≠ ptLoad then []
    else .read (img.phdr i + 8) 8 :: .read (img.phdr i + 32) 8 ::
      if img.offset i + img.filesz i ≤ img.size then
        [.read (img.phdr i + 4) 4, .read (img.phdr i + 16) 8, .read (img.phdr i + 40) 8]
      else []

/-- The test of `elf_load` lets each `PT_LOAD` before `i` pass. The sum is one of words. -/
def ElfReaches (i : ℕ) : Prop :=
  ∀ k < i, img.type k = ptLoad → img.offset k + img.filesz k ≤ img.size

/-- As far as the tests of `elf_load` let it get, the headers and what is copied lie in the image.
If they stop it nowhere, the image is well placed. -/
structure ElfSafe : Prop where
  looks : ∀ i < img.phnum.toNat, img.ElfReaches i → ∀ a ∈ img.phdrLooks i, a.Inside img.size
  copies : ∀ i, img.IsLoad i → img.ElfReaches (i + 1) →
    ∀ va ∈ (img.segment i).pages, (img.segment i).CopyInside img.size va
  placed : img.ElfReaches img.phnum.toNat → img.WellPlaced

/-- The segment that `root_main` joins from the headers from `i` on, and the last one of them. -/
def nextSegment (i : ℕ) : Traced Access (Segment × ℕ) := do
  let ph ← img.readPhdr i
  img.joinLoop (img.phnum.toNat - (i + 1)) ph i

/-- What `root_main` looks at of the program headers before it loads anything for `i`. -/
def segmentLooks (i : ℕ) : List Access :=
  .read (img.phdr i) 4 :: if img.type i ≠ ptLoad then [] else (img.nextSegment i).log

/-- `root_main` can get to the header `i`, with these pages of the child in `child_vmas`: all
segments before can be granted by `SYS_MAP`, and `vma_insert` takes them. -/
inductive RootReaches : ℕ → VmaState Unit → Prop
  | start : RootReaches 0 (VmaState.zero.vmaSetInit ())
  | skip {i : ℕ} {vmas : VmaState Unit} (h : RootReaches i vmas) (hi : i < img.phnum.toNat)
      (htype : img.type i ≠ ptLoad) : RootReaches (i + 1) vmas
  | load {i j : ℕ} {vmas : VmaState Unit} (h : RootReaches i vmas) (hload : img.IsLoad i)
      (hjoined : img.Joined i j) (hlast : ¬ img.Joins j)
      (hgranted : (img.join i j).Mappable ∨ (img.join i j).pages = [])
      (htaken : (RootState.insertSegment vmas (img.join i j)).1 = true) :
      RootReaches (j + 1) (RootState.insertSegment vmas (img.join i j)).2

/-- As far as `root_main` can get, the headers and what is copied lie in the image. If it can get
through the table, the image is well placed. -/
structure RootSafe : Prop where
  looks : ∀ i vmas, img.RootReaches i vmas → i < img.phnum.toNat →
    ∀ a ∈ img.segmentLooks i, a.Inside img.size
  copies : ∀ i j vmas, img.RootReaches i vmas → img.IsLoad i → img.Joined i j → ¬ img.Joins j →
    ∀ va ∈ (img.join i j).reached, (img.join i j).CopyInside img.size va
  placed : ∀ i vmas, img.RootReaches i vmas → img.phnum.toNat ≤ i → img.WellPlaced

end Image

/-! ### `elf_load`

The kernel's loader stays inside when what it reaches does. -/

section ElfLoad

variable {σ : Type} [PageAllocator σ] {img : Image} {ph : Segment} {root : Addr}

/-- Loading a page reads no more than what is copied to it. -/
theorem loadPage_ensures {va : Addr} (h : ph.CopyInside img.size va) (s : PmState σ) :
    Ensures (Access.Inside img.size) (fun _ => True) (Image.loadPage root ph s va) := by
  refine ensures_lift_bind fun _ _ => ensures_lift_bind fun mapped _ =>
    ensures_lift_bind fun _ _ => ?_
  apply ensures_tell_bind ((Segment.copyTo_inside_iff _).mpr h)
  exact ensures_tell_bind (ph.clearIn_inside _ va) (ensures_pure trivial)

namespace Image

/-- A read is logged in front of what follows it. -/
theorem read_bind {α : Type} (img : Image) (off : Addr) (len : ℕ) (f : Addr → Traced Access α) :
    img.read off len >>= f =
      ⟨.read off len :: (f (img.field off len)).log, (f (img.field off len)).val⟩ := rfl

/-- An iteration of `elf_load`: first the header is looked at, then the pages are loaded. -/
theorem loadPhdr_eq (img : Image) (root : Addr) (s : PmState σ) (i : ℕ) :
    img.loadPhdr root s i = (do
      Traced.tell (img.phdrLooks i)
      if img.type i ≠ ptLoad then pure s
      else do
        Traced.lift (guard (img.offset i + img.filesz i ≤ img.size))
        (img.segment i).pages.foldlM (Image.loadPage root (img.segment i)) s) := by
  have htype' : img.field (img.phdr i) 4 = img.type i := rfl
  have hoffset : img.field (img.phdr i + 8) 8 = img.offset i := rfl
  have hfilesz : img.field (img.phdr i + 32) 8 = img.filesz i := rfl
  rw [loadPhdr, read_bind, phdrLooks, htype']
  -- the fields of the segment are read only when the type is `PT_LOAD`
  by_cases htype : img.type i = ptLoad
  · rw [if_neg (not_not.mpr htype), if_neg (not_not.mpr htype), if_neg (not_not.mpr htype),
      read_bind, read_bind, hoffset, hfilesz, guard]
    split
    case isTrue => rfl
    case isFalse => rfl
  · rw [if_pos htype, if_pos htype, if_pos htype]
    rfl

/-- One iteration stays inside if what it looks at and what it copies does. -/
theorem ElfSafe.loadPhdr (h : img.ElfSafe) (root : Addr) (s : PmState σ) {i : ℕ}
    (hi : i < img.phnum.toNat) (hreach : img.ElfReaches i) :
    Ensures (Access.Inside img.size) (fun _ => img.ElfReaches (i + 1)) (img.loadPhdr root s i) := by
  -- a header that is passed lets the loop reach the next one
  have hnext : (img.type i = ptLoad → img.offset i + img.filesz i ≤ img.size) →
      img.ElfReaches (i + 1) := by
    intro hpass k hk htype
    rcases Nat.lt_succ_iff_lt_or_eq.mp hk with hlt | rfl
    · exact hreach k hlt htype
    · exact hpass htype
  rw [loadPhdr_eq]
  apply ensures_tell_bind (h.looks i hi hreach)
  split
  case isTrue htype => exact ensures_pure (hnext fun heq => absurd heq htype)
  case isFalse htype =>
    apply ensures_lift_bind
    intro _ hguard
    have hreach' := hnext fun _ => (Option.guard_eq_some' _).mp hguard
    refine ensures_foldlM (Q := fun _ => img.ElfReaches (i + 1)) _ (fun s _ va hva => ?_) hreach'
    apply (loadPage_ensures (h.copies i ⟨hi, not_not.mp htype⟩ hreach' va hva) s).weaken
    exact fun _ _ => hreach'

/-- `elf_load` stays inside of such images. -/
theorem ElfSafe.elfLoad (h : img.ElfSafe) (s : PmState σ) (root : Addr) :
    LoadsInside img (img.elfLoad s root) := by
  have hload : Ensures (Access.Inside img.size) (fun _ => img.WellPlaced) (img.elfLoad s root) := by
    apply elfCheck_ensures.bind
    intro _ hheader
    -- every header looked at is one that the loop reaches
    have hloop : Ensures (Access.Inside img.size) (fun _ => img.ElfReaches img.phnum.toNat)
        ((List.range img.phnum.toNat).foldlM (img.loadPhdr root) s) :=
      ensures_foldlM_range (Q := fun i _ => img.ElfReaches i) _
        (fun i hi s hreach => h.loadPhdr root s hi hreach)
        (fun k hk => absurd hk (Nat.not_lt_zero k))
    refine hloop.bind fun s hreach =>
      (ensures_read ?_).bind fun _ _ => ensures_pure (h.placed hreach)
    have hsize : 64 ≤ img.size.toNat := BitVec.le_def.mp hheader.size
    exact le_trans (by decide) hsize
  refine ⟨hload.log, fun hsome => ?_⟩
  obtain ⟨r, hr⟩ := Option.isSome_iff_exists.mp hsome
  exact hload.val r hr

/-- All of a well placed image may be looked at and copied. -/
theorem WellPlaced.elfSafe (h : img.WellPlaced) : img.ElfSafe := by
  refine ⟨fun i hi _ => ?_, fun i hload _ va _ => ?_, fun _ => h⟩
  -- a header is 56 bytes of the table, which lies inside
  · have hfield : ∀ c : Addr, ∀ len, c.toNat + len ≤ 56 →
        (Access.read (img.phdr i + c) len).Inside img.size := fun c len => h.field_inside hi
    refine List.forall_mem_cons.mpr ⟨h.phdr_inside hi (by decide), ?_⟩
    split
    case isTrue => simp
    case isFalse =>
      refine List.forall_mem_cons.mpr ⟨hfield 8 8 (by decide), ?_⟩
      refine List.forall_mem_cons.mpr ⟨hfield 32 8 (by decide), ?_⟩
      split
      case isTrue =>
        refine List.forall_mem_cons.mpr ⟨hfield 4 4 (by decide), ?_⟩
        refine List.forall_mem_cons.mpr ⟨hfield 16 8 (by decide), ?_⟩
        exact List.forall_mem_singleton.mpr (hfield 40 8 (by decide))
      case isFalse => simp
  · have hinside : (img.segment i).Inside img.size := h.load i hload.1 hload.2
    exact (Segment.copyTo_inside_iff 0).mp (hinside.copyTo 0 va)

end Image

end ElfLoad

/-! ### A kernel that has pages enough

For the other direction nothing else may stop the loader, so the allocator never fails. -/

/-- A page allocator that always has a page. -/
structure EndlessAllocator where

instance : PageAllocator EndlessAllocator where
  allocPages m := (0x1000#64, m)
  freePages m _ := m

section Endless

variable {img : Image} {root : Addr} {s s' : PmState EndlessAllocator}

/-- With memory enough the next table is always there. -/
theorem nextTable_endless (s : PmState EndlessAllocator) (level : Level) (table : Addr)
    (i : BitVec 9) : ∃ next s', s.nextTable level table i = (some next, s') := by
  rw [PmState.nextTable]
  split
  case isTrue => exact ⟨_, _, rfl⟩
  case isFalse => exact ⟨_, _, rfl⟩

/-- So every page is mapped. -/
theorem pmapMapPage_endless (s : PmState EndlessAllocator) (root va pa : Addr) (flags : BitVec 32) :
    ∃ s', s.pmapMapPage root va pa flags = (true, s') := by
  obtain ⟨pdpt, s₁, h₁⟩ := nextTable_endless s .pml4 root (pml4Index va)
  obtain ⟨pd, s₂, h₂⟩ := nextTable_endless s₁ .pdpt pdpt (pdptIndex va)
  obtain ⟨pt, s₃, h₃⟩ := nextTable_endless s₂ .pd pd (pdIndex va)
  rw [PmState.pmapMapPage, h₁]
  dsimp only
  rw [h₂]
  dsimp only
  split
  case isTrue => exact ⟨_, rfl⟩
  case isFalse =>
    rw [h₃]
    exact ⟨_, rfl⟩

/-- So `pmap_map` succeeds if it returns. -/
theorem mapLoop_endless {vaEnd step : Addr} {flags : BitVec 32} {fuel : ℕ} {va pa : Addr}
    {ok : Bool} (h : s.mapLoop root vaEnd step flags fuel va pa = some (ok, s')) : ok = true := by
  induction fuel generalizing va pa s with
  | zero => cases h
  | succ fuel ih =>
      obtain ⟨s₁, h₁⟩ := pmapMapPage_endless s root va pa flags
      rw [PmState.mapLoop, h₁] at h
      split at h
      case isTrue => exact ih h
      case isFalse => exact (congrArg Prod.fst (Option.some.inj h)).symm

/-- A page is loaded, and what is copied is in the log. -/
theorem loadPage_endless {ph : Segment} {va : Addr} (hva : va ∈ ph.pages)
    (s : PmState EndlessAllocator) :
    Yields (fun _ => True) (Image.loadPage root ph s va) ∧
      ∀ a ∈ ph.copyTo 0x1000#64 va, a ∈ (Image.loadPage root ph s va).log := by
  have hpage : pageSize.toNat ∣ va.toNat :=
    Nat.dvd_of_mod_eq_zero (isPage_iff.mp (Segment.mem_pages hva).1)
  obtain ⟨ok, s₁, hmap⟩ := pmapMap_page_returns s.allocPages.2 root 0x1000#64 ph hpage
  -- an allocator that never runs out lets every table be made
  have hok : ok = true := by
    rw [PmState.pmapMap, if_neg (by decide)] at hmap
    exact mapLoop_endless hmap
  subst hok
  have heq : Image.loadPage root ph s va = (do
      Traced.tell (ph.copyTo 0x1000#64 va)
      Traced.tell (ph.clearIn 0x1000#64 va)
      pure s₁) := by
    have halloc : s.allocPages.1 = 0x1000#64 := rfl
    rw [Image.loadPage, halloc, hmap]
    rfl
  rw [heq]
  exact ⟨⟨s₁, rfl, trivial⟩, fun a ha => mem_log_bind.mpr (Or.inl ha)⟩

namespace Image

/-- An iteration comes to its end if the test lets the header pass. -/
theorem yields_loadPhdr (s : PmState EndlessAllocator) {i : ℕ}
    (hpass : img.type i = ptLoad → img.offset i + img.filesz i ≤ img.size) :
    Yields (fun _ => True) (img.loadPhdr root s i) := by
  rw [loadPhdr_eq]
  apply (yields_tell _).bind
  intro _ _
  split
  case isTrue => exact yields_pure trivial
  case isFalse htype =>
    apply (yields_guard (hpass (not_not.mp htype))).bind
    intro _ _
    exact yields_foldlM _ (fun s _ va hva => (loadPage_endless hva s).1) trivial

/-- The loop gets as far as the tests let it get. -/
theorem yields_loadPhdrs (root : Addr) (s : PmState EndlessAllocator) {i : ℕ}
    (hreach : img.ElfReaches i) :
    Yields (fun _ => True) ((List.range i).foldlM (img.loadPhdr root) s) :=
  yields_foldlM _ (fun s _ k hk => yields_loadPhdr s (hreach k (List.mem_range.mp hk))) trivial

/-- What happens in an iteration that is reached is in the log of `elf_load`. -/
theorem mem_log_elfLoad (root : Addr) (hheader : img.HeaderOk) (s : PmState EndlessAllocator)
    {i : ℕ} (hi : i < img.phnum.toNat) (hreach : img.ElfReaches i) :
    ∃ s₁ : PmState EndlessAllocator,
      ∀ a ∈ (img.loadPhdr root s₁ i).log, a ∈ (img.elfLoad s root).log := by
  obtain ⟨s₁, hs₁, -⟩ := yields_loadPhdrs root s hreach
  refine ⟨s₁, fun a ha => mem_log_bind.mpr (Or.inr ⟨(), elfCheck_val.mpr hheader, ?_⟩)⟩
  refine mem_log_bind.mpr (Or.inl ?_)
  obtain ⟨n, hn⟩ : ∃ n, img.phnum.toNat = i + (n + 1) := ⟨img.phnum.toNat - i - 1, by omega⟩
  rw [hn, List.range_add, List.range_succ_eq_map, List.map_cons, Nat.add_zero]
  exact mem_log_foldlM hs₁ ha

/-- If `elf_load` stays inside with this allocator, the image is safe for it. -/
theorem elfSafe_of_loadsInside (hheader : img.HeaderOk) (s : PmState EndlessAllocator)
    (h : LoadsInside img (img.elfLoad s root)) : img.ElfSafe := by
  refine ⟨fun i hi hreach a ha => ?_, fun i hload hreach va hva => ?_, fun hreach => h.rejects ?_⟩
  · obtain ⟨s₁, hs₁⟩ := mem_log_elfLoad root hheader s hi hreach
    refine h.reads a (hs₁ a ?_)
    rw [loadPhdr_eq]
    exact mem_log_bind.mpr (Or.inl ha)
  · obtain ⟨s₁, hs₁⟩ := mem_log_elfLoad root hheader s hload.1
      fun k hk => hreach k (Nat.lt_succ_of_lt hk)
    obtain ⟨l₁, l₂, hpages⟩ := List.append_of_mem hva
    -- the pages before this one are loaded
    have hbefore : Yields (fun _ => True)
        (l₁.foldlM (Image.loadPage root (img.segment i)) s₁) := by
      refine yields_foldlM _ (fun s _ va' hva' => (loadPage_endless ?_ s).1) trivial
      rw [hpages]
      exact List.mem_append_left _ hva'
    obtain ⟨s₂, hs₂, -⟩ := hbefore
    refine (Segment.copyTo_inside_iff 0x1000#64).mp fun a ha => h.reads a (hs₁ a ?_)
    rw [loadPhdr_eq, if_neg (not_not.mpr hload.2)]
    refine mem_log_bind.mpr (Or.inr ⟨(), rfl, mem_log_bind.mpr (Or.inr ⟨(), ?_, ?_⟩)⟩)
    · rw [lift_val, guard, if_pos (hreach i (Nat.lt_succ_self i) hload.2)]
      rfl
    · rw [hpages]
      exact mem_log_foldlM hs₂ ((loadPage_endless hva s₂).2 a ha)
  · obtain ⟨s₁, hs₁, -⟩ := yields_loadPhdrs root s hreach
    rw [elfLoad, val_bind, elfCheck_val.mpr hheader, Option.bind_some, val_bind, hs₁]
    rfl

end Image

end Endless

/-! ### `root_main`

The root server's loader joins headers before it loads anything for them. -/

section RootLoad

variable {img : Image} {env : RootEnv} {i j : ℕ} {vmas : VmaState Unit}

namespace Image

/-- Reading a field comes to an end. -/
theorem yields_read (img : Image) (off : Addr) (len : ℕ) :
    Yields (fun _ => True) (img.read off len) := ⟨_, rfl, trivial⟩

/-- So does the test whether a segment continues the one before. -/
theorem yields_continues (img : Image) (ph : Segment) (i : ℕ) :
    Yields (fun _ => True) (img.continues ph i) := by
  -- four reads, after each of which the loop may be left
  apply (yields_read img _ _).bind
  intro v _
  split
  case isTrue => exact yields_pure trivial
  case isFalse =>
    apply (yields_read img _ _).bind
    intro flags _
    split
    case isTrue => exact yields_pure trivial
    case isFalse =>
      apply (yields_read img _ _).bind
      intro vaddr _
      split
      case isTrue => exact yields_pure trivial
      case isFalse => exact (yields_read img _ _).bind fun _ _ => yields_pure trivial

/-- So does the loop that joins segments, by induction on the headers left. -/
theorem yields_joinLoop (img : Image) (left : ℕ) (ph : Segment) (i : ℕ) :
    Yields (fun _ => True) (img.joinLoop left ph i) := by
  induction left generalizing ph i with
  | zero => exact yields_pure trivial
  | succ left ih =>
      apply (yields_continues img ph (i + 1)).bind
      intro b _
      split
      case isTrue => exact Yields.bind (Q := fun _ => True) ⟨_, rfl, trivial⟩ fun ph _ => ih ph _
      case isFalse => exact yields_pure trivial

/-- The headers from `i` on are joined up to some `j`. -/
theorem nextSegment_val (hload : img.IsLoad i) : ∃ j, img.Joined i j ∧ ¬ img.Joins j ∧
    (img.nextSegment i).val = some (img.join i j, j) := by
  have hval : (img.nextSegment i).val =
      (img.joinLoop (img.phnum.toNat - (i + 1)) (img.join i i) i).val := by
    rw [join_self]
    rfl
  obtain ⟨⟨ph, j⟩, hj, -⟩ := yields_joinLoop img (img.phnum.toNat - (i + 1)) (img.join i i) i
  have hi := hload.1
  have hloop := (ensures_joinLoop (img.phnum.toNat - (i + 1)) hload (Joined.refl i) (by omega)).val
    _ hj
  obtain ⟨hph, -, hjoined, hlast⟩ := hloop
  dsimp only at hph hjoined hlast
  exact ⟨j, hjoined, hlast, by rw [hval, hj, hph]⟩

/-- There is one such `j` only. -/
theorem Joined.unique (h : img.Joined i j) (hlast : ¬ img.Joins j) {k : ℕ} (hk : img.Joined i k)
    (hlast' : ¬ img.Joins k) : j = k := by
  rcases Nat.lt_trichotomy j k with hlt | heq | hlt
  · exact absurd (hk.2 j h.1 hlt) hlast
  · exact heq
  · exact absurd (h.2 k hk.1 hlt) hlast'

/-! ### Well placed images

An image whose parts all lie in it is never left, by either loader. -/

/-- The header of a segment lies in the file, and what it says does. -/
theorem WellPlaced.readPhdr (h : img.WellPlaced) (hi : i < img.phnum.toNat)
    (hload : img.type i = ptLoad) :
    Ensures (Access.Inside img.size) (fun ph => ph.Inside img.size) (img.readPhdr i) := by
  refine ensures_tell_bind ?_ (ensures_pure (h.load i hi hload))
  intro a ha
  rw [List.mem_singleton.mp ha]
  exact h.phdr_inside hi (by decide)

/-- Testing the next segment reads inside the file. -/
theorem WellPlaced.continues (h : img.WellPlaced) (hi : i < img.phnum.toNat) (ph : Segment) :
    Ensures (Access.Inside img.size)
      (fun b => b = true → img.type i = ptLoad ∧ img.offset i = ph.offset + ph.filesz)
      (img.continues ph i) := by
  apply (h.readType hi).bind
  intro v hv
  split
  case isTrue => exact ensures_pure (by simp)
  case isFalse hload =>
    apply (h.read hi (by decide)).bind
    intro flags _
    split
    case isTrue => exact ensures_pure (by simp)
    case isFalse =>
      apply (h.read hi (by decide)).bind
      intro vaddr _
      split
      case isTrue => exact ensures_pure (by simp)
      case isFalse =>
        refine (h.read hi (by decide)).bind fun offset hoffset => ensures_pure fun hb => ?_
        -- all four fields agree: the header loads, and its file part follows
        rw [not_not, hv] at hload
        exact ⟨hload, hoffset.symm.trans (beq_iff_eq.mp hb)⟩

/-- Two segments that follow each other in the file have their bytes between them. -/
theorem WellPlaced.absorb (h : img.WellPlaced) (hi : i < img.phnum.toNat)
    (hload : img.type i = ptLoad) {ph : Segment} (hph : ph.Inside img.size)
    (hoff : img.offset i = ph.offset + ph.filesz) :
    Ensures (Access.Inside img.size) (fun ph => ph.Inside img.size) (img.absorb ph i) := by
  refine (h.read hi (by decide)).bind fun vaddr _ => (h.read hi (by decide)).bind fun memsz _ => ?_
  apply (h.read hi (by decide)).bind
  intro offset hoffset
  refine (h.read hi (by decide)).bind fun filesz hfilesz => ensures_pure ?_
  have hnext : (img.offset i).toNat + (img.filesz i).toNat ≤ img.size.toNat := h.load i hi hload
  have hfirst : ph.offset.toNat + ph.filesz.toNat ≤ img.size.toNat := hph
  have hsize := img.size.isLt
  -- Neither sum wraps around, so that the lengths add up.
  have hstart : (img.offset i).toNat = ph.offset.toNat + ph.filesz.toNat := by
    rw [hoff, BitVec.toNat_add, Nat.mod_eq_of_lt (by omega)]
  have hoffset' : offset = img.offset i := hoffset
  have hfilesz' : filesz = img.filesz i := hfilesz
  have hlen : (offset + filesz - ph.offset).toNat = ph.filesz.toNat + (img.filesz i).toNat := by
    have hsum : (offset + filesz).toNat = (img.offset i).toNat + (img.filesz i).toNat := by
      rw [hoffset', hfilesz', BitVec.toNat_add, Nat.mod_eq_of_lt (by omega)]
    rw [BitVec.toNat_sub_of_le (BitVec.le_def.mpr (by omega)), hsum]
    omega
  show ph.offset.toNat + (offset + filesz - ph.offset).toNat ≤ img.size.toNat
  omega

/-- Joining segments reads inside the file and gives one that lies in it. -/
theorem WellPlaced.joinLoop (h : img.WellPlaced) (left : ℕ) {ph : Segment} {i : ℕ}
    (hleft : i + left < img.phnum.toNat) (hph : ph.Inside img.size) :
    Ensures (Access.Inside img.size) (fun joined => joined.1.Inside img.size)
      (img.joinLoop left ph i) := by
  induction left generalizing ph i with
  | zero => exact ensures_pure hph
  | succ left ih =>
      have hi : i + 1 < img.phnum.toNat := by omega
      apply (h.continues hi ph).bind
      intro b hb
      split
      case isTrue htrue =>
        obtain ⟨hload, hoff⟩ := hb htrue
        exact (h.absorb hi hload hph hoff).bind fun ph hph => ih (by omega) hph
      case isFalse => exact ensures_pure hph

/-- All of a well placed image may be looked at and copied. -/
theorem WellPlaced.rootSafe (h : img.WellPlaced) : img.RootSafe := by
  have hnext : ∀ i, img.IsLoad i → Ensures (Access.Inside img.size)
      (fun joined => joined.1.Inside img.size) (img.nextSegment i) := by
    intro i hload
    have hi := hload.1
    exact (h.readPhdr hi hload.2).bind fun ph hph => h.joinLoop _ (by omega) hph
  refine ⟨fun i vmas _ hi => ?_, fun i j vmas _ hload hjoined hlast va _ => ?_, fun _ _ _ _ => h⟩
  · refine List.forall_mem_cons.mpr ⟨h.phdr_inside hi (by decide), ?_⟩
    split
    case isTrue => simp
    case isFalse htype => exact (hnext i ⟨hi, not_not.mp htype⟩).log
  · obtain ⟨k, hk, hlast', hval⟩ := nextSegment_val hload
    obtain rfl := hjoined.unique hlast hk hlast'
    have hinside : (img.join i j).Inside img.size := (hnext i hload).val _ hval
    exact (Segment.copyTo_inside_iff 0).mp (hinside.copyTo 0 va)

/-! ### The loop of `root_main`

One segment after the other, as long as `vma_insert` and the kernel let it. -/

/-- The loop stays inside if what it looks at and what it copies does. -/
theorem RootSafe.segmentLoop (h : img.RootSafe) (left i : ℕ) (r : RootState)
    (hleft : img.phnum.toNat ≤ i + left) (hreach : img.RootReaches i r.vmas) :
    Ensures (Access.Inside img.size) (fun _ => img.WellPlaced) (img.segmentLoop env left i r) := by
  induction left generalizing i r with
  | zero => exact ensures_pure (h.placed i r.vmas hreach hleft)
  | succ left ih =>
      rw [Image.segmentLoop]
      split
      case isFalse hi => exact ensures_pure (h.placed i r.vmas hreach (Nat.le_of_not_lt hi))
      case isTrue hi =>
        obtain ⟨hread, hlooks⟩ := List.forall_mem_cons.mp (h.looks i r.vmas hreach hi)
        apply (ensures_read hread).bind
        intro type htype
        obtain rfl : type = img.type i := htype
        split
        case isTrue htype => exact ih (i + 1) r (by omega) (hreach.skip hi htype)
        case isFalse htype =>
          rw [if_neg htype] at hlooks
          have hload : img.IsLoad i := ⟨hi, not_not.mp htype⟩
          obtain ⟨j, hjoined, hlast, hval⟩ := nextSegment_val hload
          -- what `nextSegment` looks at is what is looked at here
          obtain ⟨hreadPhdr, hjoinLoop⟩ := forall_log_bind.mp hlooks
          refine Ensures.bind (Q := fun ph => ph = img.segment i)
            ⟨hreadPhdr, fun ph hph => (Option.some.inj hph).symm⟩ fun ph hph => ?_
          subst hph
          have hval' : (img.joinLoop (img.phnum.toNat - (i + 1)) (img.segment i) i).val =
              some (img.join i j, j) := hval
          refine Ensures.bind (Q := fun joined => joined = (img.join i j, j))
            ⟨hjoinLoop _ rfl, fun joined hjoined =>
              Option.some.inj (hjoined.symm.trans hval')⟩ fun joined heq => ?_
          subst heq
          have hcopy : ∀ va ∈ (img.join i j).reached,
              ∀ a ∈ (img.join i j).copyTo scratchVa va, a.Inside img.size := fun va hva =>
            (Segment.copyTo_inside_iff scratchVa).mpr
              (h.copies i j r.vmas hreach hload hjoined hlast va hva)
          refine (RootState.loadSegment_ensures (Access.allows_inside _) hcopy r).bind
            fun r' hr' => ?_
          obtain ⟨hgranted, htaken, hvmas⟩ := hr'
          have hij := hjoined.1
          apply ih (j + 1) r' (by omega)
          rw [hvmas]
          exact hreach.load hload hjoined hlast hgranted htaken

/-- `root_main` stays inside of such images. -/
theorem RootSafe.rootLoad (h : img.RootSafe) (env : RootEnv) (pager : Pager) :
    LoadsInside img (img.rootLoad env pager) := by
  have hload : Ensures (Access.Inside img.size) (fun _ => img.WellPlaced)
    (img.rootLoad env pager) := by
    refine elfCheck_ensures.bind fun _ _ => (RootState.ask_ensures _).bind fun r hr => ?_
    apply h.segmentLoop _ 0 r (Nat.le_add_left _ _)
    rw [hr]
    exact RootReaches.start
  refine ⟨hload.log, fun hsome => ?_⟩
  obtain ⟨r, hr⟩ := Option.isSome_iff_exists.mp hsome
  exact hload.val r hr

/-! ### A kernel that grants all that it can

For the other direction the kernel refuses nothing but what `SYS_MAP` must. -/

/-- From the header `i` on, this is what `root_main` does, with a pool of one frame. -/
def Continues (img : Image) (i : ℕ) (vmas : VmaState Unit) : Prop :=
  ∃ left r, r.Stocked onePage vmas ∧ img.phnum.toNat ≤ i + left ∧
    (∀ a ∈ (img.segmentLoop grantsAll left i r).log, a ∈ (img.rootLoad grantsAll onePage).log) ∧
    ((img.segmentLoop grantsAll left i r).val.isSome = true →
      (img.rootLoad grantsAll onePage).val.isSome = true)

/-- The pages that are reached are loaded up to the last one, for which there is a copy. -/
theorem mem_log_loadSegment {ph : Segment} {r : RootState} (h : r.Stocked onePage vmas) {va : Addr}
    (hva : va ∈ ph.reached) {a : Access} (ha : a ∈ ph.copyTo scratchVa va) :
    a ∈ (r.loadSegment grantsAll ph).log := by
  have hpool : 0 < onePage.setBits.length := by decide
  -- the pages before this one are mapped, so the loader gets here
  obtain ⟨l₁, l₂, hpages, hbefore⟩ : ∃ l₁ l₂, ph.pages = l₁ ++ va :: l₂ ∧
      (l₁ = [] ∨ ph.Mappable) := by
    rw [Segment.reached] at hva
    split at hva
    case isTrue hph =>
      obtain ⟨l₁, l₂, hpages⟩ := List.append_of_mem hva
      exact ⟨l₁, l₂, hpages, Or.inr hph⟩
    case isFalse =>
      cases hpages : ph.pages with
      | nil =>
          rw [hpages] at hva
          cases hva
      | cons va' l =>
          rw [hpages] at hva
          obtain rfl : va = va' := List.mem_singleton.mp hva
          exact ⟨[], l, rfl, Or.inl rfl⟩
  have hfront : Yields (RootState.Stocked onePage vmas)
      (l₁.foldlM (RootState.loadPage grantsAll ph) r) := by
    rcases hbefore with rfl | hph
    · exact yields_pure h
    · exact yields_foldlM _ (fun r hr va _ => hr.loadPage hpool granted_grantsAll hph va) h
  obtain ⟨r₁, hr₁, hstocked⟩ := hfront
  obtain ⟨-, -, -, -, hcopy⟩ := hstocked.loadPage_front hpool granted_grantsAll ph va
  refine mem_log_bind.mpr (Or.inl ?_)
  rw [hpages]
  exact mem_log_foldlM hr₁ (hcopy a ha)

/-- One iteration, for a header that is no `PT_LOAD`. -/
theorem Continues.skip (h : img.Continues i vmas) (hi : i < img.phnum.toNat)
    (htype : img.type i ≠ ptLoad) : img.Continues (i + 1) vmas := by
  obtain ⟨left, r, hr, hleft, hlog, hval⟩ := h
  obtain ⟨left, rfl⟩ : ∃ n, left = n + 1 := ⟨left - 1, by omega⟩
  have hstep : img.segmentLoop grantsAll (left + 1) i r =
      img.read (img.phdr i) 4 >>= fun _ => img.segmentLoop grantsAll left (i + 1) r := by
    have htype' : img.field (img.phdr i) 4 ≠ ptLoad := htype
    rw [segmentLoop, if_pos hi, read_bind, read_bind, if_pos htype']
  rw [hstep] at hlog hval
  refine ⟨left, r, hr, by omega, fun a ha => hlog a ?_, hval⟩
  exact mem_log_bind.mpr (Or.inr ⟨_, rfl, ha⟩)

/-- An iteration for a `PT_LOAD`: what is looked at and what is loaded is in the log. -/
theorem Continues.mem_log (h : img.Continues i vmas) (hload : img.IsLoad i)
    (hjoined : img.Joined i j) (hlast : ¬ img.Joins j) :
    ∃ (left : ℕ) (r : RootState), r.Stocked onePage vmas ∧
      img.phnum.toNat ≤ i + (left + 1) ∧
      (∀ a ∈ (img.nextSegment i).log, a ∈ (img.rootLoad grantsAll onePage).log) ∧
      (∀ a ∈ (r.loadSegment grantsAll (img.join i j)).log,
        a ∈ (img.rootLoad grantsAll onePage).log) ∧
      ∀ r', (r.loadSegment grantsAll (img.join i j)).val = some r' →
        (∀ a ∈ (img.segmentLoop grantsAll left (j + 1) r').log,
          a ∈ (img.rootLoad grantsAll onePage).log) ∧
        ((img.segmentLoop grantsAll left (j + 1) r').val.isSome = true →
          (img.rootLoad grantsAll onePage).val.isSome = true) := by
  obtain ⟨left, r, hr, hleft, hlog, hval⟩ := h
  have hi := hload.1
  obtain ⟨left, rfl⟩ : ∃ n, left = n + 1 := ⟨left - 1, by omega⟩
  obtain ⟨k, hk, hlast', hnext⟩ := nextSegment_val hload
  obtain rfl := hjoined.unique hlast hk hlast'
  have hjoinLoop : (img.joinLoop (img.phnum.toNat - (i + 1)) (img.segment i) i).val =
      some (img.join i j, j) := hnext
  have hstep : img.segmentLoop grantsAll (left + 1) i r =
      img.read (img.phdr i) 4 >>= fun _ => img.readPhdr i >>= fun ph =>
        img.joinLoop (img.phnum.toNat - (i + 1)) ph i >>= fun joined =>
          r.loadSegment grantsAll joined.1 >>= fun r =>
            img.segmentLoop grantsAll left (joined.2 + 1) r := by
    have htype : ¬ img.field (img.phdr i) 4 ≠ ptLoad := not_not.mpr hload.2
    rw [segmentLoop, if_pos hi, read_bind, read_bind, if_neg htype]
  rw [hstep] at hlog hval
  -- what comes after the inner loop is in the log
  have hbehind : ∀ a ∈ (r.loadSegment grantsAll (img.join i j) >>= fun r =>
      img.segmentLoop grantsAll left (j + 1) r).log, a ∈ (img.rootLoad grantsAll onePage).log := by
    intro a ha
    refine hlog a (mem_log_bind.mpr (Or.inr ⟨_, rfl, mem_log_bind.mpr (Or.inr ⟨_, rfl, ?_⟩)⟩))
    exact mem_log_bind.mpr (Or.inr ⟨_, hjoinLoop, ha⟩)
  refine ⟨left, r, hr, hleft, fun a ha => ?_, fun a ha => hbehind a (mem_log_bind.mpr (Or.inl ha)),
    fun r' hr' => ⟨fun a ha => hbehind a (mem_log_bind.mpr (Or.inr ⟨r', hr', ha⟩)),
    fun hsome => ?_⟩⟩
  · refine hlog a (mem_log_bind.mpr (Or.inr ⟨_, rfl, ?_⟩))
    rcases mem_log_bind.mp ha with ha | ⟨ph, hph, ha⟩
    · exact mem_log_bind.mpr (Or.inl ha)
    · exact mem_log_bind.mpr (Or.inr ⟨ph, hph, mem_log_bind.mpr (Or.inl ha)⟩)
  · apply hval
    have hphdr : (img.readPhdr i).val = some (img.segment i) := rfl
    rw [val_bind, read_val, Option.bind_some, val_bind, hphdr, Option.bind_some, val_bind,
      hjoinLoop, Option.bind_some, val_bind, hr', Option.bind_some]
    exact hsome

/-- Whatever `root_main` can reach, it reaches here. -/
theorem continues_of_reaches (hheader : img.HeaderOk) (h : img.RootReaches i vmas) :
    img.Continues i vmas := by
  have hpool : 0 < onePage.setBits.length := by decide
  induction h with
  | start =>
      have hfirst : RootState.Stocked onePage (VmaState.zero.vmaSetInit ())
          ⟨onePage, 0, VmaState.zero.vmaSetInit ()⟩ :=
          ⟨⟨0, 0, rfl, Pager.atIndex_zero onePage⟩, rfl⟩
      obtain ⟨r, hr, hstocked⟩ := hfirst.ask granted_grantsAll
      -- the header passes, so that the load begins with the first program header
      have hcheck : img.elfCheck.val = some () := elfCheck_val.mpr hheader
      refine ⟨img.phnum.toNat, r, hstocked, Nat.le_add_left _ _, fun a ha => ?_, fun hsome => ?_⟩
      · exact mem_log_bind.mpr (Or.inr ⟨(), hcheck, mem_log_bind.mpr (Or.inr ⟨r, hr, ha⟩)⟩)
      · rw [rootLoad, val_bind, hcheck, Option.bind_some, val_bind, hr, Option.bind_some]
        exact hsome
  | skip _ hi htype ih => exact ih.skip hi htype
  | load _ hload hjoined hlast hgranted htaken ih =>
      obtain ⟨left, r, hr, hleft, -, -, hrest⟩ := ih.mem_log hload hjoined hlast
      -- the pool has enough pages and the kernel grants all, so that only `vma_insert` could refuse
      obtain ⟨r', hr', hstocked⟩ := hr.loadSegment hpool granted_grantsAll hgranted htaken
      obtain ⟨hlog, hval⟩ := hrest r' hr'
      have hij := hjoined.1
      exact ⟨left, r', hstocked, by omega, hlog, hval⟩

/-- If `root_main` stays inside with this kernel, the image is safe for it. -/
theorem rootSafe_of_loadsInside (hheader : img.HeaderOk)
    (h : LoadsInside img (img.rootLoad grantsAll onePage)) : img.RootSafe := by
  refine ⟨fun i vmas hreach hi a ha => h.reads a ?_,
    fun i j vmas hreach hload hjoined hlast va hva => ?_, fun i vmas hreach hi => h.rejects ?_⟩
  -- the loader gets this far when every call succeeds, and reads what comes next
  · have hcont := continues_of_reaches hheader hreach
    rcases List.mem_cons.mp ha with rfl | ha
    · obtain ⟨left, r, -, hleft, hlog, -⟩ := hcont
      obtain ⟨left, rfl⟩ : ∃ n, left = n + 1 := ⟨left - 1, by omega⟩
      apply hlog _
      rw [segmentLoop, if_pos hi]
      exact mem_log_bind.mpr (Or.inl List.mem_cons_self)
    · split at ha
      case isTrue => cases ha
      case isFalse htype =>
        have hload : img.IsLoad i := ⟨hi, not_not.mp htype⟩
        obtain ⟨j, hjoined, hlast, -⟩ := nextSegment_val hload
        obtain ⟨-, -, -, -, hlooks, -⟩ := hcont.mem_log hload hjoined hlast
        exact hlooks a ha
  · obtain ⟨-, r, hr, -, -, hlog, -⟩ :=
      (continues_of_reaches hheader hreach).mem_log hload hjoined hlast
    refine (Segment.copyTo_inside_iff scratchVa).mp fun a ha => h.reads a (hlog a ?_)
    exact mem_log_loadSegment hr hva ha
  · obtain ⟨left, r, -, -, -, hval⟩ := continues_of_reaches hheader hreach
    apply hval
    cases left with
    | zero => rfl
    | succ left =>
        rw [segmentLoop, if_neg (Nat.not_lt.mpr hi)]
        rfl

end Image

end RootLoad

/-! ### Which images are loaded safely

Both loaders, and both directions. -/

namespace Image

/-- A loader that begins with `elf_check` does nothing more if that fails. -/
theorem loadsInside_of_not_headerOk {img : Image} {α : Type} {f : Unit → Traced Access α}
    (h : ¬ img.HeaderOk) : LoadsInside img (img.elfCheck >>= f) := by
  have hnone : img.elfCheck.val = none := by
    cases hval : img.elfCheck.val with
    | none => rfl
    | some u => exact absurd (elfCheck_val.mp hval) h
  refine ⟨forall_log_bind.mpr ⟨elfCheck_ensures.log, fun a ha => ?_⟩, fun hsome => ?_⟩
  · rw [hnone] at ha
    cases ha
  · rw [val_bind, hnone] at hsome
    cases hsome

/-- Both loaders stay inside of an image, whatever the page allocator, the pool and the kernel do,
and turn it away if its parts do not lie in it, if and only if its header is refused or it is safe
for both. -/
theorem loads_inside_iff (img : Image) :
    ((∀ (σ : Type) [PageAllocator σ] (s : PmState σ) (root : Addr),
        LoadsInside img (img.elfLoad s root)) ∧
      ∀ env pager, LoadsInside img (img.rootLoad env pager)) ↔
    (img.HeaderOk → img.ElfSafe ∧ img.RootSafe) := by
  constructor
  · rintro ⟨helf, hroot⟩ hheader
    refine ⟨elfSafe_of_loadsInside hheader ⟨fun _ _ => 0, ⟨⟩, []⟩ (helf EndlessAllocator _ 0), ?_⟩
    exact rootSafe_of_loadsInside hheader (hroot grantsAll onePage)
  · intro h
    by_cases hheader : img.HeaderOk
    · obtain ⟨helf, hroot⟩ := h hheader
      exact ⟨fun σ _ s root => helf.elfLoad s root, fun env pager => hroot.rootLoad env pager⟩
    · exact ⟨fun σ _ s root => loadsInside_of_not_headerOk hheader,
        fun env pager => loadsInside_of_not_headerOk hheader⟩

/-- An image of a header and one program header, for two pages that are found 4096 bytes before the
image: `p_offset + p_filesz` wraps around to 16. -/
def beforeStart : Image where
  byte off := ([0x7F, 0x45, 0x4C, 0x46, 2, 1, 1, 0, 0, 0, 0, 0, 0, 0, 0, 0,
    2, 0, 62, 0, 1, 0, 0, 0, 0, 0, 0x40, 0, 0, 0, 0, 0,
    64, 0, 0, 0, 0, 0, 0, 0, 0, 0, 0, 0, 0, 0, 0, 0,
    0, 0, 0, 0, 64, 0, 56, 0, 1, 0, 0, 0, 0, 0, 0, 0,
    1, 0, 0, 0, 4, 0, 0, 0, 0, 0xF0, 0xFF, 0xFF, 0xFF, 0xFF, 0xFF, 0xFF,
    0, 0, 0x40, 0, 0, 0, 0, 0, 0, 0, 0, 0, 0, 0, 0, 0,
    0x10, 0x10, 0, 0, 0, 0, 0, 0, 0x10, 0x10, 0, 0, 0, 0, 0, 0,
    0, 0x10, 0, 0, 0, 0, 0, 0] : List (BitVec 8)).getD off.toNat 0
  size := 120#64

/-- Both loaders copy what lies before this image. -/
theorem beforeStart_copied :
    (∃ a ∈ (beforeStart.elfLoad (PmState.blank.pmapCreate 0x80000#64).2
      (PmState.blank.pmapCreate 0x80000#64).1).log, ¬ a.Inside beforeStart.size) ∧
    (∃ a ∈ (beforeStart.rootLoad grantsAll onePage).log, ¬ a.Inside beforeStart.size) := by
  decide +kernel

end Image

end Koharu
