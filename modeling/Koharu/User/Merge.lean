import Koharu.Lib.Packing
import Koharu.User.LoadersExact
import Koharu.User.VmaSets

/-!
# Joined segments

`root_main` joins a `PT_LOAD` to the one before if it goes on where that ends, in memory and in the
file, and loads both as one segment. This is not the same if the first one is longer in memory than
in the file: the bytes of the file come right after each other, so that what should be zero are the
first bytes of the second one, and the second one comes too early.

* `Joined`, `join`: the headers that are joined, and what to;
* `RootState.Takes.apart`: what `vma_insert` takes one after another has no page twice;
* `places_rootLoad`: `rootLoad` loads what the headers are joined to;
* `joined_segments_exact_iff`: the images of which the child reads what each of the headers says.
-/

namespace Koharu

open Traced Packing

/-! ### The loop over the headers

The headers are grouped, and each group is loaded as one segment. -/

/-- A look at the image. -/
def Access.IsRead : Access → Prop
  | .read _ _ => True
  | _ => False

namespace RootState

/-- `vma_insert` takes the pages of these segments, one after another. -/
def Takes : VmaState Unit → List Segment → Prop
  | _, [] => True
  | vmas, ph :: phs => (insertSegment vmas ph).1 = true ∧ Takes (insertSegment vmas ph).2 phs

variable {vmas : VmaState Unit} {phs : List Segment}

/-- What is on the tree is apart from all that comes to it. -/
theorem Takes.apart_of_holds (h : Takes vmas phs) (hvmas : vmas.Ordered) {start endAddr : BitVec 64}
    (hholds : vmas.Holds () start endAddr) :
    ∀ ph ∈ phs, endAddr ≤ ph.vaStart ∨ ph.vaEnd ≤ start := by
  induction phs generalizing vmas with
  | nil => exact fun ph hph => absurd hph List.not_mem_nil
  | cons ph phs ih =>
      obtain ⟨hins, hrest⟩ := h
      refine List.forall_mem_cons.mpr ⟨?_, ih hrest (hvmas.insert _ _ _ _ _) ?_⟩
      · obtain ⟨v, hv, rfl, rfl⟩ := hholds
        exact hvmas.apart hins hv
      · exact hvmas.holds_mono hholds _ _ _ _

/-- No page is in two of the segments. -/
theorem Takes.apart (h : Takes vmas phs) (hvmas : vmas.Ordered) :
    phs.Pairwise fun ph ph' => ∀ page ∈ ph.pages, page ∉ ph'.pages := by
  induction phs generalizing vmas with
  | nil => exact List.Pairwise.nil
  | cons ph phs ih =>
      obtain ⟨hins, hrest⟩ := h
      refine List.pairwise_cons.mpr ⟨fun ph' hph' page hpage hpage' => ?_,
        ih hrest (hvmas.insert _ _ _ _ _)⟩
      obtain ⟨-, hle, hlt⟩ := Segment.mem_pages_iff.mp hpage
      obtain ⟨-, hle', hlt'⟩ := Segment.mem_pages_iff.mp hpage'
      -- the record of the first segment stays, so that no later range meets it
      have hholds : (insertSegment vmas ph).2.Holds () ph.vaStart ph.vaEnd :=
        hvmas.holds_insert (BitVec.lt_def.mpr (by omega)) hins
      rcases hrest.apart_of_holds (hvmas.insert _ _ _ _ _) hholds ph' hph' with hapart | hapart
      · rw [BitVec.le_def] at hapart
        omega
      · rw [BitVec.le_def] at hapart
        omega

/-- `load_segment` comes to its end if `vma_insert` takes the segment. -/
theorem takes_of_loadSegment {env : RootEnv} {r r' : RootState} {ph : Segment}
    (h : (r.loadSegment env ph).val = some r') :
    (insertSegment r.vmas ph).1 = true ∧ r'.vmas = (insertSegment r.vmas ph).2 :=
  ((loadSegment_ensures (N := fun _ => True) ⟨fun _ _ _ _ => trivial, fun _ _ => trivial,
    fun _ _ => trivial⟩ (fun _ _ _ _ => trivial) r).val r' h).2

end RootState

namespace Image

variable (img : Image)

/-- There is a header `i`, and it is a `PT_LOAD`. -/
def IsLoad (i : ℕ) : Prop := i < img.phnum.toNat ∧ img.type i = ptLoad

/-- The header behind `i` goes on where `i` ends. -/
structure Joins (i : ℕ) : Prop where
  load : img.IsLoad i
  next : img.IsLoad (i + 1)
  flags : (img.segment (i + 1)).flags = (img.segment i).flags
  vaddr : (img.segment (i + 1)).vaddr = (img.segment i).vaddr + (img.segment i).memsz
  offset : (img.segment (i + 1)).offset = (img.segment i).offset + (img.segment i).filesz

/-- So do all headers up to `j`. -/
def Joined (i j : ℕ) : Prop := i ≤ j ∧ ∀ k, i ≤ k → k < j → img.Joins k

/-- What the headers from `i` to `j` are joined to. -/
def join (i j : ℕ) : Segment :=
  { img.segment i with
    memsz := (img.segment j).vaddr + (img.segment j).memsz - (img.segment i).vaddr
    filesz := (img.segment j).offset + (img.segment j).filesz - (img.segment i).offset }

/-- Headers from `i` on that are joined, as the first and the last one of each segment. -/
structure Grouped (i : ℕ) (gs : List (ℕ × ℕ)) : Prop where
  joined : ∀ g ∈ gs, i ≤ g.1 ∧ img.IsLoad g.1 ∧ img.Joined g.1 g.2 ∧ ¬ img.Joins g.2
  sorted : gs.Pairwise fun g g' => g.2 < g'.1
  covers : ∀ k, i ≤ k → img.IsLoad k → ∃ g ∈ gs, g.1 ≤ k ∧ k ≤ g.2

/-- The pages of what they are joined to. -/
def pagesOfGroup (g : ℕ × ℕ) : List (Segment × Addr) :=
  (img.join g.1 g.2).pages.map (Prod.mk (img.join g.1 g.2))

variable {img} {env : RootEnv} {i j a b : ℕ} {ph : Segment} {r r' : RootState}

/-- A segment is joined to itself. -/
theorem Joined.refl (i : ℕ) : img.Joined i i := ⟨le_rfl, fun _ _ _ => by omega⟩

/-- A run of joined segments is continued by one that joins its predecessor. -/
theorem Joined.succ (h : img.Joined a i) (hi : img.Joins i) : img.Joined a (i + 1) := by
  refine ⟨Nat.le_succ_of_le h.1, fun k hk hlt => ?_⟩
  rcases Nat.lt_succ_iff_lt_or_eq.mp hlt with hlt | rfl
  · exact h.2 k hk hlt
  · exact hi

/-- All headers that are joined are `PT_LOAD`s. -/
theorem Joined.isLoad (h : img.Joined a b) (ha : img.IsLoad a) {k : ℕ} (hak : a ≤ k) (hkb : k ≤ b) :
    img.IsLoad k := by
  rcases hak.eq_or_lt with rfl | hlt
  · exact ha
  · have hnext := (h.2 (k - 1) (by omega) (by omega)).next
    rwa [Nat.sub_add_cancel (by omega)] at hnext

/-- All segments of a run have the flags of the first. -/
theorem Joined.flags (h : img.Joined a b) : (img.segment b).flags = (img.segment a).flags := by
  obtain ⟨hab, hjoins⟩ := h
  induction b, hab using Nat.le_induction with
  | base => rfl
  | succ b hab ih =>
      exact (hjoins b hab (Nat.lt_succ_self b)).flags.trans
        (ih fun k hk hlt => hjoins k hk (Nat.lt_succ_of_lt hlt))

/-- The join of one segment is the segment. -/
theorem join_self (i : ℕ) : img.join i i = img.segment i := by
  rw [join, add_sub_cancel_left, add_sub_cancel_left]

/-- Reading a field logs reads only and gives the field. -/
theorem ensures_isRead (img : Image) (off : Addr) (len : ℕ) :
    Ensures Access.IsRead (fun v => v = img.field off len) (img.read off len) := by
  refine ⟨fun a ha => ?_, fun v hv => (Option.some.inj hv).symm⟩
  have hlog : (img.read off len).log = [.read off len] := rfl
  rw [hlog] at ha
  rw [List.mem_singleton.mp ha]
  trivial

/-- The test of the loop in `root_main`. -/
theorem ensures_continues (ph : Segment) (i : ℕ) :
    Ensures Access.IsRead (fun c => c = true ↔ img.type i = ptLoad ∧
      (img.segment i).flags = ph.flags ∧ (img.segment i).vaddr = ph.vaddr + ph.memsz ∧
      (img.segment i).offset = ph.offset + ph.filesz) (img.continues ph i) := by
  apply (ensures_isRead _ _ _).bind
  intro type htype
  -- each read gives a field of segment `i`, with which the loop condition is decided
  have htype' : type = img.type i := htype
  split
  case isTrue hne => exact ensures_pure (by simp [← htype', hne])
  case isFalse hload =>
    apply (ensures_isRead _ _ _).bind
    intro flags hflags
    have hflags' : flags = (img.segment i).flags := hflags
    split
    case isTrue hne => exact ensures_pure (by simp [← hflags', hne])
    case isFalse hsame =>
      apply (ensures_isRead _ _ _).bind
      intro vaddr hvaddr
      have hvaddr' : vaddr = (img.segment i).vaddr := hvaddr
      split
      case isTrue hne => exact ensures_pure (by simp [← hvaddr', hne])
      case isFalse hnext =>
        refine (ensures_isRead _ _ _).bind fun offset hoffset => ensures_pure ?_
        have hoffset' : offset = (img.segment i).offset := hoffset
        rw [not_not] at hload hsame hnext
        rw [← htype', ← hflags', ← hvaddr', ← hoffset', beq_iff_eq]
        exact ⟨fun h => ⟨hload, hsame, hnext, h⟩, fun h => h.2.2.2⟩

/-- The inner loop stops at the first header that does not go on where the one before it ends. -/
theorem ensures_joinLoop (left : ℕ) (hload : img.IsLoad i) (hjoined : img.Joined a i)
    (hleft : i + left + 1 = img.phnum.toNat) :
    Ensures Access.IsRead (fun joined => joined.1 = img.join a joined.2 ∧ i ≤ joined.2 ∧
      img.Joined a joined.2 ∧ ¬ img.Joins joined.2) (img.joinLoop left (img.join a i) i) := by
  induction left generalizing i with
  | zero =>
      refine ensures_pure ⟨rfl, le_rfl, hjoined, fun hjoins => ?_⟩
      have hlt := hjoins.next.1
      omega
  | succ left ih =>
      -- the sums in the test are those of the last header
      have hend : (img.join a i).vaddr + (img.join a i).memsz =
          (img.segment i).vaddr + (img.segment i).memsz := by
        rw [join, BitVec.add_comm, BitVec.sub_add_cancel]
      have hfile : (img.join a i).offset + (img.join a i).filesz =
          (img.segment i).offset + (img.segment i).filesz := by
        rw [join, BitVec.add_comm, BitVec.sub_add_cancel]
      have hflags : (img.join a i).flags = (img.segment i).flags := hjoined.flags.symm
      apply (ensures_continues _ _).bind
      intro c hc
      rw [hend, hfile, hflags] at hc
      split
      case isTrue htrue =>
        obtain ⟨htype, hflags, hvaddr, hoffset⟩ := hc.mp htrue
        have hjoins : img.Joins i := ⟨hload, ⟨by omega, htype⟩, hflags, hvaddr, hoffset⟩
        have habsorb : Ensures Access.IsRead (fun ph => ph = img.join a (i + 1))
            (img.absorb (img.join a i) (i + 1)) := by
          apply (ensures_isRead _ _ _).bind
          intro vaddr hvaddr
          apply (ensures_isRead _ _ _).bind
          intro memsz hmemsz
          apply (ensures_isRead _ _ _).bind
          intro offset hoffset
          refine (ensures_isRead _ _ _).bind fun filesz hfilesz => ensures_pure ?_
          rw [hvaddr, hmemsz, hoffset, hfilesz]
          rfl
        apply habsorb.bind
        intro ph hph
        rw [hph]
        have hrest := ih hjoins.next (hjoined.succ hjoins) (by omega)
        refine ⟨hrest.log, fun joined hval => ?_⟩
        obtain ⟨hfirst, hle, hlast⟩ := hrest.val joined hval
        exact ⟨hfirst, by omega, hlast⟩
      case isFalse hfalse =>
        refine ensures_pure ⟨rfl, le_rfl, hjoined, fun hjoins => hfalse ?_⟩
        exact hc.mpr ⟨hjoins.next.2, hjoins.flags, hjoins.vaddr, hjoins.offset⟩

/-- Nothing is loaded by looking at the image. -/
theorem places_of_isRead (img : Image) (env : RootEnv) {α : Type} {Q : α → Prop}
    {x : Traced Access α} (h : Ensures Access.IsRead Q x) : Places img env [] x.log := by
  apply Places.of_reads
  intro a ha
  have hread := h.log a ha
  cases a with
  | read off len => exact ⟨off, len, rfl⟩
  | copy | clear | map | unmap => exact hread.elim

/-- Reading a program header logs reads only and gives the segment. -/
theorem ensures_readPhdr (img : Image) (i : ℕ) :
    Ensures Access.IsRead (fun ph => ph = img.segment i) (img.readPhdr i) := by
  refine ensures_tell_bind (fun a ha => ?_) (ensures_pure rfl)
  rw [List.mem_singleton.mp ha]
  trivial

/-- Behind a header that is no `PT_LOAD`. -/
theorem Grouped.skip {gs : List (ℕ × ℕ)} (h : img.Grouped (i + 1) gs) (hnot : img.type i ≠ ptLoad) :
    img.Grouped i gs := by
  refine ⟨fun g hg => ?_, h.sorted, fun k hk hload => h.covers k ?_ hload⟩
  · obtain ⟨hle, hrest⟩ := h.joined g hg
    exact ⟨by omega, hrest⟩
  · rcases hk.eq_or_lt with rfl | hlt
    · exact absurd hload.2 hnot
    · exact hlt

/-- Behind headers that were joined. -/
theorem Grouped.cons {gs : List (ℕ × ℕ)} (h : img.Grouped (j + 1) gs) (hload : img.IsLoad i)
    (hjoined : img.Joined i j) (hlast : ¬ img.Joins j) : img.Grouped i ((i, j) :: gs) := by
  refine ⟨fun g hg => ?_, List.pairwise_cons.mpr ⟨fun g hg => ?_, h.sorted⟩, fun k hk hk' => ?_⟩
  · rcases List.mem_cons.mp hg with rfl | hg
    · exact ⟨le_rfl, hload, hjoined, hlast⟩
    · obtain ⟨hle, hrest⟩ := h.joined g hg
      have hij := hjoined.1
      exact ⟨by omega, hrest⟩
  · exact (h.joined g hg).1
  · by_cases hkj : k ≤ j
    · exact ⟨(i, j), List.mem_cons_self, hk, hkj⟩
    · obtain ⟨g, hg, hcover⟩ := h.covers k (by omega) hk'
      exact ⟨g, List.mem_cons_of_mem _ hg, hcover⟩

/-- The headers from `i` on are joined, and what they are joined to is loaded and taken. -/
theorem places_segmentLoop (left : ℕ) (hleft : img.phnum.toNat ≤ i + left)
    (hload : (img.segmentLoop env left i r).val = some r') :
    ∃ gs, img.Grouped i gs ∧
      Places img env (gs.flatMap img.pagesOfGroup) (img.segmentLoop env left i r).log ∧
      RootState.Takes r.vmas (gs.map fun g => img.join g.1 g.2) := by
  induction left generalizing i r with
  | zero =>
      refine ⟨[], ⟨by simp, List.Pairwise.nil, fun k hk hload => ?_⟩,
        Places.of_reads (by simp [segmentLoop]), trivial⟩
      have hlt := hload.1
      omega
  | succ left ih =>
      rw [segmentLoop] at hload ⊢
      split at hload
      case isFalse hend =>
        rw [if_neg hend]
        refine ⟨[], ⟨by simp, List.Pairwise.nil, fun k hk hload => ?_⟩, Places.of_reads (by simp),
          trivial⟩
        have hlt := hload.1
        omega
      case isTrue hi =>
        rw [if_pos hi]
        -- the type of the header is read; others than `PT_LOAD` are skipped
        obtain ⟨type, htype, hval, hlog⟩ := Traced.exists_of_bind hload
        obtain rfl : img.type i = type := Option.some.inj htype
        have hread := places_of_isRead img env (ensures_isRead img (img.phdr i) 4)
        rw [hlog]
        split at hval
        case isTrue hnot =>
          rw [if_pos hnot]
          obtain ⟨gs, hgs, hplaces, htakes⟩ := ih (by omega) hval
          exact ⟨gs, hgs.skip hnot, hread.append hplaces, htakes⟩
        case isFalse hptLoad =>
          rw [if_neg hptLoad]
          have hi' : img.IsLoad i := ⟨hi, not_not.mp hptLoad⟩
          obtain ⟨ph, hph, hval, hlog⟩ := Traced.exists_of_bind hval
          obtain rfl : img.join i i = ph := (join_self i).trans (Option.some.inj hph)
          have hread' := places_of_isRead img env (ensures_readPhdr img i)
          -- the headers up to `j` are joined to this one
          obtain ⟨⟨ph, j⟩, hjoin, hval, hlog'⟩ := Traced.exists_of_bind hval
          have hjoinLoop := @ensures_joinLoop img i i (img.phnum.toNat - (i + 1)) hi'
            (Joined.refl i)
            (by omega)
          obtain ⟨hph, hij, hjoined, hlast⟩ := hjoinLoop.val _ hjoin
          dsimp only at hph hij hjoined hlast
          subst hph
          have hread'' := places_of_isRead img env hjoinLoop
          obtain ⟨r₁, hr₁, hval, hlog''⟩ := Traced.exists_of_bind hval
          obtain ⟨gs, hgs, hplaces, htakes⟩ := @ih (j + 1) r₁ (by omega) hval
          obtain ⟨hins, hvmas⟩ := RootState.takes_of_loadSegment hr₁
          -- the reads place nothing, the pages of the joined segment come first
          refine ⟨(i, j) :: gs, hgs.cons hi' hjoined hlast, ?_, hins, hvmas ▸ htakes⟩
          rw [hlog, hlog', hlog'']
          have hsegment : Places img env _ _ := RootState.places_loadSegment hr₁
          exact hread.append (hread'.append (hread''.append (hsegment.append hplaces)))

/-- Checking the ELF header logs reads only. -/
theorem ensures_elfCheck (img : Image) : Ensures Access.IsRead (fun _ => True) img.elfCheck :=
  ⟨forall_elfCheck_log fun _ _ _ _ => trivial, fun _ _ => trivial⟩

/-- All headers are joined, what they are joined to is loaded, and no page is loaded twice. -/
theorem places_rootLoad {pager : Pager} (hload : (img.rootLoad env pager).val = some r') :
    ∃ gs, img.Grouped 0 gs ∧
      Places img env (gs.flatMap img.pagesOfGroup) (img.rootLoad env pager).log ∧
      gs.Pairwise fun g g' => ∀ page ∈ (img.join g.1 g.2).pages,
        page ∉ (img.join g'.1 g'.2).pages := by
  obtain ⟨_, -, hval, hlog⟩ := Traced.exists_of_bind hload
  obtain ⟨r, hr, hval, hlog'⟩ := Traced.exists_of_bind hval
  obtain ⟨gs, hgs, hplaces, htakes⟩ := places_segmentLoop img.phnum.toNat (Nat.le_add_left _ _) hval
  have hvmas : r.vmas = VmaState.zero.vmaSetInit () :=
    (RootState.ask_ensures (N := fun _ => True) _).val r hr
  rw [hvmas] at htakes
  refine ⟨gs, hgs, ?_, List.pairwise_map.mp (htakes.apart (VmaState.rep_zero ()).ordered)⟩
  rw [rootLoad, hlog, hlog', RootState.ask_log]
  exact (places_of_isRead img env (ensures_elfCheck img)).append hplaces

/-! ### Where the headers lie in what they are joined to

A group's addresses and offsets, from those of its first header. -/

/-- `p_memsz` and `p_filesz`. -/
def memLen (img : Image) (i : ℕ) : ℕ := (img.segment i).memsz.toNat

@[inherit_doc memLen]
def fileLen (img : Image) (i : ℕ) : ℕ := (img.segment i).filesz.toNat

/-- The addresses of a header. -/
def range (img : Image) (i : ℕ) : Set ℕ :=
  Set.Ico (img.segment i).vaddr.toNat ((img.segment i).vaddr.toNat + img.memLen i)

/-- No range of addresses wraps around or overlaps another one, and no header has more in the file
than in memory. -/
structure Separate (img : Image) : Prop where
  wrap : ∀ i, img.IsLoad i → (img.segment i).vaddr.toNat + img.memLen i < 2 ^ 64
  disjoint : ∀ i j, img.IsLoad i → img.IsLoad j → i ≠ j → ∀ x ∈ img.range i, x ∉ img.range j
  file : ∀ i, img.IsLoad i → img.fileLen i ≤ img.memLen i

/-- The addresses of a segment's bytes lie in its range, so that no addition wraps. -/
theorem Separate.mem_range (h : img.Separate) (hload : img.IsLoad i) {t : ℕ}
    (ht : t < img.memLen i) :
    ((img.segment i).vaddr + BitVec.ofNat 64 t).toNat ∈ img.range i := by
  have hwrap := h.wrap i hload
  rw [range, BitVec.toNat_add, BitVec.toNat_ofNat, Nat.add_mod_mod, Nat.mod_eq_of_lt (by omega)]
  exact ⟨Nat.le_add_right _ _, Nat.add_lt_add_left ht _⟩

section Layout

variable (h : img.Separate) (ha : img.IsLoad a) (hjoined : img.Joined a b)

include h ha hjoined

omit ha in
/-- The headers that are joined follow each other in memory. -/
theorem Joined.toNat_vaddr {k : ℕ} (hak : a ≤ k) (hkb : k ≤ b) :
    (img.segment k).vaddr.toNat = (img.segment a).vaddr.toNat + start img.memLen a k := by
  induction k, hak using Nat.le_induction with
  | base => rw [start_self, Nat.add_zero]
  | succ k hak ih =>
      have hjoins := hjoined.2 k hak hkb
      have hwrap := h.wrap k hjoins.load
      unfold memLen at hwrap
      rw [hjoins.vaddr, start_succ _ hak, BitVec.toNat_add, Nat.mod_eq_of_lt hwrap, ih (by omega),
        memLen, Nat.add_assoc]

omit h ha in
/-- And in the file. -/
theorem Joined.offset {k : ℕ} (hak : a ≤ k) (hkb : k ≤ b) :
    (img.segment k).offset =
      (img.segment a).offset + BitVec.ofNat 64 (start img.fileLen a k) := by
  induction k, hak using Nat.le_induction with
  | base => rw [start_self, BitVec.add_zero]
  | succ k hak ih =>
      have hjoins := hjoined.2 k hak hkb
      rw [hjoins.offset, start_succ _ hak, ih (by omega), BitVec.ofNat_add, fileLen,
        BitVec.ofNat_toNat, BitVec.setWidth_eq, BitVec.add_assoc]

/-- The last address. -/
theorem Joined.end_lt : (img.segment a).vaddr.toNat + start img.memLen a (b + 1) < 2 ^ 64 := by
  have hwrap := h.wrap b (hjoined.isLoad ha hjoined.1 le_rfl)
  rw [hjoined.toNat_vaddr h hjoined.1 le_rfl] at hwrap
  rw [start_succ _ hjoined.1]
  omega

/-- A segment has no more bytes in the file than in memory. -/
theorem Joined.fileLen_le {k : ℕ} (hak : a ≤ k) (hkb : k < b + 1) : img.fileLen k ≤ img.memLen k :=
  h.file k (hjoined.isLoad ha hak (by omega))

/-- The memory size of a join is the sum of the sizes that were added up. -/
theorem Joined.join_memsz : (img.join a b).memsz.toNat = start img.memLen a (b + 1) := by
  have hend := hjoined.end_lt h ha
  have hvaddr := hjoined.toNat_vaddr h hjoined.1 le_rfl
  rw [start_succ _ hjoined.1] at hend ⊢
  rw [memLen] at hend ⊢
  show ((img.segment b).vaddr + (img.segment b).memsz - (img.segment a).vaddr).toNat = _
  have hsum : ((img.segment b).vaddr + (img.segment b).memsz).toNat =
      (img.segment b).vaddr.toNat + (img.segment b).memsz.toNat := by
    rw [BitVec.toNat_add, Nat.mod_eq_of_lt (by omega)]
  rw [BitVec.toNat_sub_of_le (BitVec.le_def.mpr (by omega)), hsum, hvaddr]
  omega

/-- So is its size in the file. -/
theorem Joined.join_filesz : (img.join a b).filesz.toNat = start img.fileLen a (b + 1) := by
  have hend := hjoined.end_lt h ha
  have hle : start img.fileLen a (b + 1) ≤ start img.memLen a (b + 1) :=
    start_le_start (fun k => hjoined.fileLen_le h ha) le_rfl
  have hsum : (img.join a b).filesz = BitVec.ofNat 64 (start img.fileLen a (b + 1)) := by
    show (img.segment b).offset + (img.segment b).filesz - (img.segment a).offset = _
    rw [hjoined.offset hjoined.1 le_rfl, start_succ _ hjoined.1, BitVec.ofNat_add, fileLen,
      BitVec.ofNat_toNat, BitVec.setWidth_eq, BitVec.add_assoc, add_sub_cancel_left]
  rw [hsum, BitVec.toNat_ofNat, Nat.mod_eq_of_lt (by omega)]

/-- What the file has for a header is found in what it is joined to, without the padding. -/
theorem Joined.content_eq {k : ℕ} (hak : a ≤ k) (hkb : k ≤ b) (t : ℕ) :
    (img.segment k).content img t =
      padded img.fileLen ((img.join a b).content img) a k t := by
  rw [Segment.content, padded, fileLen]
  split
  case isFalse => rfl
  case isTrue ht =>
    have hmono := @start_mono a (b + 1) (k + 1) img.fileLen (by omega)
    rw [start_succ _ hak, ← hjoined.join_filesz h ha] at hmono
    have hlt : start img.fileLen a k + t < (img.join a b).filesz.toNat := by
      rw [fileLen] at hmono
      omega
    rw [Segment.content, if_pos hlt, hjoined.offset hak hkb, BitVec.ofNat_add, BitVec.add_assoc]
    rfl

/-- Beyond the bytes of the file the joined segment is zero. -/
theorem Joined.content_eq_zero {u : ℕ} (hu : start img.fileLen a (b + 1) ≤ u) :
    (img.join a b).content img u = 0 := by
  rw [Segment.content, if_neg]
  rw [hjoined.join_filesz h ha]
  omega

/-- The addresses of what the headers are joined to are those of the headers. -/
theorem Joined.exists_range {x : ℕ} (hle : (img.join a b).vaddr.toNat ≤ x)
    (hlt : x < (img.join a b).vaddr.toNat + (img.join a b).memsz.toNat) :
    ∃ k, a ≤ k ∧ k ≤ b ∧ x ∈ img.range k := by
  rw [hjoined.join_memsz h ha] at hlt
  have hvaddr : (img.join a b).vaddr = (img.segment a).vaddr := rfl
  rw [hvaddr] at hle hlt
  have hab := hjoined.1
  obtain ⟨k, hak, hkb, hlow, hhigh⟩ := @exists_piece img.memLen a (b + 1)
    (x - (img.segment a).vaddr.toNat) (by omega) (by omega)
  rw [start_succ _ hak] at hhigh
  refine ⟨k, hak, by omega, ?_⟩
  rw [range, hjoined.toNat_vaddr h hak (by omega), Set.mem_Ico]
  omega

/-- If the headers end below the last page, so does what they are joined to. -/
theorem Joined.ends (hends : ∀ k, a ≤ k → k ≤ b → img.memLen k ≠ 0 → (img.segment k).Ends)
    (hpos : (img.join a b).memsz.toNat ≠ 0) : (img.join a b).Ends := by
  -- the header that the last address belongs to
  obtain ⟨k, hak, hkb, hlow, hhigh⟩ := hjoined.exists_range h ha (x := (img.join a b).vaddr.toNat +
    (img.join a b).memsz.toNat - 1) (by omega) (by omega)
  have hend := hends k hak hkb (by omega)
  rw [Segment.Ends] at hend ⊢
  unfold memLen at hhigh
  omega

omit h ha hjoined in
/-- The page that an address is in starts before it. -/
theorem page_le {page x : ℕ} (hpage : page % 4096 = 0) (hx : x < page + 4096) :
    x / 4096 * 4096 ≤ page := by
  omega

omit h ha hjoined in
/-- An address past the start of a page is below the end of its last page. -/
theorem lt_pageEnd {page x : ℕ} (hx : page < x) : page < (x + 4095) / 4096 * 4096 := by
  omega

/-- The pages of what the headers are joined to are those of the headers. -/
theorem Joined.mem_pages_iff
    (hends : ∀ k, a ≤ k → k ≤ b → img.memLen k ≠ 0 → (img.segment k).Ends) (page : Addr) :
    page ∈ (img.join a b).pages ↔ ∃ k, a ≤ k ∧ k ≤ b ∧ page ∈ (img.segment k).pages := by
  have hstart : (img.join a b).vaStart.toNat = (img.segment a).vaddr.toNat / 4096 * 4096 :=
    Segment.toNat_vaStart
  have hmemsz := hjoined.join_memsz h ha
  -- no header reaches further than the last one
  have hlast : ∀ k, a ≤ k → k ≤ b → (img.segment k).vaddr.toNat + img.memLen k ≤
      (img.segment a).vaddr.toNat + (img.join a b).memsz.toNat := by
    intro k hak hkb
    have hmono := @start_mono a (b + 1) (k + 1) img.memLen (by omega)
    rw [start_succ _ hak] at hmono
    rw [hmemsz, hjoined.toNat_vaddr h hak hkb]
    omega
  by_cases hpos : (img.join a b).memsz.toNat = 0
  · -- then the headers are all at one address
    have hsame : ∀ k, a ≤ k → k ≤ b → (img.segment k).pages = (img.join a b).pages := by
      intro k hak hkb
      have hle := hlast k hak hkb
      have hvaddr := hjoined.toNat_vaddr h hak hkb
      unfold memLen at hle
      have hv : (img.segment k).vaddr = (img.join a b).vaddr :=
        BitVec.eq_of_toNat_eq (show _ = (img.segment a).vaddr.toNat by omega)
      have hm : (img.segment k).memsz = (img.join a b).memsz := BitVec.eq_of_toNat_eq (by omega)
      rw [Segment.pages, Segment.vaStart, Segment.vaEnd, hv, hm]
      rfl
    constructor
    · intro hpage
      refine ⟨a, le_rfl, hjoined.1, ?_⟩
      rwa [hsame a le_rfl hjoined.1]
    · rintro ⟨k, hak, hkb, hpage⟩
      rwa [← hsame k hak hkb]
  · have hjoin := hjoined.ends h ha hends hpos
    have hbound : (img.segment a).vaddr.toNat + (img.join a b).memsz.toNat + 4095 < 2 ^ 64 := hjoin
    have hend : (img.join a b).vaEnd.toNat =
        ((img.segment a).vaddr.toNat + (img.join a b).memsz.toNat + 4095) / 4096 * 4096 :=
      hjoin.toNat_vaEnd
    rw [Segment.mem_pages_iff, isPage_iff, hstart, hend]
    constructor
    · rintro ⟨hpage, hle, hlt⟩
      -- the header at the page, or the first one if that begins in the page
      obtain ⟨k, hak, hkb, hlow, hhigh⟩ := hjoined.exists_range h ha
        (x := max page.toNat (img.segment a).vaddr.toNat)
        (le_max_right page.toNat (img.segment a).vaddr.toNat)
        (show _ < (img.segment a).vaddr.toNat + _ by omega)
      have hvaddr := hjoined.toNat_vaddr h hak hkb
      have hend' := (hends k hak hkb (by omega)).toNat_vaEnd
      unfold memLen at hhigh
      refine ⟨k, hak, hkb, Segment.mem_pages_iff.mpr ⟨isPage_iff.mpr hpage, ?_, ?_⟩⟩
      · have hfirst : (img.segment a).vaddr.toNat < page.toNat + 4096 := by omega
        rw [Segment.toNat_vaStart]
        exact page_le hpage (hlow.trans_lt (max_lt (by omega) hfirst))
      · rw [hend']
        exact lt_pageEnd ((le_max_left _ _).trans_lt hhigh)
    · rintro ⟨k, hak, hkb, hpage⟩
      obtain ⟨hpage, hle, hlt⟩ := Segment.mem_pages_iff.mp hpage
      have hreach := hlast k hak hkb
      have hvaddr := hjoined.toNat_vaddr h hak hkb
      unfold memLen at hreach
      have hend' := @Segment.Ends.toNat_vaEnd (img.segment k) (by rw [Segment.Ends]; omega)
      rw [Segment.toNat_vaStart] at hle
      have hpage' := isPage_iff.mp hpage
      refine ⟨hpage', page_le hpage' (by omega), ?_⟩
      rw [hend'] at hlt
      exact lt_pageEnd (by omega)

end Layout

/-! ### What the child reads

The join has the bytes of all its headers, except where padding of one comes before bytes of the
next. -/

/-- The child has at each address of a `PT_LOAD` what the header says. -/
def LoadsExactly (img : Image) (env : RootEnv) (m : RootMemory) : Prop :=
  ∀ i, img.IsLoad i → ∀ t < img.memLen i,
    m.read env.child ((img.segment i).vaddr + BitVec.ofNat 64 t) =
    some ((img.segment i).content img t)

/-- The headers for which that is so. -/
structure MergesExactly (img : Image) : Prop where
  /-- Only zeros are joined to a header that is longer in memory than in the file. -/
  tails : ∀ i j, i < j → img.IsLoad i → img.Joined i j →
    img.fileLen i = img.memLen i ∨ ∀ t < img.fileLen j, (img.segment j).content img t = 0
  /-- No address is in the last page. -/
  ends : ∀ i, img.IsLoad i → img.memLen i ≠ 0 → (img.segment i).Ends

/-- The last page that was loaded at an address is one of a segment that has it. -/
theorem lastAt_flatMap (img : Image) (gs : List (ℕ × ℕ)) (page : Addr) :
    (lastAt (gs.flatMap img.pagesOfGroup) page = none ∧
      ∀ g ∈ gs, page ∉ (img.join g.1 g.2).pages) ∨
    ∃ g ∈ gs, page ∈ (img.join g.1 g.2).pages ∧
      lastAt (gs.flatMap img.pagesOfGroup) page = some (img.join g.1 g.2, page) := by
  induction gs using List.reverseRecOn with
  | nil => exact Or.inl ⟨rfl, by simp⟩
  | append_singleton gs g ih =>
      have happend : lastAt ((gs ++ [g]).flatMap img.pagesOfGroup) page =
          (lastAt (img.pagesOfGroup g) page).or (lastAt (gs.flatMap img.pagesOfGroup) page) := by
        rw [List.flatMap_append, List.flatMap_singleton, lastAt, List.reverse_append,
          List.find?_append]
        rfl
      -- the last group has the page, or one before it is asked
      by_cases hpage : page ∈ (img.join g.1 g.2).pages
      · refine Or.inr ⟨g, List.mem_append_right _ (List.mem_singleton_self g), hpage, ?_⟩
        rw [happend, pagesOfGroup, lastAt_segment hpage]
        rfl
      · have hnone : lastAt (img.pagesOfGroup g) page = none := by
          refine lastAt_eq_none_iff.mpr fun q hq heq => hpage ?_
          obtain ⟨va, hva, rfl⟩ := List.mem_map.mp hq
          exact heq ▸ hva
        rw [happend, hnone, Option.none_or]
        rcases ih with ⟨hlast, hall⟩ | ⟨g', hg', hmem, hlast⟩
        · refine Or.inl ⟨hlast, fun g' hg' => ?_⟩
          rcases List.mem_append.mp hg' with hg' | hg'
          · exact hall g' hg'
          · rwa [List.mem_singleton.mp hg']
        · exact Or.inr ⟨g', List.mem_append_left _ hg', hmem, hlast⟩

/-- A page has zeros outside of its segment. -/
theorem byteAt_eq_zero {x : Addr} (hfile : ph.filesz.toNat ≤ ph.memsz.toNat)
    (hwrap : ph.vaddr.toNat + ph.memsz.toNat < 2 ^ 64)
    (hx : ¬ (ph.vaddr.toNat ≤ x.toNat ∧ x.toNat < ph.vaddr.toNat + ph.memsz.toNat)) :
    ph.byteAt img 0 x = 0 := by
  have hend : (ph.vaddr + ph.filesz).toNat = ph.vaddr.toNat + ph.filesz.toNat := by
    rw [BitVec.toNat_add, Nat.mod_eq_of_lt (by omega)]
  rw [Segment.byteAt]
  split
  case isTrue => rfl
  case isFalse =>
    rw [if_neg]
    rintro ⟨hle, hlt⟩
    rw [BitVec.le_def] at hle
    rw [BitVec.lt_def, hend] at hlt
    exact hx ⟨hle, by omega⟩

section Groups

variable {gs : List (ℕ × ℕ)} (h : img.Separate) (hgs : img.Grouped 0 gs)

include hgs

/-- Headers that are joined are in one segment. -/
theorem Grouped.exists_group (hload : img.IsLoad i) (hjoined : img.Joined i j) :
    ∃ g ∈ gs, g.1 ≤ i ∧ j ≤ g.2 := by
  obtain ⟨g, hg, hle, hlast⟩ := hgs.covers i (Nat.zero_le i) hload
  refine ⟨g, hg, hle, ?_⟩
  by_contra hlt
  exact (hgs.joined g hg).2.2.2 (hjoined.2 g.2 hlast (by omega))

/-- A header is in one segment only. -/
theorem Grouped.eq_of_mem {g g' : ℕ × ℕ} (hg : g ∈ gs) (hg' : g' ∈ gs) {k : ℕ}
    (hk : g.1 ≤ k ∧ k ≤ g.2) (hk' : g'.1 ≤ k ∧ k ≤ g'.2) : g = g' := by
  have happart : gs.Pairwise fun g g' => ¬ ((g.1 ≤ k ∧ k ≤ g.2) ∧ (g'.1 ≤ k ∧ k ≤ g'.2)) :=
    hgs.sorted.imp fun hlt hboth => by omega
  have hsymm : Std.Symm fun g g' : ℕ × ℕ => ¬ ((g.1 ≤ k ∧ k ≤ g.2) ∧ (g'.1 ≤ k ∧ k ≤ g'.2)) :=
    ⟨fun _ _ hnot hboth => hnot hboth.symm⟩
  by_contra hne
  exact happart.forall hg hg' hne ⟨hk, hk'⟩

include h

/-- What is loaded for other headers is zero at the addresses of this one. -/
theorem Grouped.byteAt_eq_zero {g : ℕ × ℕ} (hg : g ∈ gs) (hload : img.IsLoad i)
    (hi : ¬ (g.1 ≤ i ∧ i ≤ g.2)) {x : Addr} (hx : x.toNat ∈ img.range i) :
    (img.join g.1 g.2).byteAt img 0 x = 0 := by
  obtain ⟨-, ha, hjoined, -⟩ := hgs.joined g hg
  have hend := hjoined.end_lt h ha
  have hmemsz := hjoined.join_memsz h ha
  refine Image.byteAt_eq_zero ?_ (by rw [hmemsz]; exact hend) ?_
  · rw [hjoined.join_filesz h ha, hmemsz]
    exact start_le_start (fun k => hjoined.fileLen_le h ha) le_rfl
  · rintro ⟨hle, hlt⟩
    obtain ⟨k, hak, hkb, hk⟩ := hjoined.exists_range h ha hle hlt
    have hne : i ≠ k := by
      rintro rfl
      exact hi ⟨hak, hkb⟩
    exact h.disjoint i k hload (hjoined.isLoad ha hak hkb) hne _ hx hk

/-- And what is loaded for this one is what it is joined to. -/
theorem Grouped.byteAt_eq (hends : ∀ i, img.IsLoad i → img.memLen i ≠ 0 → (img.segment i).Ends)
    {g : ℕ × ℕ} (hg : g ∈ gs) (hi : g.1 ≤ i ∧ i ≤ g.2) {t : ℕ} (ht : t < img.memLen i) :
    Kernel.pageOf ((img.segment i).vaddr + BitVec.ofNat 64 t) ∈ (img.join g.1 g.2).pages ∧
    (img.join g.1 g.2).byteAt img 0 ((img.segment i).vaddr + BitVec.ofNat 64 t) =
      (img.join g.1 g.2).content img (start img.memLen g.1 i + t) := by
  obtain ⟨-, ha, hjoined, -⟩ := hgs.joined g hg
  have hmemsz := hjoined.join_memsz h ha
  have hmono := @start_mono g.1 (g.2 + 1) (i + 1) img.memLen (by omega)
  rw [start_succ _ hi.1, ← hmemsz] at hmono
  have hjoin : (img.join g.1 g.2).Ends := hjoined.ends h ha
    (fun k hak hkb => hends k (hjoined.isLoad ha hak hkb)) (by omega)
  -- the segments of a group follow each other in memory
  have haddr : (img.segment i).vaddr + BitVec.ofNat 64 t =
      (img.join g.1 g.2).vaddr + BitVec.ofNat 64 (start img.memLen g.1 i + t) := by
    have hvaddr := hjoined.toNat_vaddr h hi.1 hi.2
    have hofNat : (img.segment i).vaddr =
        (img.segment g.1).vaddr + BitVec.ofNat 64 (start img.memLen g.1 i) := by
      have hbound := (img.segment i).vaddr.isLt
      apply BitVec.eq_of_toNat_eq
      rw [BitVec.toNat_add, BitVec.toNat_ofNat, Nat.add_mod_mod, Nat.mod_eq_of_lt (by omega),
        hvaddr]
    rw [hofNat, BitVec.ofNat_add, BitVec.add_assoc]
    rfl
  have hfile : (img.join g.1 g.2).filesz.toNat ≤ (img.join g.1 g.2).memsz.toNat := by
    rw [hjoined.join_filesz h ha, hmemsz]
    exact start_le_start (fun k => hjoined.fileLen_le h ha) le_rfl
  rw [haddr]
  exact ⟨hjoin.pageOf_mem_pages (by omega), hjoin.byteAt_of_le hfile (by omega) 0⟩

/-- Without the padding, the bytes of the headers are at the addresses where the child reads them,
if no padding comes before other bytes than zeros. -/
theorem Grouped.tight_iff {g : ℕ × ℕ} (hg : g ∈ gs) :
    Tight img.fileLen img.memLen ((img.join g.1 g.2).content img) g.1 (g.2 + 1) ↔
      ∀ i j, g.1 ≤ i → i < j → j ≤ g.2 →
        img.fileLen i = img.memLen i ∨ ∀ t < img.fileLen j, (img.segment j).content img t = 0 := by
  obtain ⟨-, ha, hjoined, -⟩ := hgs.joined g hg
  constructor
  · intro htight i j hi hij hj
    simpa only [← hjoined.content_eq h ha (by omega : g.1 ≤ j) hj] using
      htight i j hi hij (Nat.lt_succ_of_le hj)
  · intro htails i j hi hij hj
    simpa only [← hjoined.content_eq h ha (by omega : g.1 ≤ j) (Nat.le_of_lt_succ hj)] using
      htails i j hi hij (Nat.le_of_lt_succ hj)

variable {m : RootMemory} (hread : ∀ x, m.read env.child x =
  (lastAt (gs.flatMap img.pagesOfGroup) (Kernel.pageOf x)).map fun q => q.1.byteAt img 0 x)

include hread

omit hgs in
/-- If the child reads what the headers say, no header reaches into the last page. -/
theorem ends_of_loadsExactly (hexact : img.LoadsExactly env m) (hload : img.IsLoad i)
    (hpos : img.memLen i ≠ 0) : (img.segment i).Ends := by
  by_contra hnot
  have hwrap := h.wrap i hload
  rw [Segment.Ends, not_lt, ← memLen] at hnot
  have hlast := hexact i hload (img.memLen i - 1) (by omega)
  rw [hread] at hlast
  obtain ⟨q, hq, -⟩ := Option.map_eq_some_iff.mp hlast
  obtain ⟨hmem, hpage⟩ := mem_of_lastAt hq
  obtain ⟨g, -, hg⟩ := List.mem_flatMap.mp hmem
  obtain ⟨va, hva, rfl⟩ := List.mem_map.mp hg
  obtain ⟨-, hbound⟩ := Segment.mem_pages hva
  -- the page of the last address is not one that `load_segment` can load
  have hpage' := congrArg BitVec.toNat hpage
  rw [toNat_pageOf, BitVec.toNat_add, BitVec.toNat_ofNat, Nat.add_mod_mod,
    Nat.mod_eq_of_lt (by omega)] at hpage'
  dsimp only at hpage'
  omega

/-- If the child reads what the headers say, so do the segments, at least where that is not zero. -/
theorem Grouped.read_of_loadsExactly (hexact : img.LoadsExactly env m) {g : ℕ × ℕ} (hg : g ∈ gs)
    (hi : g.1 ≤ i ∧ i ≤ g.2) {t : ℕ} (ht : t < img.memLen i) :
    (img.segment i).content img t = 0 ∨
      (img.join g.1 g.2).content img (start img.memLen g.1 i + t) =
      (img.segment i).content img t := by
  have hends := fun i => @ends_of_loadsExactly img env i gs h m hread hexact
  obtain ⟨-, ha, hjoined, -⟩ := hgs.joined g hg
  have hload := hjoined.isLoad ha hi.1 hi.2
  have hbyte := hexact i hload t ht
  rw [hread] at hbyte
  rcases lastAt_flatMap img gs
    (Kernel.pageOf ((img.segment i).vaddr + BitVec.ofNat 64 t)) with
    ⟨hlast, -⟩ | ⟨g', hg', -, hlast⟩
  · rw [hlast] at hbyte
    cases hbyte
  · rw [hlast] at hbyte
    have hbyte := Option.some.inj hbyte
    dsimp only at hbyte
    -- the byte is read in the group of `i`, or in one that has its page later
    by_cases hi' : g'.1 ≤ i ∧ i ≤ g'.2
    · obtain rfl := hgs.eq_of_mem hg hg' hi hi'
      rw [(hgs.byteAt_eq h hends hg hi ht).2] at hbyte
      exact Or.inr hbyte
    · have hnull := hgs.byteAt_eq_zero h hg' hload hi' (h.mem_range hload ht)
      exact Or.inl (hbyte.symm.trans hnull)

/-- When all bytes are as the image says, the merges keep every page's contents. -/
theorem Grouped.mergesExactly (hexact : img.LoadsExactly env m) : img.MergesExactly := by
  have hends := fun i => @ends_of_loadsExactly img env i gs h m hread hexact
  refine ⟨fun i j hij hload hjoined => ?_, hends⟩
  obtain ⟨g, hg, hgi, hjg⟩ := hgs.exists_group hload hjoined
  obtain ⟨-, ha, hjoined', -⟩ := hgs.joined g hg
  refine (hgs.tight_iff h hg).mp ?_ i j hgi hij hjg
  refine tight_of_read (fun u => hjoined'.content_eq_zero h ha) (fun k => hjoined'.fileLen_le h ha)
    fun k t hk hkb ht => ?_
  rw [← hjoined'.content_eq h ha hk (by omega)]
  exact hgs.read_of_loadsExactly h hread hexact hg ⟨hk, by omega⟩ ht

/-- Conversely, groups on pages of their own whose merges keep the contents are loaded exactly. -/
theorem Grouped.loadsExactly (hapart : gs.Pairwise fun g g' =>
      ∀ page ∈ (img.join g.1 g.2).pages, page ∉ (img.join g'.1 g'.2).pages)
    (hmerges : img.MergesExactly) : img.LoadsExactly env m := by
  intro i hload t ht
  rw [hread]
  obtain ⟨g, hg, hle, hlast⟩ := hgs.covers i (Nat.zero_le i) hload
  obtain ⟨-, ha, hjoined, hend⟩ := hgs.joined g hg
  obtain ⟨hpage, hbyte⟩ := hgs.byteAt_eq h hmerges.ends hg ⟨hle, hlast⟩ ht
  rcases lastAt_flatMap img gs
    (Kernel.pageOf ((img.segment i).vaddr + BitVec.ofNat 64 t)) with
    ⟨-, hnone⟩ | ⟨g', hg', hmem, hlast'⟩
  · exact absurd hpage (hnone g hg)
  · -- the page is in one segment only
    obtain rfl : g = g' := by
      have happart := hapart.imp (S := fun g g' : ℕ × ℕ =>
        ¬ (Kernel.pageOf ((img.segment i).vaddr + BitVec.ofNat 64 t) ∈ (img.join g.1 g.2).pages ∧
          Kernel.pageOf ((img.segment i).vaddr + BitVec.ofNat 64 t) ∈ (img.join g'.1 g'.2).pages))
        fun hnot hboth => hnot _ hboth.1 hboth.2
      have hsymm : Std.Symm fun g g' : ℕ × ℕ =>
        ¬ (Kernel.pageOf ((img.segment i).vaddr + BitVec.ofNat 64 t) ∈ (img.join g.1 g.2).pages ∧
          Kernel.pageOf ((img.segment i).vaddr + BitVec.ofNat 64 t) ∈ (img.join g'.1 g'.2).pages) :=
        ⟨fun _ _ hnot hboth => hnot hboth.symm⟩
      by_contra hne
      exact happart.forall hg hg' hne ⟨hpage, hmem⟩
    rw [hlast']
    apply congrArg some
    dsimp only
    have htight := (hgs.tight_iff h hg).mpr fun k j hk hkj hj =>
      hmerges.tails k j hkj (hjoined.isLoad ha hk (by omega))
        ⟨hkj.le, fun l hl hlj => hjoined.2 l (by omega) (by omega)⟩
    rw [hbyte, hjoined.content_eq h ha hle hlast]
    exact htight.read (fun u => hjoined.content_eq_zero h ha) (fun k => hjoined.fileLen_le h ha) hle
      (Nat.lt_succ_of_le hlast) ht

end Groups

/-- What the child reads, if the frames are all different and it had no pages before. -/
theorem exists_reads_rootLoad {pager : Pager} {r : RootState} (hself : env.child ≠ env.self)
    (hload : (img.rootLoad env pager).val = some r)
    (hframes : (framesFor env.child (img.rootLoad env pager).log).Nodup) {m : RootMemory}
    (hnew : ∀ page, m.spaces env.child page = none) :
    ∃ gs, img.Grouped 0 gs ∧
      (gs.Pairwise fun g g' => ∀ page ∈ (img.join g.1 g.2).pages,
      page ∉ (img.join g'.1 g'.2).pages) ∧
      ∀ x, (m.after img env.self (img.rootLoad env pager).log).read env.child x =
        (lastAt (gs.flatMap img.pagesOfGroup) (Kernel.pageOf x)).map fun q =>
        q.1.byteAt img 0 x := by
  obtain ⟨gs, hgs, hplaces, hapart⟩ := places_rootLoad hload
  have hpages : ∀ q ∈ gs.flatMap img.pagesOfGroup, IsPage q.2 ∧ q.2.toNat + 4096 < 2 ^ 64 := by
    intro q hq
    obtain ⟨g, -, hg⟩ := List.mem_flatMap.mp hq
    obtain ⟨va, hva, rfl⟩ := List.mem_map.mp hg
    exact Segment.mem_pages hva
  refine ⟨gs, hgs, hapart, fun x => ?_⟩
  -- a page of no group is not mapped; else the last group that has it decides
  cases hlast : lastAt (gs.flatMap img.pagesOfGroup) (Kernel.pageOf x) with
  | none =>
      rw [RootMemory.read, RootMemory.translate, hplaces.spaces_eq hself hpages m hlast, hnew]
      rfl
  | some q => exact hplaces.read hself hpages m hframes hlast

/-- Two program headers with eight bytes in the file each. The second one goes on where the first
one ends, which has `memsz` bytes in memory. -/
def following (memsz : BitVec 8) : Image where
  byte off := ([0x7F, 0x45, 0x4C, 0x46, 2, 1, 1, 0, 0, 0, 0, 0, 0, 0, 0, 0,
    2, 0, 62, 0, 1, 0, 0, 0, 0, 0, 0x40, 0, 0, 0, 0, 0,
    64, 0, 0, 0, 0, 0, 0, 0, 0, 0, 0, 0, 0, 0, 0, 0,
    0, 0, 0, 0, 64, 0, 56, 0, 2, 0, 0, 0, 0, 0, 0, 0,
    1, 0, 0, 0, 6, 0, 0, 0, 176, 0, 0, 0, 0, 0, 0, 0,
    0, 0, 0x40, 0, 0, 0, 0, 0, 0, 0, 0, 0, 0, 0, 0, 0,
    8, 0, 0, 0, 0, 0, 0, 0, memsz, 0, 0, 0, 0, 0, 0, 0,
    0, 0x10, 0, 0, 0, 0, 0, 0,
    1, 0, 0, 0, 6, 0, 0, 0, 184, 0, 0, 0, 0, 0, 0, 0,
    memsz, 0, 0x40, 0, 0, 0, 0, 0, 0, 0, 0, 0, 0, 0, 0, 0,
    8, 0, 0, 0, 0, 0, 0, 0, 16, 0, 0, 0, 0, 0, 0, 0,
    0, 0x10, 0, 0, 0, 0, 0, 0,
    1, 2, 3, 4, 5, 6, 7, 8, 9, 10, 11, 12, 13, 14, 15, 16] : List (BitVec 8)).getD off.toNat 0
  size := 192#64

/-- No thread has pages. -/
def noPages : RootMemory := ⟨fun _ _ => none, fun _ => 0⟩

/-- Two headers in the order of their addresses. -/
theorem separate_of_two (htwo : img.phnum.toNat = 2)
    (hnext : (img.segment 0).vaddr.toNat + img.memLen 0 ≤ (img.segment 1).vaddr.toNat)
    (hwrap : (img.segment 1).vaddr.toNat + img.memLen 1 < 2 ^ 64)
    (hfile : img.fileLen 0 ≤ img.memLen 0 ∧ img.fileLen 1 ≤ img.memLen 1) : img.Separate := by
  have hcases : ∀ i, img.IsLoad i → i = 0 ∨ i = 1 := by
    intro i hi
    have hlt := hi.1
    omega
  -- the first range ends before the second begins
  have happart : ∀ x ∈ img.range 0, x ∉ img.range 1 := by
    intro x hx hx'
    have hlt : x < (img.segment 0).vaddr.toNat + img.memLen 0 := hx.2
    have hle : (img.segment 1).vaddr.toNat ≤ x := hx'.1
    omega
  refine ⟨fun i hi => ?_, fun i j hi hj hne => ?_, fun i hi => ?_⟩
  · rcases hcases i hi with rfl | rfl
    · exact hnext.trans_lt (Nat.lt_of_le_of_lt (Nat.le_add_right _ _) hwrap)
    · exact hwrap
  · rcases hcases i hi with rfl | rfl <;> rcases hcases j hj with rfl | rfl
    · exact absurd rfl hne
    · exact happart
    · exact fun x hx hx' => happart x hx' hx
    · exact absurd rfl hne
  · rcases hcases i hi with rfl | rfl
    · exact hfile.1
    · exact hfile.2

/-- Two segments that follow each other in the file are merged exactly. -/
theorem following_eight_mergesExactly : (following 8).MergesExactly := by
  have htwo : (following 8).phnum.toNat = 2 := by decide +kernel
  refine ⟨fun i j hij hi hjoined => Or.inl ?_, fun i hi _ => ?_⟩
  · have hlast := (hjoined.2 (j - 1) (by omega) (by omega)).next.1
    obtain rfl : i = 0 := by omega
    decide +kernel
  · have hlt := hi.1
    obtain rfl | rfl : i = 0 ∨ i = 1 := by omega
    · unfold Segment.Ends
      decide +kernel
    · unfold Segment.Ends
      decide +kernel

end Image

end Koharu
