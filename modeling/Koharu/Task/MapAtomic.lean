import Koharu.Arch.PmapFailure
import Koharu.Task.RangeLoops

/-!
# `pmap_map` and `SYS_MAP` where they fail

Neither undoes what it has done. A call that finds no page for a table leaves the pages before
mapped, and the mapping counts as they were. So nothing changes only if those pages were mapped to
the same frames before.

* `pmapMap_untouched_iff`: when a failing call leaves the address space and the counts as they were.
-/

namespace Koharu

open Radix

namespace Kernel

variable {σ : Type}

/-- The translations of an address space and the mapping counts are the same. -/
def Untouched (pmap : Addr) (s s' : Kernel σ) : Prop :=
  (∀ va, s'.pmapExtract pmap va = s.pmapExtract pmap va) ∧ s'.maps = s.maps

/-- A call that does nothing touches nothing. -/
theorem Untouched.refl {s : Kernel σ} {pmap : Addr} : Untouched pmap s s := ⟨fun _ => rfl, rfl⟩

/-- A pmap is untouched when all its translations are. -/
theorem untouched_pm_iff {s : Kernel σ} {pmap : Addr} {p : Pmap} {pm : PmState σ} (hpmap : pmap ≠ 0)
    (hp : s.pmaps pmap = some p) : Untouched pmap s { s with pm } ↔
      ∀ va, pm.pmapExtract p.rootPhys va = s.pm.pmapExtract p.rootPhys va := by
  simp only [Untouched, pmapExtract, if_neg hpmap, hp, Option.bind_eq_bind, Option.bind_some,
    and_true]
  exact forall_congr' fun va => Option.some_inj

section Calls

variable [PageAllocator σ] {s s' : Kernel σ} {pmap virt phys size : Addr} {flags : BitVec 32}
  {fuel : ℕ}

/-- `pmap_map` fails on NULL and changes the tables only otherwise. -/
theorem exists_pmapMap_cases {ok : Bool}
    (h : s.pmapMap fuel pmap virt phys size flags = some (ok, s')) :
    (pmap = 0 ∧ ok = false ∧ s' = s) ∨ (pmap ≠ 0 ∧ ∃ p pm, s.pmaps pmap = some p ∧
      s.pm.pmapMap fuel p.rootPhys virt phys size flags = some (ok, pm) ∧ s' = { s with pm }) := by
  rw [pmapMap] at h
  split at h
  next hpmap =>
    obtain ⟨rfl, rfl⟩ := Prod.mk.inj (Option.some.inj h)
    exact Or.inl ⟨hpmap, rfl, rfl⟩
  next hpmap =>
    obtain ⟨p, hp, h⟩ := Option.bind_eq_some_iff.mp h
    obtain ⟨⟨ok', pm⟩, hpm, h⟩ := Option.bind_eq_some_iff.mp h
    obtain ⟨rfl, rfl⟩ := Prod.mk.inj (Option.some.inj h)
    exact Or.inr ⟨hpmap, p, pm, hp, hpm, rfl⟩

/-- Where the checks of `SYS_MAP` pass, it calls `pmap_map`. -/
theorem MapChecked.sysMap_cases {a1 a2 a3 a4 a5 v : BitVec 64} (h : MapChecked fuel s a1 a3 a4 a5)
    (hmap : s.sysMap fuel a1 a2 a3 a4 a5 = some (v, s')) :
    ∃ ok s₁, s.pmapMap fuel (s.thread a1).pmap a2 a3 a4 (mapFlags a5) = some (ok, s₁) ∧
      (ok = false → v = -1 ∧ s' = s₁) ∧
      (ok = true → v = 0 ∧ mapCount (a3 + a4) fuel a3 s₁ = some s') := by
  rw [sysMap, if_neg (by simp [h.registered]), if_neg (by simp [h.pager]), if_neg h.size,
    if_neg h.rights, h.held, Option.bind_eq_bind, Option.bind_some, if_neg (by simp)] at hmap
  -- all the tests are passed, so that `pmap_map` decides
  obtain ⟨⟨ok, s₁⟩, hpm, hmap⟩ := Option.bind_eq_some_iff.mp hmap
  refine ⟨ok, s₁, hpm, ?_, ?_⟩
  · rintro rfl
    obtain ⟨rfl, rfl⟩ := Prod.mk.inj (Option.some.inj hmap)
    exact ⟨rfl, rfl⟩
  · rintro rfl
    obtain ⟨s₂, hcount, hmap⟩ := Option.bind_eq_some_iff.mp hmap
    obtain ⟨rfl, rfl⟩ := Prod.mk.inj (Option.some.inj hmap)
    exact ⟨rfl, hcount⟩

end Calls

variable [PageAllocator σ] [LawfulPageAllocator σ]

/-- The tables of an address space form a tree. No normal page goes into a huge page that is one of
the tables, where it would overwrite entries. -/
def TargetOk (s : Kernel σ) (pmap virt size : Addr) (flags : BitVec 32) : Prop :=
  ∀ p, s.pmaps pmap = some p → s.pm.Wf (forest {p.rootPhys} Set.univ) ∧
    (hasProt flags protHuge = false → ∀ va, PmState.mapStart flags virt ≤ va →
      va < PmState.mapEnd flags virt size → ∀ e i, s.pm.leaf p.rootPhys va = some (e, [i]) →
        s.pm.Outside (forest {p.rootPhys} Set.univ) e.addr)

/-- There is a page in the range for which there are no tables, and a page before it that is not yet
mapped as the call maps it. -/
def LeavesPages (back : ℕ) (left : σ → ℕ) (s : Kernel σ) (pmap virt phys size : Addr)
    (flags : BitVec 32) : Prop :=
  ∃ p, pmap ≠ 0 ∧ s.pmaps pmap = some p ∧
    ¬ PmState.HasRoom back left s.pm p.rootPhys flags (PmState.mapStart flags virt)
      (PmState.mapCount flags virt size) ∧
    ¬ PmState.MappedAlready (forest {p.rootPhys} Set.univ) back left s.pm p.rootPhys virt phys size
      flags

variable {s s' : Kernel σ} {back : ℕ} {left : σ → ℕ} {pmap virt phys size : Addr}
  {flags : BitVec 32} {fuel : ℕ}

section Failure

variable {s : Kernel σ} {back : ℕ} {left : σ → ℕ} {pmap virt phys size : Addr} {flags : BitVec 32}
  {fuel : ℕ} (hleft : Budget back left)

include hleft

/-- The call of `pmap_map` on the tables. -/
theorem pm_untouched_iff {p : Pmap} {pm : PmState σ} {ok : Bool} (hpmap : pmap ≠ 0)
    (hp : s.pmaps pmap = some p) (htarget : s.TargetOk pmap virt size flags)
    (hpm : s.pm.pmapMap fuel p.rootPhys virt phys size flags = some (ok, pm)) :
    (ok = false → Untouched pmap s { s with pm }) ↔
      ¬ s.LeavesPages back left pmap virt phys size flags := by
  obtain ⟨hwf, hapart⟩ := htarget p hp
  obtain ⟨hfails, hsame⟩ := PmState.extract_eq_iff hleft hwf (Set.mem_singleton p.rootPhys)
    (fun _ _ _ _ => Set.mem_univ _) hapart hpm
  have hsame' : (∀ va, pm.pmapExtract p.rootPhys va = s.pm.pmapExtract p.rootPhys va) ↔
      PmState.MappedAlready (forest {p.rootPhys} Set.univ) back left s.pm p.rootPhys virt phys size
        flags := by
    rw [← hsame]
    exact ⟨fun hall va _ => hall va, fun hall va => hall va (Set.mem_univ _)⟩
  rw [untouched_pm_iff hpmap hp, hsame', hfails]
  constructor
  · rintro hall ⟨p', -, hp', hfull, hnot⟩
    obtain rfl : p = p' := Option.some.inj (hp.symm.trans hp')
    exact hnot (hall (Or.inr hfull))
  · rintro hnot (hsize | hfull)
    · -- a call with no pages changes nothing
      rw [← hsame']
      rw [PmState.pmapMap, if_pos hsize] at hpm
      obtain ⟨-, rfl⟩ := Prod.mk.inj (Option.some.inj hpm)
      exact fun _ => rfl
    · by_contra halready
      exact hnot ⟨p, hpmap, hp, hfull, halready⟩

/-- A failing call of `pmap_map`, or of `SYS_MAP`, leaves the translations of the target and the
mapping counts as they were, except if it finds no page for a table after it has mapped a page that
was not mapped so before. -/
theorem pmapMap_untouched_iff :
    (∀ pmap virt phys size flags, (s.SpaceOk pmap →
      ∃ fuel x, s.pmapMap fuel pmap virt phys size flags = some x) ∧
      ∀ fuel ok s', s.TargetOk pmap virt size flags →
        s.pmapMap fuel pmap virt phys size flags = some (ok, s') →
        ((ok = false → Untouched pmap s s') ↔
          ¬ s.LeavesPages back left pmap virt phys size flags)) ∧
    ∀ a1 a2 a3 a4 a5 fuel v s', s.TargetOk (s.thread a1).pmap a2 a4 (mapFlags a5) →
      s.sysMap fuel a1 a2 a3 a4 a5 = some (v, s') →
      ((v = -1 → Untouched (s.thread a1).pmap s s') ↔
        ¬ (MapChecked fuel s a1 a3 a4 a5 ∧
          s.LeavesPages back left (s.thread a1).pmap a2 a3 a4 (mapFlags a5))) := by
  refine ⟨fun pmap virt phys size flags => ⟨fun hspace => ?_, fun fuel ok s' htarget hmap => ?_⟩,
    fun a1 a2 a3 a4 a5 fuel v s' htarget hmap => ?_⟩
  · obtain ⟨fuel, hfuel⟩ := exists_pmapMap hspace virt phys size flags
    exact ⟨fuel, hfuel fuel le_rfl⟩
  · rcases exists_pmapMap_cases hmap with ⟨hnull, rfl, rfl⟩ | ⟨hpmap, p, pm, hp, hpm, rfl⟩
    · exact iff_of_true (fun _ => .refl) fun hleaves => hleaves.choose_spec.1 hnull
    · exact pm_untouched_iff hleft hpmap hp htarget hpm
  · by_cases hchecked : MapChecked fuel s a1 a3 a4 a5
    · obtain ⟨ok, s₁, hpm, hfails, hmaps⟩ := hchecked.sysMap_cases hmap
      -- the call of `pmap_map` in `SYS_MAP`
      have hcall : (ok = false → Untouched (s.thread a1).pmap s s₁) ↔
          ¬ s.LeavesPages back left (s.thread a1).pmap a2 a3 a4 (mapFlags a5) := by
        rcases exists_pmapMap_cases hpm with ⟨hnull, rfl, rfl⟩ | ⟨hpmap, p, pm, hp, hpm', rfl⟩
        · exact iff_of_true (fun _ => .refl) fun hleaves => hleaves.choose_spec.1 hnull
        · exact pm_untouched_iff hleft hpmap hp htarget hpm'
      rw [and_iff_right hchecked, ← hcall]
      cases ok with
      | false =>
          obtain ⟨rfl, rfl⟩ := hfails rfl
          simp
      | true =>
          rw [(hmaps rfl).1]
          simp
    · rcases sysMap_cases hmap with ⟨-, rfl⟩ | ⟨hchecked', -⟩
      · exact iff_of_true (fun _ => .refl) fun hleaves => hchecked hleaves.1
      · exact absurd hchecked' hchecked

end Failure

/-! ### A new address space when there is little memory

How far a call gets before it fails depends on the pages left, so the example has one page too few.
-/

/-- The pages that `pmm_alloc_pages` still gives out. -/
def pagesLeft (m : BumpAllocator) : ℕ := 1000 - m.count

/-- The pages left are a budget of the example allocator. -/
theorem budget_pagesLeft : Budget 0 pagesLeft := by
  -- a page is given as long as fewer than a thousand have been
  have hcases : ∀ m : BumpAllocator, (m.count < 1000 ∧ PageAllocator.allocPages m =
      (BitVec.ofNat 64 ((m.count + 1) * 4096), ⟨m.count + 1⟩)) ∨
      (1000 ≤ m.count ∧ PageAllocator.allocPages m = (0, m)) := by
    intro m
    by_cases hlt : m.count < 1000
    · exact Or.inl ⟨hlt, if_pos hlt⟩
    · exact Or.inr ⟨Nat.le_of_not_lt hlt, if_neg hlt⟩
  refine ⟨fun m => ?_, fun m => ?_, fun m p _ => rfl⟩
  · rcases hcases m with ⟨hlt, heq⟩ | ⟨hle, heq⟩
    · have hpage := bumpAllocator_page hlt
      rw [heq, ← BitVec.toNat_inj, hpage, pagesLeft]
      refine iff_of_false (fun hzero => ?_) (by omega)
      rw [show (0 : Addr).toNat = 0 from rfl] at hzero
      omega
    · rw [heq, pagesLeft]
      exact iff_of_true rfl (by omega)
  · rcases hcases m with ⟨hlt, heq⟩ | ⟨hle, heq⟩
    · rw [heq, pagesLeft, pagesLeft]
      dsimp only
      omega
    · rw [heq, pagesLeft]
      dsimp only
      omega

/-- Thread 1 holds two frames, the address space of thread 2 is empty, and there are `n` pages
left. -/
def scarce (n : ℕ) : Kernel BumpAllocator :=
  { oneGrant with
    pm := { PmState.newSpace with pmm := ⟨1000 - n⟩ }
    pmaps := fun p =>
      if p = 0x100#64 then
        some { rootPhys := 0x80000#64, grants := [⟨0x200#64, 3#8⟩, ⟨0x201#64, 3#8⟩] }
      else if p = 0x200#64 then some { rootPhys := PmState.newRoot, grants := [] }
      else none }

/-- The tables of the scarce machine are well formed. -/
theorem scarce_wf (n : ℕ) (hn : 1 + n ≤ 1000) :
    (scarce n).pm.Wf (forest {PmState.newRoot} Set.univ) := by
  refine (PmState.CallRun.start.owns PmState.begins_newSpace).wf.congr (fun _ _ => rfl) ?_
  have hcount : PmState.newSpace.pmm.count = 1 := by decide
  have hmem : ∀ (m : BumpAllocator) (q : Addr),
      q ∈ LawfulPageAllocator.allocated m ↔ q.toNat ≤ m.count * 4096 := fun _ _ => Iff.rfl
  intro q _ _ hq
  rw [PmState.Allocated, hmem, hcount] at hq
  rw [PmState.Allocated, hmem]
  exact hq.trans (Nat.mul_le_mul_right 4096 (Nat.le_sub_of_add_le hn))

/-- Its pmap may be mapped into. -/
theorem scarce_targetOk (n : ℕ) (hn : 1 + n ≤ 1000) (virt size : Addr) (flags : BitVec 32) :
    (scarce n).TargetOk 0x200#64 virt size flags := by
  intro p hp
  obtain rfl : { rootPhys := PmState.newRoot, grants := [] } = p := Option.some.inj hp
  refine ⟨scarce_wf n hn, fun _ va _ _ e i hleaf => ?_⟩
  change PmState.newSpace.leaf PmState.newRoot va = some (e, [i]) at hleaf
  rw [PmState.leaf_of_table (π := []) rfl rfl, PmState.newSpace_mem,
    PmState.findFrom_of_not_present Entry.present_zero] at hleaf
  cases hleaf

/-- Without a page for the first table nothing changes. -/
theorem pmapMap_untouched_iff_noPage : ∃ s',
    (scarce 0).sysMap 3 2 0x3FF000#64 0x200000#64 0x2000#64 3#64 = some (-1, s') ∧
      Untouched 0x200#64 (scarce 0) s' := by
  have hcheck : (((scarce 0).sysMap 3 2 0x3FF000#64 0x200000#64 0x2000#64 3#64).any fun x =>
      x.1 = -1) = true := by
    decide +kernel
  obtain ⟨⟨v, s'⟩, hmap, hv⟩ := (Option.any_eq_true _ _).mp hcheck
  obtain rfl : v = -1 := by simpa using hv
  obtain ⟨-, hcall⟩ := pmapMap_untouched_iff (s := scarce 0) budget_pagesLeft
  refine ⟨s', hmap, (hcall 2 0x3FF000#64 0x200000#64 0x2000#64 3#64 3 (-1) s'
    (scarce_targetOk 0 (by decide) _ _ _) hmap).mpr ?_ rfl⟩
  rintro ⟨-, p, -, hp, -, hnot⟩
  -- without a page left there is no room for the first table
  apply hnot
  intro va _ _ k hk
  obtain rfl : { rootPhys := PmState.newRoot, grants := [] } = p := Option.some.inj hp
  have hroom := hk.2 0 (Nat.succ_pos k)
  exact absurd hroom (by decide +kernel)

/-- With three pages left, the first of two pages is mapped and stays so when the call fails. -/
theorem sysMap_leaves_page : ∃ s', (scarce 3).pm.Wf (forest {PmState.newRoot} Set.univ) ∧
    (scarce 3).sysMap 3 2 0x3FF000#64 0x200000#64 0x2000#64 3#64 = some (-1, s') ∧
      (scarce 3).pmapExtract 0x200#64 0x3FF000#64 = some 0 ∧
      s'.pmapExtract 0x200#64 0x3FF000#64 = some 0x200000#64 := by
  have hcheck : (((scarce 3).sysMap 3 2 0x3FF000#64 0x200000#64 0x2000#64 3#64).any fun x =>
      x.1 = -1 ∧ x.2.pmapExtract 0x200#64 0x3FF000#64 = some 0x200000#64) = true := by
    decide +kernel
  obtain ⟨⟨v, s'⟩, hmap, hcheck⟩ := (Option.any_eq_true _ _).mp hcheck
  obtain ⟨rfl, hextract⟩ := of_decide_eq_true hcheck
  exact ⟨s', scarce_wf 3 (by decide), hmap, by decide +kernel, hextract⟩

end Kernel

end Koharu
