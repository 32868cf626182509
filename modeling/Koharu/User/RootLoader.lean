import Koharu.Task.Elf
import Koharu.User.Pager
import Koharu.User.Vma

/-!
# The loader in the root server

`root_main` in `user/main.c` checks the image of the first program with `elf_check`, goes through
its program headers, joins those that follow each other, and has `load_segment` in `user/pager.c`
copy what they stand for, and enter the pages in `child_vmas`. Nothing here looks at where the file
range of a segment ends.

What the root server asks the kernel for is in the trace; that the kernel does it is an answer that
the model takes from outside, except that `SYS_MAP` never grants a page without rights.

* `Image.rootLoad`: `root_main` up to the end of its loop;
* `RootState.loadSegment_ensures`: what `load_segment` does to memory, and which segments it takes;
* `Stocked.loadSegment`: if everything is granted, a segment is turned away by `SYS_MAP` for its
  flags or by `vma_insert`, and for no other reason.
-/

namespace Koharu

open Traced

/-- `SCRATCH_VA`. -/
def scratchVa : Addr := 0x710000000000#64

/-- `PROT_READ | PROT_WRITE`, as an argument of `SYS_MAP`. -/
def protReadWrite : Addr := 3#64

/-- `VMA_CODE`. -/
def vmaCode : BitVec 64 := 1

/-- `VMA_DATA`. -/
def vmaData : BitVec 64 := 2

/-- What the root server does not decide itself. -/
structure RootEnv where
  /-- `self_tid`. -/
  self : Addr
  /-- The thread that `TC_CREATE` makes. -/
  child : Addr
  /-- Whether the `n`-th system call with a result that is looked at is granted, unless it is one
  that `SYS_MAP` always refuses. -/
  granted : ℕ → Bool

/-- The state of the loader: the pool of frames, how many requests to the kernel there have been,
and `child_vmas` with its records. -/
structure RootState where
  pager : Pager
  asked : ℕ
  vmas : VmaState Unit

namespace RootState

variable (env : RootEnv)

/-- Go on if the next request is granted. -/
def ask (r : RootState) : Traced Access RootState := do
  Traced.lift (guard (env.granted r.asked = true))
  pure { r with asked := r.asked + 1 }

/-- `map_page`. `SYS_MAP` refuses a page that is to be neither read nor written. -/
def mapPage (target va phys prot : Addr) (r : RootState) : Traced Access RootState := do
  Traced.tell [.map target va phys prot]
  Traced.lift (guard (prot &&& protReadWrite ≠ 0))
  r.ask env

/-- `frame_zero`. -/
def frameZero (phys : Addr) (r : RootState) : Traced Access RootState := do
  let r ← r.mapPage env env.self scratchVa phys protReadWrite
  Traced.tell [.clear scratchVa pageSize.toNat, .unmap env.self scratchVa]
  pure r

/-- `prot` in `load_segment`. -/
def segmentProt (ph : Segment) : Addr :=
  (if ph.flags &&& 4 ≠ 0 then 1 else 0) ||| (if ph.flags &&& 2 ≠ 0 then 2 else 0) |||
    (if ph.flags &&& 1 ≠ 0 then 4 else 0)

/-- One page in `load_segment`. -/
def loadPage (ph : Segment) (r : RootState) (va : Addr) : Traced Access RootState := do
  let alloc := r.pager.poolAlloc
  let pfn ← Traced.lift alloc.1
  let phys := BitVec.ofNat 64 pfn <<< 12
  let r ← frameZero env phys { r with pager := alloc.2 }
  let r ← r.mapPage env env.self scratchVa phys protReadWrite
  Traced.tell (ph.copyTo scratchVa va)
  Traced.tell [.unmap env.self scratchVa]
  r.mapPage env env.child va phys (segmentProt ph)

/-- `vma_insert(&child_vmas, va_start, va_end, prot, ...)` in `load_segment`. -/
def insertSegment (vmas : VmaState Unit) (ph : Segment) : Bool × VmaState Unit :=
  vmas.vmaInsert () ph.vaStart ph.vaEnd (segmentProt ph)
    (if ph.flags &&& 1 ≠ 0 then vmaCode else vmaData)

/-- `load_segment`. -/
def loadSegment (ph : Segment) (r : RootState) : Traced Access RootState := do
  let r ← ph.pages.foldlM (loadPage env ph) r
  let inserted := insertSegment r.vmas ph
  Traced.lift (guard (inserted.1 = true))
  pure { r with vmas := inserted.2 }

end RootState

namespace Image

variable (img : Image) (env : RootEnv)

/-- `struct elf64_phdr ph = phdr[i]`. -/
def readPhdr (i : ℕ) : Traced Access Segment := do
  Traced.tell [.read (img.phdr i) phdrSize.toNat]
  pure {
    flags := img.field (img.phdr i + 4) 4
    offset := img.offset i
    vaddr := img.field (img.phdr i + 16) 8
    filesz := img.filesz i
    memsz := img.field (img.phdr i + 40) 8 }

/-- Whether `phdr[i]` goes on where `ph` ends, in memory and in the file. -/
def continues (ph : Segment) (i : ℕ) : Traced Access Bool := do
  if (← img.read (img.phdr i) 4) ≠ ptLoad then pure false
  else do
    if (← img.read (img.phdr i + 4) 4) ≠ ph.flags then pure false
    else do
      if (← img.read (img.phdr i + 16) 8) ≠ ph.vaddr + ph.memsz then pure false
      else do
        let offset ← img.read (img.phdr i + 8) 8
        pure (offset == ph.offset + ph.filesz)

/-- The segment `ph` and `phdr[i]` together. -/
def absorb (ph : Segment) (i : ℕ) : Traced Access Segment := do
  let vaddr ← img.read (img.phdr i + 16) 8
  let memsz ← img.read (img.phdr i + 40) 8
  let offset ← img.read (img.phdr i + 8) 8
  let filesz ← img.read (img.phdr i + 32) 8
  pure { ph with memsz := vaddr + memsz - ph.vaddr, filesz := offset + filesz - ph.offset }

/-- The `while` loop of `root_main`, with the number of headers behind `phdr[i]`. -/
def joinLoop : ℕ → Segment → ℕ → Traced Access (Segment × ℕ)
  | 0, ph, i => pure (ph, i)
  | left + 1, ph, i => do
      if (← img.continues ph (i + 1)) = true then do
        let ph ← img.absorb ph (i + 1)
        joinLoop left ph (i + 1)
      else pure (ph, i)

/-- The `for` loop of `root_main`, with a bound on its iterations. -/
def segmentLoop : ℕ → ℕ → RootState → Traced Access RootState
  | 0, _, r => pure r
  | left + 1, i, r =>
      if i < img.phnum.toNat then do
        if (← img.read (img.phdr i) 4) ≠ ptLoad then segmentLoop left (i + 1) r
        else do
          let ph ← img.readPhdr i
          let joined ← img.joinLoop (img.phnum.toNat - (i + 1)) ph i
          let r ← r.loadSegment env joined.1
          segmentLoop left (joined.2 + 1) r
      else pure r

/-- `root_main` from `elf_check` to the end of its loop, with the set that `pager_init` leaves.
There is no result where it goes to `serve`. -/
def rootLoad (pager : Pager) : Traced Access RootState := do
  img.elfCheck
  let r ← RootState.ask env { pager, asked := 0, vmas := VmaState.zero.vmaSetInit () }
  img.segmentLoop env img.phnum.toNat 0 r

end Image

/-! ### What a segment takes

Which pages can be granted, and how many of them `load_segment` gets to. -/

namespace Segment

variable (ph : Segment)

/-- `SYS_MAP` can grant a page of the segment. -/
def Mappable : Prop := RootState.segmentProt ph &&& protReadWrite ≠ 0

instance : Decidable ph.Mappable := inferInstanceAs (Decidable (_ ≠ _))

/-- The pages that `load_segment` can get to. -/
def reached : List Addr := if ph.Mappable then ph.pages else ph.pages.take 1

end Segment

/-- What the root server asks the kernel for, and what it clears, is all right. -/
structure Access.Allows (N : Access → Prop) : Prop where
  map : ∀ target va phys prot, N (.map target va phys prot)
  unmap : ∀ target va, N (.unmap target va)
  clear : ∀ dst len, N (.clear dst len)

/-- What must lie inside the image allows all other accesses. -/
theorem Access.allows_inside (size : Addr) : Access.Allows (Access.Inside size) :=
  ⟨fun _ _ _ _ => trivial, fun _ _ => trivial, fun _ _ => trivial⟩

namespace RootState

variable {env : RootEnv} {N : Access → Prop} (hN : Access.Allows N) {ph : Segment}

/-- Asking the pager leaves the list of areas. -/
theorem ask_ensures (r : RootState) : Ensures N (fun r' => r'.vmas = r.vmas) (r.ask env) :=
  ensures_lift_bind fun _ _ => ensures_pure rfl

include hN

/-- A page is mapped with a protection the pager has, and the areas are left. -/
theorem mapPage_ensures (target va phys prot : Addr) (r : RootState) :
    Ensures N (fun r' => prot &&& protReadWrite ≠ 0 ∧ r'.vmas = r.vmas)
      (r.mapPage env target va phys prot) := by
  refine ensures_tell_bind ?_ (ensures_lift_bind fun _ hguard => ?_)
  · intro a ha
    rw [List.mem_singleton.mp ha]
    exact hN.map target va phys prot
  · have hprot := (Option.guard_eq_some' _).mp hguard
    exact (ask_ensures r).weaken fun r' hr' => ⟨hprot, hr'⟩

/-- Unmapping is no read of the image. -/
theorem unmap_allowed (target va : Addr) : ∀ a ∈ [Access.unmap target va], N a := by
  intro a ha
  rw [List.mem_singleton.mp ha]
  exact hN.unmap target va

/-- Zeroing a frame leaves the areas. -/
theorem frameZero_ensures (phys : Addr) (r : RootState) :
    Ensures N (fun r' => r'.vmas = r.vmas) (r.frameZero env phys) := by
  refine (mapPage_ensures hN _ _ _ _ r).bind fun r' hr' => ensures_tell_bind ?_ (ensures_pure hr'.2)
  exact List.forall_mem_cons.mpr ⟨hN.clear _ _, unmap_allowed hN _ _⟩

/-- Loading a page reads no more than what is copied to it. -/
theorem loadPage_ensures {va : Addr} (hcopy : ∀ a ∈ ph.copyTo scratchVa va, N a) (r : RootState) :
    Ensures N (fun r' => ph.Mappable ∧ r'.vmas = r.vmas) (r.loadPage env ph va) := by
  apply ensures_lift_bind
  intro pfn _
  apply (frameZero_ensures hN _ _).bind
  intro r₁ hr₁
  apply (mapPage_ensures hN _ _ _ _ r₁).bind
  intro r₂ hr₂
  refine ensures_tell_bind hcopy (ensures_tell_bind (unmap_allowed hN _ _) ?_)
  exact (mapPage_ensures hN _ _ _ _ r₂).weaken fun r₃ hr₃ =>
    ⟨hr₃.1, hr₃.2.trans (hr₂.2.trans hr₁)⟩

/-- If the pages are not granted, the first one is the last. -/
theorem loadPages_ensures (hcopy : ∀ va ∈ ph.reached, ∀ a ∈ ph.copyTo scratchVa va, N a)
    (r : RootState) :
    Ensures N (fun r' => (ph.Mappable ∨ ph.pages = []) ∧ r'.vmas = r.vmas)
      (ph.pages.foldlM (loadPage env ph) r) := by
  -- with neither read nor write access the first page is copied, and then the load ends
  by_cases hph : ph.Mappable
  · rw [Segment.reached, if_pos hph] at hcopy
    refine (ensures_foldlM (Q := fun r' => r'.vmas = r.vmas) _ (fun r₁ hr₁ va hva => ?_) rfl).weaken
      fun r' hr' => ⟨Or.inl hph, hr'⟩
    exact (loadPage_ensures hN (hcopy va hva) r₁).weaken fun r₂ hr₂ => hr₂.2.trans hr₁
  · rw [Segment.reached, if_neg hph] at hcopy
    cases hpages : ph.pages with
    | nil => exact ensures_pure ⟨Or.inr rfl, rfl⟩
    | cons va l =>
        rw [hpages] at hcopy
        rw [List.foldlM_cons]
        exact (loadPage_ensures hN (hcopy va List.mem_cons_self) r).bind fun r₁ hr₁ =>
          absurd hr₁.1 hph

/-- A segment that is loaded has pages that can be granted, and `vma_insert` takes them. -/
theorem loadSegment_ensures (hcopy : ∀ va ∈ ph.reached, ∀ a ∈ ph.copyTo scratchVa va, N a)
    (r : RootState) :
    Ensures N (fun r' => (ph.Mappable ∨ ph.pages = []) ∧ (insertSegment r.vmas ph).1 = true ∧
      r'.vmas = (insertSegment r.vmas ph).2) (r.loadSegment env ph) := by
  refine (loadPages_ensures hN hcopy r).bind fun r₁ hr₁ => ensures_lift_bind fun _ hguard => ?_
  have htaken := (Option.guard_eq_some' _).mp hguard
  rw [hr₁.2] at htaken ⊢
  exact ensures_pure ⟨hr₁.1, htaken, rfl⟩

end RootState

/-! ### Nothing is refused

An environment in which nothing but the image stops the loader. -/

/-- A pool of one frame. -/
def onePage : Pager := pagerInit (fun _ => 1) 1

/-- A kernel that grants all that it can. -/
def grantsAll : RootEnv where
  self := 1
  child := 2
  granted _ := true

/-- The kernel of the example grants every request. -/
theorem granted_grantsAll (n : ℕ) : grantsAll.granted n = true := rfl

/-- The pool has a frame, the cursor is where `pool_alloc` leaves it, and the set is this one. -/
def RootState.Stocked (p : Pager) (vmas : VmaState Unit) (r : RootState) : Prop :=
  (∃ c j, r.pager = p.seek c ∧ p.AtIndex c j) ∧ r.vmas = vmas

section Granted

variable {env : RootEnv} {p : Pager} {vmas : VmaState Unit} {r : RootState} {ph : Segment}

/-- A pool with frames left gives one. -/
theorem RootState.Stocked.poolAlloc (h : r.Stocked p vmas) (hp : 0 < p.setBits.length) :
    ∃ b, r.pager.poolAlloc.1 = some b ∧
      RootState.Stocked p vmas { r with pager := r.pager.poolAlloc.2 } := by
  obtain ⟨⟨c, j, hr, hat⟩, hvmas⟩ := h
  have hj : j % p.setBits.length < p.setBits.length := Nat.mod_lt _ hp
  refine ⟨p.setBits[j % p.setBits.length], ?_, ⟨p.setBits[j % p.setBits.length] + 1,
    j % p.setBits.length + 1, ?_, Pager.atIndex_succ p hj⟩, hvmas⟩
  · rw [hr, Pager.poolAlloc_of_atIndex hat hj]
  · show r.pager.poolAlloc.2 = _
    rw [hr, Pager.poolAlloc_of_atIndex hat hj]

/-- Asking comes to an end where every answer is yes. -/
theorem RootState.Stocked.ask (h : r.Stocked p vmas) (henv : ∀ n, env.granted n = true) :
    Yields (RootState.Stocked p vmas) (r.ask env) :=
  ⟨{ r with asked := r.asked + 1 }, by simp [RootState.ask, henv], h⟩

/-- So does mapping a page. -/
theorem RootState.Stocked.mapPage (h : r.Stocked p vmas) (henv : ∀ n, env.granted n = true)
    (target va phys : Addr) {prot : Addr} (hprot : prot &&& protReadWrite ≠ 0) :
    Yields (RootState.Stocked p vmas) (r.mapPage env target va phys prot) :=
  (yields_tell _).bind fun _ _ => (yields_guard hprot).bind fun _ _ => h.ask henv

/-- Up to where the child's page is asked for. -/
theorem RootState.Stocked.loadPage_front (h : r.Stocked p vmas) (hp : 0 < p.setBits.length)
    (henv : ∀ n, env.granted n = true) (ph : Segment) (va : Addr) :
    ∃ (r' : RootState) (phys : Addr), r'.Stocked p vmas ∧
      (r.loadPage env ph va).val = (r'.mapPage env env.child va phys (segmentProt ph)).val ∧
      ∀ a ∈ ph.copyTo scratchVa va, a ∈ (r.loadPage env ph va).log := by
  obtain ⟨b, hb, hnext⟩ := h.poolAlloc hp
  have hscratch : protReadWrite &&& protReadWrite ≠ 0 := by decide
  -- `frame_zero` is a `map_page` whose page is cleared and unmapped.
  have hzero : Yields (RootState.Stocked p vmas) (RootState.frameZero env
      (BitVec.ofNat 64 b <<< 12) { r with pager := r.pager.poolAlloc.2 }) :=
    (hnext.mapPage henv _ _ _ hscratch).bind fun r hr =>
      (yields_tell _).bind fun _ _ => yields_pure hr
  obtain ⟨r₁, hr₁, hstocked₁⟩ := hzero
  obtain ⟨r₂, hr₂, hstocked₂⟩ :=
    hstocked₁.mapPage henv env.self scratchVa (BitVec.ofNat 64 b <<< 12) hscratch
  refine ⟨r₂, BitVec.ofNat 64 b <<< 12, hstocked₂, ?_, fun a ha => ?_⟩
  · rw [RootState.loadPage, hb, val_bind, lift_val, Option.bind_some, val_bind, hr₁,
      Option.bind_some, val_bind, hr₂, Option.bind_some]
    rfl
  · rw [RootState.loadPage, hb]
    refine mem_log_bind.mpr (Or.inr ⟨b, rfl, ?_⟩)
    refine mem_log_bind.mpr (Or.inr ⟨r₁, hr₁, mem_log_bind.mpr (Or.inr ⟨r₂, hr₂, ?_⟩)⟩)
    exact mem_log_bind.mpr (Or.inl ha)

/-- A page is loaded if `SYS_MAP` grants it. -/
theorem RootState.Stocked.loadPage (h : r.Stocked p vmas) (hp : 0 < p.setBits.length)
    (henv : ∀ n, env.granted n = true) (hph : ph.Mappable) (va : Addr) :
    Yields (RootState.Stocked p vmas) (r.loadPage env ph va) := by
  obtain ⟨r', phys, hr', hval, -⟩ := h.loadPage_front hp henv ph va
  obtain ⟨r'', hr'', hstocked⟩ := hr'.mapPage henv env.child va phys hph
  exact ⟨r'', hval.trans hr'', hstocked⟩

/-- A segment is turned away for its flags, or because of the segments before it. -/
theorem RootState.Stocked.loadSegment (h : r.Stocked p vmas) (hp : 0 < p.setBits.length)
    (henv : ∀ n, env.granted n = true) (hph : ph.Mappable ∨ ph.pages = [])
    (hinsert : (insertSegment vmas ph).1 = true) :
    Yields (RootState.Stocked p (insertSegment vmas ph).2) (r.loadSegment env ph) := by
  have hpages : Yields (RootState.Stocked p vmas)
    (ph.pages.foldlM (RootState.loadPage env ph) r) := by
    rcases hph with hph | hnil
    · exact yields_foldlM _ (fun r hr va _ => hr.loadPage hp henv hph va) h
    · rw [hnil]
      exact yields_pure h
  apply hpages.bind
  intro r' hr'
  obtain ⟨hpager, rfl⟩ := hr'
  exact (yields_guard hinsert).bind fun _ _ => yields_pure ⟨hpager, rfl⟩

end Granted

end Koharu
