import Koharu.Task.LoadMemory
import Koharu.User.RootLoader

/-!
# What the root server leaves in memory

`load_segment` has each frame mapped into its own address space, clears it, copies the file's bytes
to it, and gives it to the child. What this comes to is read off from its trace: `RootMemory` has
the frames of the pages of each thread, which `SYS_MAP` and `SYS_UNMAP` of one page change, and the
bytes of the frames, which are stored through the root server's own pages.

* `Places`: a trace that loads these pages, each to a frame of its own;
* `Places.read`: what the child reads afterwards.
-/

namespace Koharu

open Bytes

/-- The address spaces of the threads, and the frames. -/
structure RootMemory where
  /-- The frame of a page of a thread. -/
  spaces : Addr → Addr → Option Addr
  /-- The byte at a physical address. -/
  bytes : Addr → BitVec 8

namespace RootMemory

/-- Where an address of a thread is found. -/
def translate (m : RootMemory) (tid x : Addr) : Option Addr :=
  (m.spaces tid (Kernel.pageOf x)).map fun frame => frame + (x &&& 0xFFF#64)

/-- The byte that a thread reads. -/
def read (m : RootMemory) (tid x : Addr) : Option (BitVec 8) := (m.translate tid x).map m.bytes

/-- One access of the root server. -/
def access (img : Image) (self : Addr) (m : RootMemory) : Access → RootMemory
  | .map target va phys _ =>
      { m with spaces := fun tid page =>
          if tid = target ∧ page = va then some phys else m.spaces tid page }
  | .unmap target va =>
      { m with spaces := fun tid page =>
          if tid = target ∧ page = va then none else m.spaces tid page }
  | .read _ _ => m
  | .copy dst off len =>
      { m with bytes := (Access.copy dst off len).store img (m.translate self) m.bytes }
  | .clear dst len =>
      { m with bytes := (Access.clear dst len).store img (m.translate self) m.bytes }

/-- Memory after a trace. -/
def after (img : Image) (self : Addr) (m : RootMemory) (log : List Access) : RootMemory :=
  log.foldl (access img self) m

end RootMemory

/-! ### One page

The requests and stores for one page, in their order. -/

namespace PageLoad

/-- What `load_segment` does for one page. -/
def steps (env : RootEnv) (l : PageLoad) : List Access :=
  [.map env.self scratchVa l.frame protReadWrite, .clear scratchVa pageSize.toNat,
    .unmap env.self scratchVa, .map env.self scratchVa l.frame protReadWrite] ++
  l.ph.copyTo scratchVa l.va ++
  [.unmap env.self scratchVa, .map env.child l.va l.frame (RootState.segmentProt l.ph)]

end PageLoad

namespace RootMemory

variable {img : Image} {env : RootEnv} {self : Addr} {m : RootMemory}

/-- The memory after a longer log, in two steps. -/
theorem after_append (l l' : List Access) :
    m.after img self (l ++ l') = (m.after img self l).after img self l' :=
  List.foldl_append

/-- Copying changes bytes only. -/
theorem after_copyTo (ph : Segment) (page va : Addr) : m.after img self (ph.copyTo page va) =
    { m with
      bytes := (ph.copyTo page va).foldl (Access.store img (m.translate self)) m.bytes } := by
  rw [Segment.copyTo]
  split <;> rfl

/-- A page that is mapped at `SCRATCH_VA`. -/
theorem translate_scratch {frame : Addr} (h : m.spaces self scratchVa = some frame) {z : ℕ}
    (hz : z < 4096) :
    m.translate self (scratchVa + BitVec.ofNat 64 z) = some (frame + BitVec.ofNat 64 z) := by
  have hscratch : scratchVa.toNat = 0x710000000000 := rfl
  have hnat : (scratchVa + BitVec.ofNat 64 z).toNat = 0x710000000000 + z := by
    rw [BitVec.toNat_add, BitVec.toNat_ofNat, hscratch, Nat.mod_eq_of_lt (by omega : z < 2 ^ 64),
      Nat.mod_eq_of_lt (by omega)]
  have hpage : Kernel.pageOf (scratchVa + BitVec.ofNat 64 z) = scratchVa := by
    rw [← BitVec.toNat_inj, toNat_pageOf, hnat, hscratch]
    omega
  have hoff : (scratchVa + BitVec.ofNat 64 z) &&& 0xFFF#64 = BitVec.ofNat 64 z := by
    rw [← BitVec.toNat_inj, Word.toNat_and_low (w := 12) (by decide), hnat, BitVec.toNat_ofNat]
    omega
  rw [translate, hpage, h, hoff]
  rfl

/-- `memset` of the page at `SCRATCH_VA`. -/
theorem store_clear_scratch (img : Image) {frame : Addr} (hframe : IsPage frame)
    (h : m.spaces self scratchVa = some frame) (mem : Addr → BitVec 8) (a : Addr) :
    (Access.clear scratchVa pageSize.toNat).store img (m.translate self) mem a =
      if Kernel.pageOf a = frame then 0 else mem a := by
  show storeAt (m.translate self) scratchVa (fun _ => 0) 4096 mem a = _
  rw [storeAt_apply (by decide) fun k hk => translate_scratch h hk]
  refine if_congr ?_ rfl rfl
  rw [pageOf_eq_iff hframe, BitVec.toNat_sub]
  rw [isPage_iff] at hframe
  have := a.isLt
  have := frame.isLt
  omega

/-- What is different after one page of `load_segment`. -/
structure Placed (img : Image) (env : RootEnv) (l : PageLoad) (m m' : RootMemory) : Prop where
  bytes : ∀ a, m'.bytes a =
    if Kernel.pageOf a = l.frame then l.ph.byteAt img 0 (addrIn l.frame l.va a) else m.bytes a
  spaces : ∀ tid page, m'.spaces tid page =
    if tid = env.child ∧ page = l.va then some l.frame
    else if tid = env.self ∧ page = scratchVa then none
    else m.spaces tid page

/-- The steps for one page put its bytes into its frame. -/
theorem placed_steps {l : PageLoad} (hframe : IsPage l.frame) (hva : IsPage l.va)
    (hwrap : l.va.toNat + 4096 < 2 ^ 64) :
    Placed img env l m (m.after img env.self (l.steps env)) := by
  -- the page is at `SCRATCH_VA` twice, and is not when `SYS_MAP` gives it to the child
  have hzero : ∀ m : RootMemory, ∃ m', m' = m.after img env.self [
        .map env.self scratchVa l.frame protReadWrite, .clear scratchVa pageSize.toNat,
        .unmap env.self scratchVa, .map env.self scratchVa l.frame protReadWrite] ∧
      (∀ a, m'.bytes a = if Kernel.pageOf a = l.frame then 0 else m.bytes a) ∧
      ∀ tid page, m'.spaces tid page =
        if tid = env.self ∧ page = scratchVa then some l.frame else m.spaces tid page := by
    intro m
    refine ⟨_, rfl, fun a => ?_, fun tid page => ?_⟩
    · have hmapped : (m.access img env.self (.map env.self scratchVa l.frame protReadWrite)).spaces
          env.self scratchVa = some l.frame := if_pos ⟨rfl, rfl⟩
      exact store_clear_scratch img hframe hmapped m.bytes a
    · show (if tid = env.self ∧ page = scratchVa then some l.frame else
        if tid = env.self ∧ page = scratchVa then none else
        if tid = env.self ∧ page = scratchVa then some l.frame else m.spaces tid page) = _
      split
      case isTrue => rfl
      case isFalse => rfl
  obtain ⟨m₁, heq, hbytes, hspaces⟩ := hzero m
  have hscratch : m₁.spaces env.self scratchVa = some l.frame :=
    (hspaces env.self scratchVa).trans (if_pos ⟨rfl, rfl⟩)
  rw [PageLoad.steps, after_append, after_append, ← heq, after_copyTo]
  refine ⟨fun a => ?_, fun tid page => ?_⟩
  · show (l.ph.copyTo scratchVa l.va).foldl (Access.store img (m₁.translate env.self)) m₁.bytes a =
      _
    rw [Segment.foldl_store_copyTo hframe hva hwrap fun z hz => translate_scratch hscratch hz,
      hbytes, Segment.byteAt]
    by_cases ha : Kernel.pageOf a = l.frame
    · -- what was cleared need not be cleared again
      simp only [ha, true_and, if_true]
      split
      case isTrue hcopied =>
        rw [if_neg]
        rintro ⟨hle, -⟩
        exact BitVec.not_lt.mpr hle hcopied.2
      case isFalse =>
        split <;> rfl
    · simp only [ha, false_and, if_false]
  · show (if tid = env.child ∧ page = l.va then some l.frame else
      if tid = env.self ∧ page = scratchVa then none else m₁.spaces tid page) = _
    rw [hspaces]
    split
    case isTrue => rfl
    case isFalse =>
      split
      case isTrue => rfl
      case isFalse => rfl

/-! ### All pages

Memory after a trace, frame by frame. -/

section AllPages

variable {L : List PageLoad}
  (hL : ∀ l ∈ L, IsPage l.frame ∧ IsPage l.va ∧ l.va.toNat + 4096 < 2 ^ 64)

include hL

/-- Frames that nothing is loaded to keep their bytes. -/
theorem bytes_of_ne {a : Addr} (ha : ∀ l ∈ L, Kernel.pageOf a ≠ l.frame) :
    (m.after img env.self (L.flatMap (PageLoad.steps env))).bytes a = m.bytes a := by
  induction L generalizing m with
  | nil => rfl
  | cons l L ih =>
      obtain ⟨hframe, hva, hwrap⟩ := hL l List.mem_cons_self
      rw [List.flatMap_cons, after_append,
        ih (fun l hl => hL l (List.mem_cons_of_mem _ hl)) fun l hl =>
        ha l (List.mem_cons_of_mem _ hl),
        (placed_steps hframe hva hwrap).bytes, if_neg (ha l List.mem_cons_self)]

/-- As long as no frame is taken twice, each of them has what was loaded to it. -/
theorem bytes_of_mem (hnodup : (L.map PageLoad.frame).Nodup) {l : PageLoad} (hl : l ∈ L) {a : Addr}
    (ha : Kernel.pageOf a = l.frame) :
    (m.after img env.self (L.flatMap (PageLoad.steps env))).bytes a =
      l.ph.byteAt img 0 (addrIn l.frame l.va a) := by
  induction L generalizing m with
  | nil => cases hl
  | cons l' L ih =>
      have hrest : ∀ l ∈ L, IsPage l.frame ∧ IsPage l.va ∧ l.va.toNat + 4096 < 2 ^ 64 :=
        fun l hl => hL l (List.mem_cons_of_mem _ hl)
      obtain ⟨hframe, hva, hwrap⟩ := hL l' List.mem_cons_self
      rw [List.map_cons, List.nodup_cons] at hnodup
      rw [List.flatMap_cons, after_append]
      -- the frame of the first load is no later load's, so that its bytes stay
      rcases List.mem_cons.mp hl with rfl | hmem
      · rw [bytes_of_ne hrest, (placed_steps hframe hva hwrap).bytes, if_pos ha]
        exact fun l₂ hl₂ heq => hnodup.1 (List.mem_map.mpr ⟨l₂, hl₂, heq.symm.trans ha⟩)
      · exact ih hrest hnodup.2 hmem

/-- The child's pages, where none of them is the root server's. -/
theorem spaces_child (hself : env.child ≠ env.self) (page : Addr) :
    (m.after img env.self (L.flatMap (PageLoad.steps env))).spaces env.child page =
      ((L.reverse.find? fun l => l.va = page).map PageLoad.frame).or (m.spaces env.child page) := by
  induction L using List.reverseRecOn with
  | nil => rfl
  | append_singleton L l ih =>
      obtain ⟨hframe, hva, hwrap⟩ := hL l (List.mem_append_right _ (List.mem_singleton_self l))
      rw [List.flatMap_append, after_append, List.flatMap_singleton,
        (placed_steps hframe hva hwrap).spaces, find?_reverse_concat,
        if_neg fun h : env.child = env.self ∧ page = scratchVa => hself h.1,
        ih fun l hl => hL l (List.mem_append_left _ hl)]
      by_cases hpage : l.va = page
      · rw [if_pos ⟨rfl, hpage.symm⟩, if_pos hpage]
        rfl
      · rw [if_neg fun h => hpage h.2.symm, if_neg hpage]

end AllPages

end RootMemory

/-! ### Traces

What a child finds at an address is what the last page that was loaded for it has. -/

/-- The last page that was loaded at an address. -/
def lastAt (p : List (Segment × Addr)) (page : Addr) : Option (Segment × Addr) :=
  p.reverse.find? fun q => q.2 = page

/-- The last page loaded at an address is one of the pages. -/
theorem mem_of_lastAt {p : List (Segment × Addr)} {q : Segment × Addr} {page : Addr}
    (h : lastAt p page = some q) : q ∈ p ∧ q.2 = page := by
  rw [lastAt] at h
  exact ⟨List.mem_reverse.mp (List.mem_of_find?_eq_some h), by simpa using List.find?_some h⟩

/-- It is the last by its record as well. -/
theorem lastAt_map_page (L : List PageLoad) (page : Addr) :
    lastAt (L.map PageLoad.page) page =
      (L.reverse.find? fun l => l.va = page).map PageLoad.page := by
  rw [lastAt, ← List.map_reverse, List.find?_map]
  rfl

/-- There is none when no page is loaded there. -/
theorem lastAt_eq_none_iff {p : List (Segment × Addr)} {page : Addr} :
    lastAt p page = none ↔ ∀ q ∈ p, q.2 ≠ page := by
  simp [lastAt, List.find?_eq_none]

/-- The frame that an access gives to a thread. -/
def Access.frameFor (tid : Addr) : Access → Option Addr
  | .map target _ phys _ => if target = tid then some phys else none
  | _ => none

/-- The frames that a trace gives to a thread. -/
def framesFor (tid : Addr) (log : List Access) : List Addr := log.filterMap (Access.frameFor tid)

/-- A trace that loads these pages for the child, and does nothing else to memory. -/
def Places (img : Image) (env : RootEnv) (p : List (Segment × Addr)) (log : List Access) : Prop :=
  ∃ L : List PageLoad, L.map PageLoad.page = p ∧ (∀ l ∈ L, IsPage l.frame) ∧
    (∀ m : RootMemory, m.after img env.self log =
      m.after img env.self (L.flatMap (PageLoad.steps env))) ∧
    (env.child ≠ env.self → framesFor env.child log = L.map PageLoad.frame)

namespace Places

variable {img : Image} {env : RootEnv} {p p' : List (Segment × Addr)} {log log' : List Access}

/-- Looking at the image loads nothing. -/
theorem of_reads (h : ∀ a ∈ log, ∃ off len, a = .read off len) : Places img env [] log := by
  have hstep : ∀ m : RootMemory, m.after img env.self log = m := by
    intro m
    apply List.foldlRecOn (motive := fun m' => m' = m) _ _ rfl
    intro m' hm a ha
    obtain ⟨off, len, rfl⟩ := h a ha
    exact hm
  have hframes : framesFor env.child log = [] := by
    apply List.filterMap_eq_nil_iff.mpr
    intro a ha
    obtain ⟨off, len, rfl⟩ := h a ha
    rfl
  exact ⟨[], rfl, nofun, hstep, fun _ => hframes⟩

/-- Pages placed by two logs are placed by both in a row. -/
theorem append (h : Places img env p log) (h' : Places img env p' log') :
    Places img env (p ++ p') (log ++ log') := by
  obtain ⟨L, rfl, hframe, hafter, hframes⟩ := h
  obtain ⟨L', rfl, hframe', hafter', hframes'⟩ := h'
  refine ⟨L ++ L', List.map_append, fun l hl => ?_, fun m => ?_, fun hself => ?_⟩
  · rcases List.mem_append.mp hl with hl | hl
    · exact hframe l hl
    · exact hframe' l hl
  · rw [RootMemory.after_append, hafter, hafter', List.flatMap_append, RootMemory.after_append]
  · rw [framesFor, List.filterMap_append, List.map_append, ← hframes hself, ← hframes' hself]
    rfl

/-- The steps for one page. -/
theorem page {l : PageLoad} (hframe : IsPage l.frame) :
    Places img env [l.page] (l.steps env) := by
  refine ⟨[l], rfl, ?_, fun m => by rw [List.flatMap_singleton], fun hself => ?_⟩
  · intro l' hl
    rw [List.mem_singleton.mp hl]
    exact hframe
  · have hcopy : framesFor env.child (l.ph.copyTo scratchVa l.va) = [] := by
      rw [Segment.copyTo]
      split <;> rfl
    unfold framesFor at hcopy
    rw [framesFor, PageLoad.steps, List.filterMap_append, List.filterMap_append, hcopy]
    simp [List.filterMap_cons, Access.frameFor, Ne.symm hself]

section Read

variable (h : Places img env p log) (hself : env.child ≠ env.self)
  (hp : ∀ q ∈ p, IsPage q.2 ∧ q.2.toNat + 4096 < 2 ^ 64) (m : RootMemory)

include h hself hp

/-- What the child reads: for each address, what the last page that was loaded there has, with zeros
around it. -/
theorem read (hnodup : (framesFor env.child log).Nodup) {x : Addr} {q : Segment × Addr}
    (hlast : lastAt p (Kernel.pageOf x) = some q) :
    (m.after img env.self log).read env.child x = some (q.1.byteAt img 0 x) := by
  obtain ⟨L, rfl, hframe, hafter, hframes⟩ := h
  have hL : ∀ l ∈ L, IsPage l.frame ∧ IsPage l.va ∧ l.va.toNat + 4096 < 2 ^ 64 :=
    fun l hl => ⟨hframe l hl, hp l.page (List.mem_map_of_mem hl)⟩
  rw [lastAt_map_page] at hlast
  obtain ⟨l, hfound, rfl⟩ := Option.map_eq_some_iff.mp hlast
  have hl : l ∈ L := List.mem_reverse.mp (List.mem_of_find?_eq_some hfound)
  have hva : l.va = Kernel.pageOf x := by simpa using List.find?_some hfound
  have htranslate : (m.after img env.self log).translate env.child x =
      some (l.frame + (x &&& 0xFFF#64)) := by
    rw [RootMemory.translate, hafter, RootMemory.spaces_child hL hself, hfound]
    rfl
  rw [RootMemory.read, htranslate, Option.map_some, hafter,
    RootMemory.bytes_of_mem hL (hframes hself ▸ hnodup) hl (pageOf_add_offset (hframe l hl) x),
    addrIn_add_offset hva.symm]
  rfl

/-- Pages that nothing is loaded for stay as they are. -/
theorem spaces_eq {page : Addr} (hlast : lastAt p page = none) :
    (m.after img env.self log).spaces env.child page = m.spaces env.child page := by
  obtain ⟨L, rfl, hframe, hafter, -⟩ := h
  have hL : ∀ l ∈ L, IsPage l.frame ∧ IsPage l.va ∧ l.va.toNat + 4096 < 2 ^ 64 :=
    fun l hl => ⟨hframe l hl, hp l.page (List.mem_map_of_mem hl)⟩
  rw [lastAt_map_page, Option.map_eq_none_iff] at hlast
  rw [hafter, RootMemory.spaces_child hL hself, hlast]
  rfl

end Read

end Places

/-! ### `load_segment`

A result of `load_segment` has left the trace of its pages. -/

section LoadSegment

variable {img : Image} {env : RootEnv} {r r' : RootState}

/-- A frame number shifted is the address of a page. -/
theorem isPage_shift (pfn : ℕ) : IsPage (BitVec.ofNat 64 pfn <<< 12) := by
  rw [isPage_iff, BitVec.toNat_shiftLeft, Nat.shiftLeft_eq]
  omega

namespace RootState

/-- Asking the pager touches no memory. -/
theorem ask_log (r : RootState) : (r.ask env).log = [] := by
  apply List.eq_nil_iff_forall_not_mem.mpr
  intro a ha
  rcases Traced.mem_log_bind.mp ha with ha | ⟨_, -, ha⟩
  · exact List.not_mem_nil ha
  · exact List.not_mem_nil ha

/-- A request is in the trace whether or not it is granted. -/
theorem mapPage_log (r : RootState) (target va phys prot : Addr) :
    (r.mapPage env target va phys prot).log = [.map target va phys prot] := by
  have hrest : (Traced.lift (guard (prot &&& protReadWrite ≠ 0)) >>= fun _ => r.ask env).log =
    [] := by
    apply List.eq_nil_iff_forall_not_mem.mpr
    intro a ha
    rcases Traced.mem_log_bind.mp ha with ha | ⟨_, -, ha⟩
    · exact List.not_mem_nil ha
    · rw [ask_log] at ha
      exact List.not_mem_nil ha
  rw [mapPage, Traced.log_bind (Traced.tell_val _), hrest]
  rfl

/-- A frame is zeroed through the scratch page. -/
theorem frameZero_log {phys : Addr} (h : (r.frameZero env phys).val = some r') :
    (r.frameZero env phys).log = [.map env.self scratchVa phys protReadWrite,
      .clear scratchVa pageSize.toNat, .unmap env.self scratchVa] := by
  obtain ⟨r₁, hr₁, -, hlog⟩ := Traced.exists_of_bind h
  rw [frameZero, hlog, mapPage_log]
  rfl

/-- One page of `load_segment`. -/
theorem places_loadPage {ph : Segment} {va : Addr} (h : (r.loadPage env ph va).val = some r') :
    Places img env [(ph, va)] (r.loadPage env ph va).log := by
  obtain ⟨pfn, hpfn, hval, hlog⟩ := Traced.exists_of_bind h
  obtain ⟨r₁, hr₁, hval₁, hlog₁⟩ := Traced.exists_of_bind hval
  obtain ⟨r₂, hr₂, hval₂, hlog₂⟩ := Traced.exists_of_bind hval₁
  have hpage : Places img env [(ph, va)]
      (PageLoad.steps env ⟨ph, va, BitVec.ofNat 64 pfn <<< 12⟩) :=
    Places.page (l := ⟨ph, va, BitVec.ofNat 64 pfn <<< 12⟩) (isPage_shift pfn)
  convert hpage using 1
  -- copying the file's part is neither refused nor does it fail
  have htail : (r.loadPage env ph va).log = (frameZero env (BitVec.ofNat 64 pfn <<< 12)
      { r with pager := r.pager.poolAlloc.2 }).log ++
      ((r₁.mapPage env env.self scratchVa (BitVec.ofNat 64 pfn <<< 12) protReadWrite).log ++
      (ph.copyTo scratchVa va ++ ([.unmap env.self scratchVa] ++
      (r₂.mapPage env env.child va (BitVec.ofNat 64 pfn <<< 12) (segmentProt ph)).log))) := by
    rw [loadPage, hlog, Traced.lift_log, List.nil_append, hlog₁, hlog₂,
      Traced.log_bind (Traced.tell_val _), Traced.log_bind (Traced.tell_val _), Traced.tell_log,
      Traced.tell_log]
  rw [htail, frameZero_log hr₁, mapPage_log, mapPage_log, PageLoad.steps]
  simp

/-- Page by page. -/
theorem places_loadPages {ph : Segment} {l : List Addr}
    (h : (l.foldlM (loadPage env ph) r).val = some r') :
    Places img env (l.map (Prod.mk ph)) (l.foldlM (loadPage env ph) r).log := by
  induction l generalizing r with
  | nil => exact Places.of_reads nofun
  | cons va l ih =>
      rw [List.foldlM_cons] at h ⊢
      obtain ⟨r₂, hr₂, hrest, hlog⟩ := Traced.exists_of_bind h
      rw [hlog]
      exact (places_loadPage hr₂).append (ih hrest)

/-- `load_segment`. -/
theorem places_loadSegment {ph : Segment} (h : (r.loadSegment env ph).val = some r') :
    Places img env (ph.pages.map (Prod.mk ph)) (r.loadSegment env ph).log := by
  obtain ⟨r₁, hr₁, hinsert, hlog⟩ := Traced.exists_of_bind h
  obtain ⟨_, -, -, hlog'⟩ := Traced.exists_of_bind hinsert
  rw [loadSegment, hlog, hlog', Traced.lift_log, Traced.pure_log, List.append_nil, List.append_nil]
  exact places_loadPages hr₁

end RootState

end LoadSegment

end Koharu
