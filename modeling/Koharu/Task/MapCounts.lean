import Koharu.Lib.Machine
import Koharu.Lib.Tally
import Koharu.Task.Delegation
import Koharu.Task.MappedFrames
import Mathlib.Data.FinEnum

/-!
# What the mapping counts count

`g_maps` is to say how many virtual pages `SYS_MAP` has mapped to each frame. `SYS_MAP` counts by
physical addresses, from `a3` to `a3 + a4`, and `pmap_map` maps by virtual ones, rounded to pages;
`SYS_UNMAP` takes back one count for each page it finds mapped. Nothing remembers which leaf entries
are counted.

The counts are compared with a history variable, `installed`: the virtual pages, over all address
spaces, that calls of `SYS_MAP` have mapped. `Sound` says that each count is the number of these
pages that are mapped to the frame now. A call of `SYS_MAP` stores the leaf entries of a range, all
of it or a part, and adds one to the count of each frame in its range if it succeeds; a step of
`SYS_UNMAP` clears one entry and takes one away. `Lib/Tally` has the arithmetic of both.

* `MapCounts.counts_exact`: as long as every call maps the pages that it counts, each of them for
  the first time, and takes back what was counted, the counts are exact.
-/

namespace Koharu

open Sweep

namespace Kernel

variable {σ : Type} {s s' : Kernel σ}

/-! ### The second loop of `SYS_MAP`

It counts one mapping for each page of the range, whatever `pmap_map` has stored. -/

/-- The number of frames that `SYS_MAP` counts. -/
def countedFrames (a3 a4 : BitVec 64) : ℕ := ((a3 + a4).toNat - a3.toNat + 4095) / 4096

/-- The frame number of an address. -/
theorem toNat_physToPfn (phys : Addr) : (physToPfn phys).toNat = phys.toNat / 4096 := by
  rw [physToPfn, BitVec.toNat_ushiftRight, Nat.shiftRight_eq_div_pow]

/-- `grant_mapping_add` counts one mapping more for its frame, if that is a frame of the table. -/
theorem grantMappingAdd_maps (s : Kernel σ) (pfn f : BitVec 64) :
    (s.grantMappingAdd pfn).maps f = s.maps f + if f < s.frames ∧ f = pfn then 1 else 0 := by
  unfold grantMappingAdd
  by_cases hf : f = pfn
  · subst hf
    split
    next hlt => simp [hlt]
    next hlt => simp [hlt]
  · split <;> simp [hf]

/-- It does not change the size of the table. -/
theorem grantMappingAdd_frames (s : Kernel σ) (pfn : BitVec 64) :
    (s.grantMappingAdd pfn).frames = s.frames := by
  rw [grantMappingAdd]
  split <;> rfl

/-- The loop counts one frame after another, each once. -/
theorem maps_mapCount {paEnd : Addr} (fuel : ℕ) {pa : Addr}
    (hend : paEnd.toNat ≤ 2 ^ 64 - 2 ^ 12 + pa.toNat % 2 ^ 12)
    (h : mapCount paEnd fuel pa s = some s') (f : BitVec 64) :
    s'.maps f = s.maps f + if f < s.frames ∧ pa.toNat / 4096 ≤ f.toNat ∧
      f.toNat < pa.toNat / 4096 + (paEnd.toNat - pa.toNat + 4095) / 4096 then 1 else 0 := by
  induction fuel generalizing s pa with
  | zero => cases h
  | succ fuel ih =>
      rw [mapCount] at h
      split at h
      next hlt =>
        rw [BitVec.lt_def] at hlt
        have hnext : (pa + pageSize).toNat = pa.toNat + 4096 := by
          rw [BitVec.toNat_add, show pageSize.toNat = 4096 from rfl]
          omega
        have hpfn := toNat_physToPfn pa
        rw [ih (by omega) h, grantMappingAdd_maps, grantMappingAdd_frames, hnext, BitVec.add_assoc]
        apply congrArg (s.maps f + ·)
        -- the first frame is counted here, and is none of those that follow
        by_cases hfirst : f = physToPfn pa
        · rw [hfirst, hpfn]
          by_cases hframe : physToPfn pa < s.frames
          · rw [if_pos ⟨hframe, rfl⟩, if_neg (by omega), if_pos ⟨hframe, by omega, by omega⟩]
            rfl
          · rw [if_neg fun hin => hframe hin.1, if_neg fun hin => hframe hin.1,
              if_neg fun hin => hframe hin.1]
            rfl
        · have hne : f.toNat ≠ pa.toNat / 4096 := by
            rw [← hpfn]
            exact fun heq => hfirst (BitVec.eq_of_toNat_eq heq)
          rw [if_neg fun hin => hfirst hin.2, zero_add]
          refine if_congr (and_congr_right fun _ => ?_) rfl rfl
          omega
      next hlt =>
        cases h
        rw [BitVec.lt_def] at hlt
        rw [if_neg (by omega), add_zero]

/-! ### Virtual pages of all address spaces

Mappings are counted over all address spaces, by the frame that the leaf entry of a page points to.
-/

/-- A virtual page of an address space, which goes by the address of its `pmap_t`. -/
abbrev SpacePage := Addr × BitVec 36

/-- The frame that the leaf entry of a virtual page points to, if it has one. -/
def frameAt (s : Kernel σ) (x : SpacePage) : Option ℕ :=
  (s.pmaps x.1).bind fun p => s.pm.frameAt p.rootPhys x.2

/-- The pages of which a call of `SYS_MAP` has stored the leaf entries: as many pages of the range,
from its start on, as there are new entries. -/
def storedPages (s s' : Kernel σ) (a1 a2 a5 : BitVec 64) : Set SpacePage :=
  {x | x.1 = (s.thread a1).pmap ∧ ∃ k < (written s s').length,
    PmState.SamePage (mapFlags a5)
      (PmState.pageAt (mapFlags a5) (PmState.mapStart (mapFlags a5) a2) k) (pageAddr x.2)}

/-- What a page of an address space is mapped to is read from the tables of its pmap. -/
theorem frameAt_of_pmaps {x : SpacePage} {p : Pmap} (hp : s.pmaps x.1 = some p) :
    s.frameAt x = s.pm.frameAt p.rootPhys x.2 := by
  rw [frameAt, hp, Option.bind_some]

/-- A call that changes nothing has stored no page. -/
theorem storedPages_self (s : Kernel σ) (a1 a2 a5 : BitVec 64) : storedPages s s a1 a2 a5 = ∅ := by
  have hnone : written s s = [] := by rw [written, List.drop_length, List.filterMap_nil]
  ext x
  refine iff_of_false ?_ (Set.notMem_empty x)
  rintro ⟨-, k, hk, -⟩
  rw [hnone] at hk
  exact absurd hk (Nat.not_lt_zero k)

end Kernel

/-- The kernel, and the virtual pages whose leaf entries are those that `SYS_MAP` has stored. -/
structure MapCounts (σ : Type) where
  kernel : Kernel σ
  installed : Set Kernel.SpacePage

/-- The calls of threads, any of which may be the current one. -/
inductive MapAction
  /-- Another thread runs. -/
  | switch (tid : BitVec 64)
  /-- `SYS_MAP`, with the iterations that its loops may take. -/
  | map (fuel : ℕ) (a1 a2 a3 a4 a5 : BitVec 64)
  /-- `SYS_UNMAP`. -/
  | unmap (fuel : ℕ) (a1 a2 a3 : BitVec 64)
  /-- `SYS_GRANT`, and whether `kmalloc` has memory. -/
  | grant (kmalloc : Bool) (a1 a2 a3 : BitVec 64)

namespace MapCounts

open Kernel PmState

variable {σ : Type}

/-- The mapping counts are exact. -/
def Exact (c : MapCounts σ) : Prop :=
  ∀ pfn < c.kernel.frames,
    (c.kernel.maps pfn).toNat = Tally.count c.installed c.kernel.frameAt pfn.toNat

variable [PageAllocator σ]

/-- One call. -/
def step (c : MapCounts σ) : MapAction → Option (MapCounts σ)
  | .switch tid => some { c with kernel := { c.kernel with current := tid } }
  | .map fuel a1 a2 a3 a4 a5 => (c.kernel.sysMap fuel a1 a2 a3 a4 a5).map fun x =>
      { kernel := x.2, installed := c.installed ∪ storedPages c.kernel x.2 a1 a2 a5 }
  | .unmap fuel a1 a2 a3 => (c.kernel.sysUnmap fuel a1 a2 a3).map fun x =>
      { kernel := x.2, installed := {y | y ∈ c.installed ∧ x.2.frameAt y ≠ none} }
  | .grant kmalloc a1 a2 a3 => (c.kernel.sysGrant kmalloc a1 a2 a3).map fun x =>
      { c with kernel := x.2 }

/-- A `SYS_MAP` that returns adds the pages that it has stored. -/
theorem step_map {c : MapCounts σ} {fuel : ℕ} {a1 a2 a3 a4 a5 v : BitVec 64} {s' : Kernel σ}
    (hcall : c.kernel.sysMap fuel a1 a2 a3 a4 a5 = some (v, s')) :
    c.step (.map fuel a1 a2 a3 a4 a5) =
      some ⟨s', c.installed ∪ storedPages c.kernel s' a1 a2 a5⟩ := by
  rw [step, hcall]
  rfl

/-! ### Where the counts stay exact

The conditions on the calls, each of which rules out one way for the loop and the tables to
disagree. -/

section Conditions

variable (back : ℕ) (left : σ → ℕ) (top : Set (BitVec 9)) (c : MapCounts σ) (root pmap : Addr)

/-- The frames that `SYS_MAP` counts are those that it maps, one after another, to pages that it has
not mapped before; and no count is at its maximum. -/
structure MapsCounted (a2 a3 a4 a5 : BitVec 64) : Prop where
  same : spanCount a2 a4 (mapFlags a5) = countedFrames a3 a4
  frames : ∀ i < countedFrames a3 a4, spanFrame a3 (mapFlags a5) i = a3.toNat / 4096 + i
  fresh : ∀ i < countedFrames a3 a4, (pmap, rangePage a2 (mapFlags a5) i) ∉ c.installed
  below : ∀ i < countedFrames a3 a4,
    c.kernel.maps (BitVec.ofNat 64 (a3.toNat / 4096 + i)) ≠ 0xFFFF#16

/-- There are tables for the page of the range of `SYS_MAP`, and for those before it. -/
def HasTable (a2 a5 : BitVec 64) (i : ℕ) : Prop :=
  HasRoom back left c.kernel.pm root (mapFlags a5) (PmState.mapStart (mapFlags a5) a2)
    (i / stepFrames (mapFlags a5) + 1)

/-- What `SYS_MAP` maps before it finds no table, it has mapped before to the same frames. -/
def Repeats (a2 a3 a4 a5 : BitVec 64) : Prop :=
  ∀ i < spanCount a2 a4 (mapFlags a5), HasTable back left c root a2 a5 i →
    (pmap, rangePage a2 (mapFlags a5) i) ∈ c.installed ∧
      c.kernel.frameAt (pmap, rangePage a2 (mapFlags a5) i) = some (spanFrame a3 (mapFlags a5) i)

/-- The condition on `SYS_MAP`. Its pages are in the part of the address space that is not shared,
no normal page is mapped inside a huge one, and none is met twice. -/
structure MapExact (a2 a3 a4 a5 : BitVec 64) : Prop where
  inTop : InTop (forest {root} top) (PmState.mapStart (mapFlags a5) a2)
    (PmState.mapEnd (mapFlags a5) a2 a4)
  plain : hasProt (mapFlags a5) protHuge = false → c.kernel.pm.NoHuge root
    (PmState.mapStart (mapFlags a5) a2) (PmState.mapEnd (mapFlags a5) a2 a4)
  short : spanCount a2 a4 (mapFlags a5) ≤ 2 ^ 36
  /-- There are tables for all pages. -/
  room : HasRoom back left c.kernel.pm root (mapFlags a5) (PmState.mapStart (mapFlags a5) a2)
    (mapCount (mapFlags a5) a2 a4) → MapsCounted c pmap a2 a3 a4 a5
  noRoom : ¬ HasRoom back left c.kernel.pm root (mapFlags a5)
    (PmState.mapStart (mapFlags a5) a2) (mapCount (mapFlags a5) a2 a4) →
    Repeats back left c root pmap a2 a3 a4 a5

/-- The condition on the loop of `SYS_UNMAP` over the pages from `va` on. Its pages are in the part
of the address space that is not shared. The ones that are mapped are normal pages, which `SYS_MAP`
has mapped, or nothing that `SYS_MAP` has mapped to the same frame is left when the loop comes to
them. -/
structure UnmapExact (va vaEnd : Addr) : Prop where
  inTop : ∀ k, va.toNat + k * 4096 < vaEnd.toNat → pml4Index (pos va pageSize k) ∈ top
  normal : ∀ k, va.toNat + k * 4096 < vaEnd.toNat →
    c.kernel.pmapExtract pmap (pos va pageSize k) ≠ some 0 →
      c.kernel.pm.hugePage root (pos va pageSize k) = false
  counted : ∀ k, va.toNat + k * 4096 < vaEnd.toNat →
    c.kernel.pmapExtract pmap (pos va pageSize k) ≠ some 0 →
      (pmap, virtPage (pos va pageSize k)) ∈ c.installed ∨
        ∀ x ∈ c.installed, c.kernel.frameAt x =
          c.kernel.frameAt (pmap, virtPage (pos va pageSize k)) →
            x.1 = pmap ∧ ∃ j < k, x.2 = virtPage (pos va pageSize j)

/-- Nothing in the range is mapped. -/
def NoneMapped (va vaEnd : Addr) : Prop :=
  ∀ k, va.toNat + k * 4096 < vaEnd.toNat →
    c.kernel.pmapExtract pmap (pos va pageSize k) = some 0

/-- The condition on a call, if it gets past its checks. -/
def Counts : MapAction → Prop
  | .map fuel a1 a2 a3 a4 a5 => MapChecked fuel c.kernel a1 a3 a4 a5 →
      ∀ p, c.kernel.pmaps (c.kernel.thread a1).pmap = some p →
        MapExact back left top c p.rootPhys (c.kernel.thread a1).pmap a2 a3 a4 a5
  | .unmap _ a1 a2 a3 => c.kernel.registered a1 = true →
      (c.kernel.thread a1).pagerTid = c.kernel.current → a3 ≠ 0 →
        NoneMapped c (c.kernel.thread a1).pmap (a2 &&& ~~~0xFFF#64) (a2 + a3) ∨
        ∀ p, c.kernel.pmaps (c.kernel.thread a1).pmap = some p →
          UnmapExact top c p.rootPhys (c.kernel.thread a1).pmap (a2 &&& ~~~0xFFF#64) (a2 + a3)
  | .switch _ => True
  | .grant _ _ _ _ => True

end Conditions

/-! ### The invariant

The tables form separate trees, and each count is the number of leaf entries for its frame. -/

variable [LawfulPageAllocator σ]

/-- Before the first call: the tables of the address spaces form separate trees, and nothing is
counted. -/
structure Start (top : Set (BitVec 9)) (s : Kernel σ) : Prop where
  wf : s.pm.Wf (forest s.roots top)
  roots_ne : (0 : Addr) ∉ s.roots
  unshared : ∀ m m' p p', s.pmaps m = some p → s.pmaps m' = some p' → p.rootPhys = p'.rootPhys →
    m = m'
  maps : ∀ pfn, s.maps pfn = 0

/-- What the calls keep. -/
structure Sound (top : Set (BitVec 9)) (c : MapCounts σ) : Prop where
  wf : c.kernel.pm.Wf (forest c.kernel.roots top)
  roots_ne : (0 : Addr) ∉ c.kernel.roots
  unshared : ∀ m m' p p', c.kernel.pmaps m = some p → c.kernel.pmaps m' = some p' →
    p.rootPhys = p'.rootPhys → m = m'
  inTop : ∀ x ∈ c.installed, pml4Index (pageAddr x.2) ∈ top
  exact : c.Exact

variable {top : Set (BitVec 9)} {c : MapCounts σ} {s s' : Kernel σ}

/-- At the start the counts are right, with nothing installed. -/
theorem Start.sound (h : Start top s) : Sound top ⟨s, ∅⟩ where
  wf := h.wf
  roots_ne := h.roots_ne
  unshared := h.unshared
  inTop _ hx := absurd hx (Set.notMem_empty _)
  exact pfn _ := by
    rw [Tally.count_empty]
    exact congrArg BitVec.toNat (h.maps pfn)

/-- What the tables say about the pages of another address space. -/
theorem Sound.frameAt_of_ne (h : Sound top c) {m : Addr} {p : Pmap} {pm : PmState σ}
    {maps : BitVec 64 → BitVec 16} (hp : c.kernel.pmaps m = some p)
    (hstep : Step (forest {p.rootPhys} top) c.kernel.pm pm) {x : SpacePage}
    (hx : pml4Index (pageAddr x.2) ∈ top) (hne : x.1 ≠ m) :
    frameAt { c.kernel with pm, maps } x = c.kernel.frameAt x := by
  cases hp' : c.kernel.pmaps x.1 with
  | none => simp only [Kernel.frameAt, hp', Option.bind_none]
  | some p' =>
      simp only [Kernel.frameAt, hp', Option.bind_some]
      refine PmState.frameAt_congr (hstep.leaf_of_ne h.wf (mem_roots hp) (mem_roots hp') ?_ ?_ hx)
      · exact fun heq => hne (h.unshared _ _ _ _ hp' hp heq)
      · rintro heq
        exact h.roots_ne (heq ▸ mem_roots hp')

/-! ### `SYS_MAP` -/

/-- A call of `pmap_map` that gets past the checks of `SYS_MAP`. -/
structure MapDone (back : ℕ) (left : σ → ℕ) (top : Set (BitVec 9)) (c : MapCounts σ) (m : Addr)
    (p : Pmap) (a2 a3 a4 a5 : BitVec 64) (ok : Bool) (pm : PmState σ) (stored : ℕ) : Prop where
  wf : pm.Wf (forest c.kernel.roots top)
  /-- All pages are mapped if there are tables for them. -/
  ok_iff : ok = true ↔ HasRoom back left c.kernel.pm p.rootPhys (mapFlags a5)
    (PmState.mapStart (mapFlags a5) a2) (mapCount (mapFlags a5) a2 a4)
  stored_le : stored * stepFrames (mapFlags a5) ≤ spanCount a2 a4 (mapFlags a5)
  stored_iff : ∀ i < spanCount a2 a4 (mapFlags a5),
    (i / stepFrames (mapFlags a5) < stored ↔ HasTable back left c p.rootPhys a2 a5 i)
  inTop : ∀ i < spanCount a2 a4 (mapFlags a5),
    pml4Index (pageAddr (rangePage a2 (mapFlags a5) i)) ∈ top
  inside : ∀ i < spanCount a2 a4 (mapFlags a5), HasTable back left c p.rootPhys a2 a5 i →
    ∀ maps, frameAt { c.kernel with pm, maps } (m, rangePage a2 (mapFlags a5) i) =
      some (spanFrame a3 (mapFlags a5) i)
  outside : ∀ x : SpacePage, pml4Index (pageAddr x.2) ∈ top →
    (x.1 = m → ∀ i < spanCount a2 a4 (mapFlags a5), HasTable back left c p.rootPhys a2 a5 i →
      x.2 ≠ rangePage a2 (mapFlags a5) i) →
    ∀ maps, frameAt { c.kernel with pm, maps } x = c.kernel.frameAt x

/-- The counts are right after the loop of `pmap_map`, when each page that it stored was counted
once.
-/
theorem Sound.mapDone {back : ℕ} {left : σ → ℕ} (hleft : Budget back left) (h : Sound top c)
    {m : Addr} {p : Pmap} (hp : c.kernel.pmaps m = some p) {a2 a3 a4 a5 : BitVec 64}
    (hsize : a4 ≠ 0) (hexact : MapExact back left top c p.rootPhys m a2 a3 a4 a5) {fuel : ℕ}
    {ok : Bool} {pm : PmState σ}
    (hmap : c.kernel.pm.pmapMap fuel p.rootPhys a2 a3 a4 (mapFlags a5) = some (ok, pm)) :
    ∃ leaves, Leaves c.kernel.pm pm leaves ∧
      MapDone back left top c m p a2 a3 a4 a5 ok pm leaves.length := by
  have hsub : {p.rootPhys} ⊆ c.kernel.roots := Set.singleton_subset_iff.mpr (mem_roots hp)
  have hwf := h.wf.mono hsub
  have hroot : p.rootPhys ∈ (forest {p.rootPhys} top).roots := Set.mem_singleton _
  have hspan : spanCount a2 a4 (mapFlags a5) =
      mapCount (mapFlags a5) a2 a4 * stepFrames (mapFlags a5) := spanCount_eq hsize
  have hpos := stepFrames_pos (mapFlags a5)
  have hrange := hwf.pmapMap_range hleft hroot hsize hexact.inTop
    (fun hflags x hle hlt e i hleaf => by
    cases hexact.plain hflags x hle hlt e _ hleaf) hmap
  obtain ⟨leaves, hleaves, hle, hlength⟩ :=
    hwf.length_leaves hleft hroot hsize hexact.inTop hexact.plain
    hmap
  have hall := h.wf.pmapMap (mem_roots hp) hexact.inTop hexact.plain hmap
  have hown := hwf.pmapMap hroot hexact.inTop hexact.plain hmap
  -- the pages of the range get what the call wrote, all others are as before
  refine ⟨leaves, hleaves, (hall.moves.step h.wf).wf, hrange.ok_iff, ?_, fun i hi => ?_,
    fun i hi => ?_, fun i hi htable maps => ?_, fun x hx hout maps => ?_⟩
  · rw [hspan]
    exact Nat.mul_le_mul_right _ hle
  · rw [hspan] at hi
    exact hlength _ ((Nat.div_lt_iff_lt_mul hpos).mpr hi)
  · rw [hspan] at hi
    exact hexact.inTop.rangePage hi
  · rw [hspan] at hi
    rw [frameAt_of_pmaps hp]
    exact hwf.frameAt_rangePage hroot hexact.inTop hexact.plain hrange
      (hspan ▸ hexact.short) hi htable
  -- another page of this space, or a page of another space
  · by_cases hm : x.1 = m
    · have hp' : c.kernel.pmaps x.1 = some p := hm ▸ hp
      have hnew : frameAt { c.kernel with pm, maps } x = pm.frameAt p.rootPhys x.2 := by
        rw [Kernel.frameAt, hp', Option.bind_some]
      rw [hnew, frameAt_of_pmaps hp']
      refine hrange.frameAt_of_ne hx fun i hi htable => hout hm i ?_ htable
      rwa [hspan]
    · exact h.frameAt_of_ne hp (hown.moves.step hwf) hx hm

section Map

variable {back : ℕ} {left : σ → ℕ} {m : Addr} {p : Pmap} {a1 a2 a3 a4 a5 : BitVec 64}
  {pm : PmState σ} {leaves : List (Entry × Bool)} {maps : BitVec 64 → BitVec 16} {ok : Bool}

omit [PageAllocator σ] [LawfulPageAllocator σ] in
/-- The pages of which the call has stored the leaf entries are those for which there are tables. -/
theorem mem_storedPages_iff (hleaves : Leaves c.kernel.pm pm leaves)
    (hle : leaves.length * stepFrames (mapFlags a5) ≤ spanCount a2 a4 (mapFlags a5))
    (hstored : ∀ i < spanCount a2 a4 (mapFlags a5),
      (i / stepFrames (mapFlags a5) < leaves.length ↔ HasTable back left c p.rootPhys a2 a5 i))
    (x : SpacePage) : x ∈ storedPages c.kernel { c.kernel with pm, maps } a1 a2 a5 ↔
      x.1 = (c.kernel.thread a1).pmap ∧ ∃ i < spanCount a2 a4 (mapFlags a5),
        HasTable back left c p.rootPhys a2 a5 i ∧ x.2 = rangePage a2 (mapFlags a5) i := by
  have hpos := stepFrames_pos (mapFlags a5)
  have hlength : (written c.kernel { c.kernel with pm, maps }).length = leaves.length :=
    congrArg List.length (written_eq hleaves)
  rw [storedPages, Set.mem_ofPred_eq, hlength]
  refine and_congr_right fun _ => ⟨?_, ?_⟩
  · rintro ⟨k, hk, hsame⟩
    -- page `j` of step `k`
    obtain ⟨j, hj, hpage⟩ := samePage_pageAddr_iff.mp hsame
    have hi : k * stepFrames (mapFlags a5) + j < spanCount a2 a4 (mapFlags a5) :=
      calc k * stepFrames (mapFlags a5) + j < (k + 1) * stepFrames (mapFlags a5) := by
            rw [Nat.succ_mul]
            omega
        _ ≤ leaves.length * stepFrames (mapFlags a5) := Nat.mul_le_mul_right _ hk
        _ ≤ _ := hle
    refine ⟨_, hi, (hstored _ hi).mp ?_, hpage⟩
    rwa [mul_add_div_of_lt hj]
  · rintro ⟨i, hi, htable, hpage⟩
    refine ⟨_, (hstored i hi).mpr htable, samePage_pageAddr_iff.mpr ⟨_, Nat.mod_lt i hpos, ?_⟩⟩
    rw [Nat.div_add_mod']
    exact hpage

/-- A call that finds no table for one of its pages. -/
theorem Sound.map_fails (h : Sound top c) (hleaves : Leaves c.kernel.pm pm leaves)
    (hdone : MapDone back left top c (c.kernel.thread a1).pmap p a2 a3 a4 a5 ok pm leaves.length)
    (hrepeats : Repeats back left c p.rootPhys (c.kernel.thread a1).pmap a2 a3 a4 a5) :
    Sound top ⟨{ c.kernel with pm },
      c.installed ∪ storedPages c.kernel { c.kernel with pm } a1 a2 a5⟩ := by
  have hsame : storedPages c.kernel { c.kernel with pm } a1 a2 a5 ⊆ c.installed := by
    rintro ⟨m, page⟩ hx
    obtain ⟨rfl, i, hi, htable, rfl⟩ :=
      (mem_storedPages_iff hleaves hdone.stored_le hdone.stored_iff _).mp hx
    exact (hrepeats i hi htable).1
  rw [Set.union_eq_left.mpr hsame]
  refine ⟨hdone.wf, h.roots_ne, h.unshared, h.inTop, fun pfn hpfn => (h.exact pfn hpfn).trans ?_⟩
  refine Tally.count_congr fun x => and_congr_right fun hx => ?_
  -- the pages that the call has mapped keep their frames
  have hframe : frameAt { c.kernel with pm } x = c.kernel.frameAt x := by
    by_cases hin : x.1 = (c.kernel.thread a1).pmap ∧ ∃ i < spanCount a2 a4 (mapFlags a5),
        HasTable back left c p.rootPhys a2 a5 i ∧ x.2 = rangePage a2 (mapFlags a5) i
    · obtain ⟨m, page⟩ := x
      obtain ⟨rfl, i, hi, htable, rfl⟩ := hin
      rw [(hrepeats i hi htable).2]
      exact hdone.inside i hi htable _
    · exact hdone.outside x (h.inTop x hx)
        (fun hm i hi htable hpage => hin ⟨hm, i, hi, htable, hpage⟩) _
  rw [hframe]

omit [PageAllocator σ] [LawfulPageAllocator σ] in
/-- With room for all tables of the range there is room for those of each page. -/
theorem HasTable.of_room {i : ℕ} (hroom : HasRoom back left c.kernel.pm p.rootPhys (mapFlags a5)
    (PmState.mapStart (mapFlags a5) a2) (mapCount (mapFlags a5) a2 a4)) (hsize : a4 ≠ 0)
    (hi : i < spanCount a2 a4 (mapFlags a5)) : HasTable back left c p.rootPhys a2 a5 i := by
  rw [spanCount_eq hsize] at hi
  have hlt := (Nat.div_lt_iff_lt_mul (stepFrames_pos (mapFlags a5))).mpr hi
  exact fun j hj => hroom j (by omega)

/-- A call that finds all tables: the pages are new, and each counts for its frame. -/
theorem Sound.map_succeeds (h : Sound top c) (hleaves : Leaves c.kernel.pm pm leaves)
    (hdone : MapDone back left top c (c.kernel.thread a1).pmap p a2 a3 a4 a5 true pm leaves.length)
    (hsize : a4 ≠ 0) (hcounted : MapsCounted c (c.kernel.thread a1).pmap a2 a3 a4 a5)
    (hmaps : ∀ f : BitVec 64, maps f = c.kernel.maps f + if f < c.kernel.frames ∧
      a3.toNat / 4096 ≤ f.toNat ∧ f.toNat < a3.toNat / 4096 + countedFrames a3 a4 then 1 else 0) :
    Sound top ⟨{ c.kernel with pm, maps },
      c.installed ∪ storedPages c.kernel { c.kernel with pm, maps } a1 a2 a5⟩ := by
  have htable : ∀ i < countedFrames a3 a4, HasTable back left c p.rootPhys a2 a5 i := by
    rw [← hcounted.same]
    exact fun i hi => HasTable.of_room (hdone.ok_iff.mp rfl) hsize hi
  have hstored : ∀ x, x ∈ storedPages c.kernel { c.kernel with pm, maps } a1 a2 a5 ↔
      ∃ i < countedFrames a3 a4,
        x = ((c.kernel.thread a1).pmap, rangePage a2 (mapFlags a5) i) := by
    rintro ⟨m, page⟩
    rw [mem_storedPages_iff hleaves hdone.stored_le hdone.stored_iff, hcounted.same]
    constructor
    · rintro ⟨rfl, i, hi, -, rfl⟩
      exact ⟨i, hi, rfl⟩
    · rintro ⟨i, hi, heq⟩
      obtain ⟨rfl, rfl⟩ := Prod.mk.inj heq
      exact ⟨rfl, i, hi, htable i hi, rfl⟩
  have hnew : ∀ i < countedFrames a3 a4, frameAt { c.kernel with pm, maps }
      ((c.kernel.thread a1).pmap, rangePage a2 (mapFlags a5) i) =
        some (a3.toNat / 4096 + i) := by
    intro i hi
    rw [← hcounted.frames i hi]
    exact hdone.inside i (by rwa [hcounted.same]) (htable i hi) maps
  -- the pages that point to a frame are those of before, and the one that is mapped to it
  have hholders : ∀ f x, x ∈ Tally.holders
      (c.installed ∪ storedPages c.kernel { c.kernel with pm, maps } a1 a2 a5)
      (frameAt { c.kernel with pm, maps }) f ↔ x ∈ Tally.holders c.installed c.kernel.frameAt f ∨
        ∃ i < countedFrames a3 a4, x = ((c.kernel.thread a1).pmap, rangePage a2 (mapFlags a5) i) ∧
          a3.toNat / 4096 + i = f := by
    intro f x
    rw [Tally.mem_holders, Tally.mem_holders, Set.mem_union, hstored]
    by_cases hin : ∃ i < countedFrames a3 a4,
        x = ((c.kernel.thread a1).pmap, rangePage a2 (mapFlags a5) i)
    · obtain ⟨i, hi, rfl⟩ := hin
      rw [hnew i hi, Option.some_inj, and_iff_right (Or.inr ⟨i, hi, rfl⟩),
        or_iff_right fun hx => hcounted.fresh i hi hx.1]
      refine ⟨fun hf => ⟨i, hi, rfl, hf⟩, ?_⟩
      rintro ⟨i', hi', heq, hf⟩
      have hframe := hnew i hi
      rw [heq, hnew i' hi', Option.some_inj] at hframe
      omega
    · have hnone : ¬ ∃ i < countedFrames a3 a4,
          x = ((c.kernel.thread a1).pmap, rangePage a2 (mapFlags a5) i) ∧
            a3.toNat / 4096 + i = f := by
        rintro ⟨i, hi, heq, -⟩
        exact hin ⟨i, hi, heq⟩
      rw [or_iff_left hin, or_iff_left hnone]
      apply and_congr_right
      intro hx
      have hframe := hdone.outside x (h.inTop x hx) (fun hm i hi _ hpage => hin ⟨i, ?_, ?_⟩) maps
      · rw [hframe]
      · rwa [← hcounted.same]
      · exact Prod.ext hm hpage
  refine ⟨hdone.wf, h.roots_ne, h.unshared, fun x hx => ?_, fun pfn hpfn => ?_⟩
  · rcases hx with hx | hx
    · exact h.inTop x hx
    · obtain ⟨i, hi, rfl⟩ := (hstored x).mp hx
      exact hdone.inTop i (by rwa [hcounted.same])
  have hbefore := h.exact pfn hpfn
  show (maps pfn).toNat = _
  rw [hmaps]
  by_cases hin : a3.toNat / 4096 ≤ pfn.toNat ∧
      pfn.toNat < a3.toNat / 4096 + countedFrames a3 a4
  · obtain ⟨i, hi⟩ := Nat.exists_eq_add_of_le hin.1
    have hlt : i < countedFrames a3 a4 := by omega
    have hbelow := hcounted.below i hlt
    rw [← hi, BitVec.ofNat_toNat, BitVec.setWidth_eq, ne_eq, ← BitVec.toNat_inj,
      show (0xFFFF#16).toNat = 65535 from rfl] at hbelow
    rw [if_pos ⟨hpfn, hin⟩, Tally.count_succ ((hholders _ _).mpr (Or.inr ⟨i, hlt, rfl, hi.symm⟩))
      (fun hx => hcounted.fresh i hlt hx.1) fun y hy => ?_, ← hbefore]
    · rw [BitVec.toNat_add, show (1 : BitVec 16).toNat = 1 from rfl, Nat.mod_eq_of_lt]
      have := (c.kernel.maps pfn).isLt
      omega
    · rw [hholders, or_iff_left]
      rintro ⟨i', hi', rfl, hf⟩
      obtain rfl : i' = i := by omega
      exact hy rfl
  · rw [if_neg fun hin' => hin hin'.2, add_zero, hbefore]
    refine (Tally.count_congr fun x => ?_).symm
    rw [hholders, or_iff_left]
    rintro ⟨i, hi, -, hf⟩
    exact hin ⟨by omega, by omega⟩

/-- `SYS_MAP`. -/
theorem Sound.map (hleft : Budget back left) (h : Sound top c) {fuel : ℕ} {v : BitVec 64}
    (hcounts : Counts back left top c (.map fuel a1 a2 a3 a4 a5))
    (hcall : c.kernel.sysMap fuel a1 a2 a3 a4 a5 = some (v, s')) :
    Sound top ⟨s', c.installed ∪ storedPages c.kernel s' a1 a2 a5⟩ := by
  have hrefl : Sound top ⟨c.kernel, c.installed ∪ storedPages c.kernel c.kernel a1 a2 a5⟩ := by
    rw [storedPages_self, Set.union_empty]
    exact h
  -- a call that the checks refuse stores nothing
  rcases sysMap_cases hcall with ⟨-, rfl⟩ | ⟨hchecked, -⟩
  · exact hrefl
  obtain ⟨ok, s₁, hmap, hfails, hsucceeds⟩ := hchecked.sysMap_cases hcall
  rcases exists_pmapMap_cases hmap with ⟨-, rfl, rfl⟩ | ⟨-, p, pm, hp, hpm, rfl⟩
  · obtain ⟨-, rfl⟩ := hfails rfl
    exact hrefl
  have hexact := hcounts hchecked p hp
  obtain ⟨leaves, hleaves, hdone⟩ := h.mapDone hleft hp hchecked.size hexact hpm
  -- `pmap_map` fails if and only if there is no room for the tables
  cases ok with
  | false =>
      obtain ⟨-, rfl⟩ := hfails rfl
      refine h.map_fails hleaves hdone (hexact.noRoom fun hroom => ?_)
      exact Bool.false_ne_true (hdone.ok_iff.mpr hroom)
  | true =>
      obtain ⟨-, hcount⟩ := hsucceeds rfl
      have hend := ends_page_iff.mp (ends_of_mapCheck hchecked.held)
      have hmaps := maps_mapCount fuel hend hcount
      obtain ⟨maps, rfl⟩ := mapCount_eq fuel hcount
      exact h.map_succeeds hleaves hdone hchecked.size (hexact.room (hdone.ok_iff.mp rfl)) hmaps

end Map

/-! ### `SYS_UNMAP` -/

section Unmap

variable {c₂ : MapCounts σ} {pmap va vaEnd : Addr} {p : Pmap}

/-- `pmap_extract` finds nothing where there is no leaf entry, and where the frame is that of the
address zero. -/
theorem Sound.extract_ne_zero_iff (h : Sound top c) (hpmap : pmap ≠ 0)
    (hp : c.kernel.pmaps pmap = some p) (haligned : va &&& ~~~0xFFF#64 = va)
    (hva : pml4Index va ∈ top) : c.kernel.pmapExtract pmap va ≠ some 0 ↔
      ∃ f, f ≠ 0 ∧ c.kernel.frameAt (pmap, virtPage va) = some f := by
  have hextract : c.kernel.pmapExtract pmap va = some (c.kernel.pm.pmapExtract p.rootPhys va) := by
    rw [Kernel.pmapExtract, if_neg hpmap, hp]
    rfl
  have htoNat := h.wf.toNat_extract (mem_roots hp) haligned hva
  rw [hextract, ne_eq, Option.some_inj, ← BitVec.toNat_inj, htoNat, frameAt_of_pmaps hp,
    show (0 : Addr).toNat = 0 from rfl]
  cases c.kernel.pm.frameAt p.rootPhys (virtPage va) with
  | none => simp
  | some f => simp

omit [PageAllocator σ] [LawfulPageAllocator σ] in
/-- An address passes the alignment test when a page begins there. -/
theorem aligned_iff : va &&& ~~~0xFFF#64 = va ↔ 4096 ∣ va.toNat := by
  rw [← BitVec.toNat_inj, toNat_roundDown]
  exact ⟨fun h => ⟨_, by rw [← h, Nat.mul_comm]⟩, Nat.div_mul_cancel⟩

omit [PageAllocator σ] [LawfulPageAllocator σ] in
/-- All pages of an aligned range are aligned. -/
theorem aligned_pos (haligned : va &&& ~~~0xFFF#64 = va) (k : ℕ) :
    pos va pageSize k &&& ~~~0xFFF#64 = pos va pageSize k := by
  rw [aligned_iff] at haligned ⊢
  rw [toNat_pos, Nat.dvd_mod_iff (by decide : 4096 ∣ 2 ^ 64)]
  exact Nat.dvd_add haligned (Nat.dvd_mul_left _ _)

/-- The pages after the first one, when nothing but the first page has been unmapped. -/
theorem UnmapExact.next (h : Sound top c) (h₂ : Sound top c₂) (hpmap : pmap ≠ 0)
    (hp : c.kernel.pmaps pmap = some p) (hp₂ : c₂.kernel.pmaps pmap = some p)
    (haligned : va &&& ~~~0xFFF#64 = va) (hnext : (va + pageSize).toNat = va.toNat + 4096)
    (hinstalled : c₂.installed = c.installed)
    (hframe : ∀ x : SpacePage, pml4Index (pageAddr x.2) ∈ top → ∀ f,
      c₂.kernel.frameAt x = some f → c.kernel.frameAt x = some f)
    (hfirst : va.toNat < vaEnd.toNat → c₂.kernel.pmapExtract pmap va = some 0)
    (hhuge : ∀ x, c₂.kernel.pm.hugePage p.rootPhys x = true →
      c.kernel.pm.hugePage p.rootPhys x = true)
    (hexact : UnmapExact top c p.rootPhys pmap va vaEnd) :
    UnmapExact top c₂ p.rootPhys pmap (va + pageSize) vaEnd := by
  have hin : ∀ k, (va + pageSize).toNat + k * 4096 < vaEnd.toNat →
      va.toNat + (k + 1) * 4096 < vaEnd.toNat := by
    intro k hk
    omega
  have hmapped : ∀ k, (va + pageSize).toNat + k * 4096 < vaEnd.toNat →
      c₂.kernel.pmapExtract pmap (pos va pageSize (k + 1)) ≠ some 0 →
      ∃ f, f ≠ 0 ∧ c₂.kernel.frameAt (pmap, virtPage (pos va pageSize (k + 1))) = some f ∧
        c.kernel.frameAt (pmap, virtPage (pos va pageSize (k + 1))) = some f := by
    intro k hk hne
    have htop := hexact.inTop (k + 1) (hin k hk)
    obtain ⟨f, hf, hframe₂⟩ :=
      (h₂.extract_ne_zero_iff hpmap hp₂ (aligned_pos haligned _) htop).mp hne
    refine ⟨f, hf, hframe₂, hframe _ ?_ f hframe₂⟩
    rw [pml4Index_pageAddr_virtPage]
    exact htop
  have hbefore : ∀ k, (va + pageSize).toNat + k * 4096 < vaEnd.toNat →
      c₂.kernel.pmapExtract pmap (pos va pageSize (k + 1)) ≠ some 0 →
      c.kernel.pmapExtract pmap (pos va pageSize (k + 1)) ≠ some 0 := by
    intro k hk hne
    obtain ⟨f, hf, -, hold⟩ := hmapped k hk hne
    exact (h.extract_ne_zero_iff hpmap hp (aligned_pos haligned _)
      (hexact.inTop (k + 1) (hin k hk))).mpr ⟨f, hf, hold⟩
  refine ⟨fun k hk => ?_, fun k hk hne => ?_, fun k hk hne => ?_⟩
  · rw [← pos_succ]
    exact hexact.inTop (k + 1) (hin k hk)
  · rw [← pos_succ] at hne ⊢
    rw [← Bool.not_eq_true]
    intro htrue
    have hnormal := hexact.normal (k + 1) (hin k hk) (hbefore k hk hne)
    rw [hhuge _ htrue] at hnormal
    cases hnormal
  · rw [← pos_succ] at hne ⊢
    obtain ⟨f, hf, hframe₂, hold⟩ := hmapped k hk hne
    rw [hinstalled]
    apply (hexact.counted (k + 1) (hin k hk) (hbefore k hk hne)).imp id
    intro hrest x hx heq
    rw [hframe₂] at heq
    obtain ⟨hm, j, hj, hpage⟩ := hrest x hx ((hframe x (h.inTop x hx) f heq).trans hold.symm)
    refine ⟨hm, ?_⟩
    cases j with
    | zero =>
        -- the first page is not mapped any more
        obtain ⟨m, page⟩ := x
        obtain rfl : m = pmap := hm
        obtain rfl : page = virtPage (pos va pageSize 0) := hpage
        rw [pos_zero] at heq
        have htop := hexact.inTop 0 (by omega)
        rw [pos_zero] at htop
        exact absurd (hfirst (by omega))
          ((h₂.extract_ne_zero_iff hpmap hp₂ haligned htop).mpr ⟨f, hf, heq⟩)
    | succ j => exact ⟨j, by omega, by rw [hpage, pos_succ]⟩

omit [PageAllocator σ] [LawfulPageAllocator σ] in
/-- `grant_mapping_remove` counts one mapping less for its frame and stops at 0. -/
theorem grantMappingRemove_eq (s : Kernel σ) (pfn : BitVec 64) :
    ∃ maps, s.grantMappingRemove pfn = { s with maps } ∧ (∀ f ≠ pfn, maps f = s.maps f) ∧
      (pfn < s.frames → maps pfn = if s.maps pfn ≠ 0 then s.maps pfn - 1 else 0) := by
  unfold grantMappingRemove
  by_cases hpfn : pfn < s.frames
  · by_cases hmaps : s.maps pfn = 0
    · refine ⟨s.maps, if_neg fun hin => hin.2 hmaps, fun _ _ => rfl, fun _ => ?_⟩
      rw [hmaps]
      rfl
    · refine ⟨_, if_pos ⟨hpfn, hmaps⟩, fun f hf => Function.update_of_ne hf _ _, fun _ => ?_⟩
      rw [Function.update_self, if_pos hmaps]
  · exact ⟨s.maps, if_neg fun hin => hpfn hin.1, fun _ _ => rfl, fun hlt => absurd hlt hpfn⟩

/-- One page is unmapped, and a count is taken back. -/
theorem Sound.unmapPage (h : Sound top c) {pm : PmState σ} {maps : BitVec 64 → BitVec 16}
    {pfn : BitVec 64} (hwf : pm.Wf (forest c.kernel.roots top))
    (hframe : ∀ x : SpacePage, pml4Index (pageAddr x.2) ∈ top →
      frameAt { c.kernel with pm, maps } x =
        if x = (pmap, virtPage va) then none else c.kernel.frameAt x)
    (hpage : c.kernel.frameAt (pmap, virtPage va) = some pfn.toNat)
    (hcounted : (pmap, virtPage va) ∈ c.installed ∨
      ∀ x ∈ c.installed, c.kernel.frameAt x ≠ some pfn.toNat)
    (hother : ∀ f ≠ pfn, maps f = c.kernel.maps f)
    (hmaps : pfn < c.kernel.frames →
      maps pfn = if c.kernel.maps pfn ≠ 0 then c.kernel.maps pfn - 1 else 0) :
    Sound top ⟨{ c.kernel with pm, maps }, c.installed⟩ := by
  refine ⟨hwf, h.roots_ne, h.unshared, h.inTop, fun f hf => ?_⟩
  have hbefore := h.exact f hf
  show (maps f).toNat = Tally.count c.installed (frameAt { c.kernel with pm, maps }) f.toNat
  have hrest : ∀ y ≠ (pmap, virtPage va),
      (y ∈ Tally.holders c.installed c.kernel.frameAt f.toNat ↔
        y ∈ Tally.holders c.installed (frameAt { c.kernel with pm, maps }) f.toNat) := by
    intro y hy
    apply and_congr_right
    intro hin
    rw [hframe y (h.inTop y hin), if_neg hy]
  have hgone : (pmap, virtPage va) ∉
      Tally.holders c.installed (frameAt { c.kernel with pm, maps }) f.toNat := by
    rintro ⟨hin, hvalue⟩
    rw [hframe _ (h.inTop _ hin), if_pos rfl] at hvalue
    cases hvalue
  by_cases heq : f = pfn
  · subst heq
    rw [hmaps hf]
    -- a page that was counted gives its count back, for one that was not the count is zero
    rcases hcounted with hin | hnone
    · rw [Tally.count_succ ⟨hin, hpage⟩ hgone hrest] at hbefore
      have hne : c.kernel.maps f ≠ 0 := by
        intro hzero
        rw [hzero] at hbefore
        cases hbefore
      rw [if_pos hne, BitVec.toNat_sub, hbefore, show (1 : BitVec 16).toNat = 1 from rfl]
      have := (c.kernel.maps f).isLt
      omega
    · have hzero : Tally.count c.installed c.kernel.frameAt f.toNat = 0 := Tally.count_eq_zero hnone
      rw [hzero] at hbefore
      rw [if_neg (not_not.mpr (BitVec.eq_of_toNat_eq hbefore))]
      refine (Tally.count_eq_zero fun x hx hvalue => ?_).symm
      rw [hframe x (h.inTop x hx)] at hvalue
      split at hvalue
      · cases hvalue
      · exact hnone x hx hvalue
  · rw [hother f heq, hbefore]
    -- the page was one of another frame
    apply Tally.count_congr
    intro y
    by_cases hy : y = (pmap, virtPage va)
    · subst hy
      refine iff_of_false ?_ hgone
      rintro ⟨-, hvalue⟩
      rw [hpage] at hvalue
      exact heq (BitVec.eq_of_toNat_eq (Option.some.inj hvalue).symm)
    · exact hrest y hy

omit [LawfulPageAllocator σ] in
/-- `pmap_unmap` changes the tables only. -/
theorem exists_of_pmapUnmap {fuel : ℕ} {virt size : Addr} (hpmap : pmap ≠ 0)
    (hp : s.pmaps pmap = some p) (hunmap : s.pmapUnmap fuel pmap virt size = some s') :
    ∃ pm, s.pm.pmapUnmap fuel p.rootPhys virt size = some pm ∧ s' = { s with pm } := by
  rw [Kernel.pmapUnmap, if_neg hpmap, hp, Option.bind_eq_bind, Option.bind_some] at hunmap
  obtain ⟨pm, hpm, hunmap⟩ := Option.bind_eq_some_iff.mp hunmap
  exact ⟨pm, hpm, (Option.some.inj hunmap).symm⟩

omit [PageAllocator σ] [LawfulPageAllocator σ] in
/-- The next page of a range that stays below the last one does not wrap. -/
theorem toNat_nextPage (hend : vaEnd.toNat ≤ 2 ^ 64 - 2 ^ 12) (hlt : va.toNat < vaEnd.toNat) :
    (va + pageSize).toNat = va.toNat + 4096 := by
  rw [BitVec.toNat_add, show pageSize.toNat = 4096 from rfl]
  omega

/-- An iteration of the loop of `SYS_UNMAP` for a page that is mapped. -/
theorem Sound.unmapMapped (h : Sound top c) (hpmap : pmap ≠ 0) (hp : c.kernel.pmaps pmap = some p)
    (haligned : va &&& ~~~0xFFF#64 = va) (hend : vaEnd.toNat ≤ 2 ^ 64 - 2 ^ 12)
    (hlt : va.toNat < vaEnd.toNat) (hexact : UnmapExact top c p.rootPhys pmap va vaEnd)
    {phys : Addr} (hphys : c.kernel.pmapExtract pmap va = some phys) (hzero : phys ≠ 0) {fuel : ℕ}
    {s₁ : Kernel σ} (hunmap : c.kernel.pmapUnmap fuel pmap va pageSize = some s₁) :
    ∃ c₂ : MapCounts σ, c₂.kernel = s₁.grantMappingRemove (physToPfn phys) ∧
      c₂.installed = c.installed ∧ c₂.kernel.pmaps pmap = some p ∧ Sound top c₂ ∧
      UnmapExact top c₂ p.rootPhys pmap (va + pageSize) vaEnd := by
  obtain ⟨pm, hpm, rfl⟩ := exists_of_pmapUnmap hpmap hp hunmap
  have hroot := mem_roots hp
  have hne : c.kernel.pmapExtract pmap (pos va pageSize 0) ≠ some 0 := by
    rw [pos_zero, hphys]
    exact fun heq => hzero (Option.some.inj heq)
  have htop := hexact.inTop 0 (by omega)
  have hnormal := hexact.normal 0 (by omega) hne
  have hcounted := hexact.counted 0 (by omega) hne
  rw [pos_zero] at htop hnormal hcounted
  obtain ⟨hmoves, hframes, hhuge⟩ := h.wf.frameAt_pmapUnmap hroot haligned htop hnormal
    (by omega) hpm
  obtain ⟨maps, hremove, hother, hmaps⟩ :=
    grantMappingRemove_eq { c.kernel with pm } (physToPfn phys)
  -- the frame of the page is the one whose count is taken back
  have hpage : c.kernel.frameAt (pmap, virtPage va) = some (physToPfn phys).toNat := by
    have htoNat := h.wf.toNat_extract hroot haligned htop
    rw [Kernel.pmapExtract, if_neg hpmap, hp] at hphys
    rw [show c.kernel.pm.pmapExtract p.rootPhys va = phys from Option.some.inj hphys] at htoNat
    rw [frameAt_of_pmaps hp, toNat_physToPfn, htoNat]
    cases hframe : c.kernel.pm.frameAt p.rootPhys (virtPage va) with
    | none =>
        rw [hframe, Option.getD_none, Nat.zero_mul] at htoNat
        exact absurd (BitVec.eq_of_toNat_eq htoNat) hzero
    | some f => rw [Option.getD_some, Nat.mul_div_cancel _ (by decide)]
  have hframe : ∀ x : SpacePage, pml4Index (pageAddr x.2) ∈ top →
      frameAt { c.kernel with pm, maps } x =
        if x = (pmap, virtPage va) then none else c.kernel.frameAt x := by
    rintro ⟨m, page⟩ hx
    cases hm : c.kernel.pmaps m with
    | none =>
        have hsome : m ≠ pmap := by
          rintro rfl
          rw [hm] at hp
          cases hp
        rw [if_neg fun heq => hsome (Prod.mk.inj heq).1]
        simp only [Kernel.frameAt, hm, Option.bind_none]
    | some q =>
        have hnew : frameAt { c.kernel with pm, maps } (m, page) = pm.frameAt q.rootPhys page := by
          rw [Kernel.frameAt, hm, Option.bind_some]
        have hold : c.kernel.frameAt (m, page) = c.kernel.pm.frameAt q.rootPhys page := by
          rw [Kernel.frameAt, hm, Option.bind_some]
        rw [hnew, hold, hframes _ (mem_roots hm) page hx]
        refine if_congr ⟨fun hsame => ?_, fun heq => ?_⟩ rfl rfl
        · exact Prod.ext (h.unshared _ _ _ _ hm hp hsame.1) hsame.2
        · obtain ⟨rfl, rfl⟩ := Prod.mk.inj heq
          exact ⟨by rw [Option.some.inj (hm.symm.trans hp)], rfl⟩
  have h₂ : Sound top ⟨{ c.kernel with pm, maps }, c.installed⟩ := by
    refine h.unmapPage (hmoves.step h.wf).wf hframe hpage (hcounted.imp id ?_) hother hmaps
    intro hrest x hx hvalue
    obtain ⟨-, j, hj, -⟩ := hrest x hx (hvalue.trans hpage.symm)
    exact absurd hj (Nat.not_lt_zero j)
  refine ⟨⟨{ c.kernel with pm, maps }, c.installed⟩, hremove.symm, rfl, hp, h₂, ?_⟩
  refine hexact.next h h₂ hpmap hp hp haligned (toNat_nextPage hend hlt) rfl
    (fun x hx f hf => ?_) (fun _ => ?_) hhuge
  · rw [hframe x hx] at hf
    split at hf
    · cases hf
    · exact hf
  · by_contra hmapped
    obtain ⟨f, -, hf⟩ := (h₂.extract_ne_zero_iff hpmap hp haligned htop).mp hmapped
    rw [hframe _ (by rw [pml4Index_pageAddr_virtPage]; exact htop), if_pos rfl] at hf
    cases hf

/-- The loop of `SYS_UNMAP`. -/
theorem Sound.unmapPages (hpmap : pmap ≠ 0) (hp : c.kernel.pmaps pmap = some p) (fuel : ℕ)
    (h : Sound top c) (haligned : va &&& ~~~0xFFF#64 = va) (hend : vaEnd.toNat ≤ 2 ^ 64 - 2 ^ 12)
    (hexact : UnmapExact top c p.rootPhys pmap va vaEnd)
    (hloop : Kernel.unmapPages pmap vaEnd fuel va c.kernel = some s') :
    Sound top ⟨s', c.installed⟩ := by
  induction fuel generalizing c va with
  | zero => cases hloop
  | succ fuel ih =>
      rw [Kernel.unmapPages] at hloop
      split at hloop
      next hlt =>
        rw [BitVec.lt_def] at hlt
        have haligned' := aligned_pos haligned 1
        rw [pos_succ, pos_zero] at haligned'
        obtain ⟨phys, hphys, hloop⟩ := Option.bind_eq_some_iff.mp hloop
        split at hloop
        next hzero =>
          -- a page that is not mapped is stepped over
          refine ih hp h haligned' ?_ hloop
          exact hexact.next h h hpmap hp hp haligned (toNat_nextPage hend hlt) rfl
            (fun _ _ _ hf => hf) (fun _ => by rw [hphys, hzero]) fun _ hx => hx
        next hzero =>
          obtain ⟨s₁, hunmap, hloop⟩ := Option.bind_eq_some_iff.mp hloop
          obtain ⟨c₂, hkernel, hinstalled, hp₂, h₂, hexact₂⟩ :=
            h.unmapMapped hpmap hp haligned hend hlt hexact hphys hzero hunmap
          rw [← hkernel] at hloop
          rw [← hinstalled]
          exact ih hp₂ h₂ haligned' hexact₂ hloop
      next =>
        obtain rfl := Option.some.inj hloop
        exact h

omit [LawfulPageAllocator σ] in
/-- Where nothing is mapped, `SYS_UNMAP` does nothing. -/
theorem unmapPages_of_noneMapped (fuel : ℕ) (hend : vaEnd.toNat ≤ 2 ^ 64 - 2 ^ 12)
    (hnone : NoneMapped c pmap va vaEnd)
    (hloop : Kernel.unmapPages pmap vaEnd fuel va c.kernel = some s') : s' = c.kernel := by
  induction fuel generalizing va with
  | zero => cases hloop
  | succ fuel ih =>
      rw [Kernel.unmapPages] at hloop
      split at hloop
      next hlt =>
        rw [BitVec.lt_def] at hlt
        -- a page that is not mapped is passed over, and the loop goes to the next one
        have hfirst := hnone 0 (by omega)
        rw [pos_zero] at hfirst
        rw [hfirst, Option.bind_eq_bind, Option.bind_some, if_pos rfl] at hloop
        refine ih (fun k hk => ?_) hloop
        have hnext := toNat_nextPage hend hlt
        rw [← pos_succ]
        exact hnone (k + 1) (by omega)
      next => exact (Option.some.inj hloop).symm

/-- `SYS_UNMAP`. -/
theorem Sound.unmap {back : ℕ} {left : σ → ℕ} (h : Sound top c) {fuel : ℕ} {a1 a2 a3 v : BitVec 64}
    (hcounts : Counts back left top c (.unmap fuel a1 a2 a3))
    (hcall : c.kernel.sysUnmap fuel a1 a2 a3 = some (v, s')) :
    Sound top ⟨s', {y | y ∈ c.installed ∧ s'.frameAt y ≠ none}⟩ := by
  suffices hsound : Sound top ⟨s', c.installed⟩ by
    refine ⟨hsound.wf, hsound.roots_ne, hsound.unshared, fun x hx => hsound.inTop x hx.1,
      fun pfn hpfn => (hsound.exact pfn hpfn).trans ?_⟩
    refine Tally.count_congr fun x => ⟨fun hx => ⟨⟨hx.1, ?_⟩, hx.2⟩, fun hx => ⟨hx.1.1, hx.2⟩⟩
    show s'.frameAt x ≠ none
    rw [show s'.frameAt x = _ from hx.2]
    exact Option.some_ne_none _
  rw [Kernel.sysUnmap] at hcall
  split at hcall
  · cases hcall
    exact h
  next hregistered =>
  split at hcall
  · cases hcall
    exact h
  next hpager =>
  split at hcall
  · cases hcall
    exact h
  next hsize =>
  obtain ⟨s₁, hloop, hcall⟩ := Option.bind_eq_some_iff.mp hcall
  cases hcall
  have haligned : (a2 &&& ~~~0xFFF#64) &&& ~~~0xFFF#64 = a2 &&& ~~~0xFFF#64 := by
    rw [BitVec.and_assoc, BitVec.and_self]
  -- the loop has ended, so that it does not come to the last page
  have hend : (a2 + a3).toNat ≤ 2 ^ 64 - 2 ^ 12 := by
    by_contra hlt
    rw [unmapPages_spins fun hends => hlt ?_] at hloop
    · cases hloop
    · have hbound := ends_page_iff.mp hends
      have hdvd := aligned_iff.mp haligned
      omega
  have hcounts := hcounts (by simpa using hregistered) (by simpa using hpager) hsize
  by_cases hpmap : (c.kernel.thread a1).pmap = 0
  · rw [unmapPages_of_noneMapped fuel hend (fun k _ => ?_) hloop]
    · exact h
    · rw [hpmap, Kernel.pmapExtract, if_pos rfl]
  rcases hcounts with hnone | hexact
  · rw [unmapPages_of_noneMapped fuel hend hnone hloop]
    exact h
  cases hp : c.kernel.pmaps (c.kernel.thread a1).pmap with
  | some p => exact h.unmapPages hpmap hp fuel haligned hend (hexact p hp) hloop
  | none =>
      -- without an address space the call does not get to the second page
      cases fuel with
      | zero => cases hloop
      | succ fuel =>
          rw [Kernel.unmapPages] at hloop
          split at hloop
          · rw [Kernel.pmapExtract, if_neg hpmap, hp] at hloop
            cases hloop
          · obtain rfl := Option.some.inj hloop
            exact h

end Unmap

/-! ### Runs

The conditions are about the state before each call, and the counts stay exact as long as they hold.
-/

/-- What leaves the tables and the counts alone. -/
theorem Sound.congr (h : Sound top c) (hpm : s'.pm = c.kernel.pm) (hmaps : s'.maps = c.kernel.maps)
    (hframes : s'.frames = c.kernel.frames)
    (hpmaps : ∀ m, (s'.pmaps m).map Pmap.rootPhys = (c.kernel.pmaps m).map Pmap.rootPhys) :
    Sound top ⟨s', c.installed⟩ := by
  have hroots := roots_congr hpmaps
  -- what a page maps depends on the tables and the roots only
  have hframe : s'.frameAt = c.kernel.frameAt := by
    funext x
    have heq : ∀ t : Kernel σ, t.frameAt x =
        ((t.pmaps x.1).map Pmap.rootPhys).bind fun r => t.pm.frameAt r x.2 := by
      intro t
      rw [Kernel.frameAt, Option.bind_map]
      rfl
    rw [heq, heq, hpmaps, hpm]
  refine ⟨?_, ?_, fun m m' p p' hp hp' heq => ?_, h.inTop, fun pfn hpfn => ?_⟩
  · show s'.pm.Wf (forest s'.roots top)
    rw [hroots, hpm]
    exact h.wf
  · show (0 : Addr) ∉ s'.roots
    rw [hroots]
    exact h.roots_ne
  · have hold : ∀ {m : Addr} {p : Pmap}, s'.pmaps m = some p →
        ∃ q, c.kernel.pmaps m = some q ∧ q.rootPhys = p.rootPhys := by
      intro m p hp
      have hmap := hpmaps m
      rw [hp, Option.map_some] at hmap
      exact Option.map_eq_some_iff.mp hmap.symm
    obtain ⟨q, hq, hroot⟩ := hold hp
    obtain ⟨q', hq', hroot'⟩ := hold hp'
    exact h.unshared _ _ _ _ hq hq' (hroot.trans (heq.trans hroot'.symm))
  · show (s'.maps pfn).toNat = Tally.count c.installed s'.frameAt pfn.toNat
    rw [hmaps, hframe]
    exact h.exact pfn (by rw [← hframes]; exact hpfn)

/-- `SYS_GRANT`. -/
theorem Sound.grant (h : Sound top c) {kmalloc : Bool} {a1 a2 a3 v : BitVec 64}
    (hcall : c.kernel.sysGrant kmalloc a1 a2 a3 = some (v, s')) : Sound top ⟨s', c.installed⟩ := by
  rcases sysGrant_cases hcall with ⟨-, rfl⟩ | ⟨-, -, hadd⟩
  · exact h
  rcases grantAdd_cases hadd with ⟨-, rfl⟩ | ⟨-, -, p, hp, refs, rfl, -⟩
  · exact h
  refine h.congr rfl rfl rfl fun m => ?_
  by_cases hm : m = (c.kernel.thread a1).pmap
  · subst hm
    simp [regrant, setGrants, hp]
  · simp [regrant, setGrants, hm]

/-- The counts are exact in every run in which every call meets its condition: `SYS_MAP` maps the
frames that it counts, each of them to a page that it has not mapped before, or finds no table and
has mapped nothing new; no normal page is mapped inside a huge one, and none of the counts is at its
maximum; and `SYS_UNMAP` finds normal pages only, which `SYS_MAP` has mapped, or whose frames have
no count left. -/
theorem counts_exact {back : ℕ} {left : σ → ℕ} (hleft : Budget back left) {s₀ : Kernel σ}
    (hstart : Start top s₀) (hrun : Machine.Run step (Counts back left top) ⟨s₀, ∅⟩ c) :
    c.Exact := by
  refine (hrun.invariant (I := Sound top) hstart.sound fun c c' a h hcounts hstep => ?_).exact
  -- one lemma for each call; a switch changes only who runs
  cases a with
  | switch tid =>
      obtain rfl := Option.some.inj hstep
      exact h.congr rfl rfl rfl fun _ => rfl
  | map fuel a1 a2 a3 a4 a5 =>
      obtain ⟨⟨v, s'⟩, hcall, rfl⟩ := Option.map_eq_some_iff.mp hstep
      exact h.map hleft hcounts hcall
  | unmap fuel a1 a2 a3 =>
      obtain ⟨⟨v, s'⟩, hcall, rfl⟩ := Option.map_eq_some_iff.mp hstep
      exact h.unmap hcounts hcall
  | grant kmalloc a1 a2 a3 =>
      obtain ⟨⟨v, s'⟩, hcall, rfl⟩ := Option.map_eq_some_iff.mp hstep
      exact h.grant hcall

/-! ### A small system

One page that is mapped and unmapped again, and one that is mapped twice. -/

/-- The small machine is a start. -/
theorem start_small : Start userTop small where
  wf := booted_small.inv.isolated.wf
  roots_ne := by
    rw [roots_small]
    rintro (hzero | hzero)
    · exact absurd hzero (by decide)
    · exact absurd hzero (by decide)
  unshared m m' p p' hp hp' heq := by
    simp only [small] at hp hp'
    -- the two pmaps of the small machine have different roots
    split_ifs at hp hp'
    all_goals
      cases hp
      cases hp'
      first
        | exact ((by assumption : m = _).trans (by assumption : m' = _).symm)
        | exact absurd heq (by decide)
  maps _ := rfl

/-- Thread 1 maps its frame for thread 2, and unmaps it again. -/
theorem counts_exact_onePage : ∃ c c' : MapCounts BumpAllocator,
    Machine.Run step (Counts 0 pagesLeft userTop) ⟨small, ∅⟩ c' ∧
      step c (.unmap 3 2 0x400000#64 0x1000#64) = some c' ∧ c.kernel.maps 0x200#64 = 1 ∧
      c'.kernel.maps 0x200#64 = 0 ∧ c.Exact ∧ c'.Exact := by
  have hcheck : ((small.sysMap 2 2 0x400000#64 0x200000#64 0x1000#64 3#64).any fun x =>
      (x.2.sysUnmap 3 2 0x400000#64 0x1000#64).any fun y =>
        (written small x.2).length = 1 ∧ (x.2.thread 2).pmap = 0x100#64 ∧
          x.2.pmaps 0x100#64 = small.pmaps 0x100#64 ∧
          x.2.pm.hugePage 0x4000#64 0x400000#64 = false ∧ x.2.maps 0x200#64 = 1 ∧
          y.2.maps 0x200#64 = 0) = true := by
    decide +kernel
  obtain ⟨⟨v, s₁⟩, hmap, hcheck⟩ := (Option.any_eq_true _ _).mp hcheck
  obtain ⟨⟨v', s₂⟩, hunmap, hcheck⟩ := (Option.any_eq_true _ _).mp hcheck
  obtain ⟨hlength, hpmap, hpmaps, hhuge, hmaps₁, hmaps₂⟩ := of_decide_eq_true hcheck
  -- there are tables for the page
  have hroom : HasRoom 0 pagesLeft small.pm 0x4000#64 (mapFlags 3#64)
      (PmState.mapStart (mapFlags 3#64) 0x400000#64) 1 := by
    intro j hj
    obtain rfl : j = 0 := by omega
    decide +kernel
  have hcount : countedFrames 0x200000#64 0x1000#64 = 1 := by decide
  have hexact : MapExact 0 pagesLeft userTop (⟨small, ∅⟩ : MapCounts BumpAllocator) 0x4000#64
      0x100#64 0x400000#64 0x200000#64 0x1000#64 3#64 := by
    refine ⟨mapAllowed_small.1, mapAllowed_small.2, by decide, fun _ => ⟨by decide, fun i hi => ?_,
      fun i hi => Set.notMem_empty _, fun i hi => ?_⟩, fun hnot => absurd hroom hnot⟩
    · rw [hcount] at hi
      obtain rfl : i = 0 := by omega
      decide
    · exact (by decide : (0 : BitVec 16) ≠ 0xFFFF#16)
  have hcounts : Counts 0 pagesLeft userTop (⟨small, ∅⟩ : MapCounts BumpAllocator)
      (.map 2 2 0x400000#64 0x200000#64 0x1000#64 3#64) := by
    rintro - p hp
    obtain rfl : { rootPhys := 0x4000#64, grants := [⟨0x200#64, 3#8⟩] } = p := Option.some.inj hp
    exact hexact
  let c : MapCounts BumpAllocator := ⟨s₁, ∅ ∪ storedPages small s₁ 2 0x400000#64 3#64⟩
  have hrun : Machine.Run step (Counts 0 pagesLeft userTop) ⟨small, ∅⟩ c :=
    Machine.Run.init.step _ hcounts (step_map hmap)
  -- what is unmapped is the page that has been mapped
  have hcounts' : Counts 0 pagesLeft userTop c (.unmap 3 2 0x400000#64 0x1000#64) := by
    refine fun _ _ _ => Or.inr fun p hp => ?_
    have hp' : small.pmaps 0x100#64 = some p := by
      rw [← hpmaps, ← hpmap]
      exact hp
    obtain rfl : { rootPhys := 0x4000#64, grants := [⟨0x200#64, 3#8⟩] } = p := Option.some.inj hp'
    have hfirst : ∀ k, (0x400000#64 &&& ~~~0xFFF#64 : Addr).toNat + k * 4096 <
        (0x400000#64 + 0x1000#64 : Addr).toNat → k = 0 := by
      intro k hk
      have hk' : 0x400000 + k * 4096 < 0x401000 := hk
      omega
    refine ⟨fun k hk => ?_, fun k hk _ => ?_, fun k hk _ => Or.inl (Or.inr ?_)⟩
    · rw [hfirst k hk]
      exact (by decide : pml4Index (pos (0x400000#64 &&& ~~~0xFFF#64) pageSize 0) < 256#9)
    · rw [hfirst k hk, pos_zero]
      exact hhuge
    · rw [hfirst k hk, pos_zero]
      have hpage : virtPage (0x400000#64 &&& ~~~0xFFF#64) =
          rangePage 0x400000#64 (mapFlags 3#64) (0 * stepFrames (mapFlags 3#64) + 0) := by
        decide
      exact ⟨hpmap, 0, hlength.symm ▸ Nat.one_pos, samePage_pageAddr_iff.mpr ⟨0, by decide, hpage⟩⟩
  have hstep : c.step (.unmap 3 2 0x400000#64 0x1000#64) =
      some ⟨s₂, {y | y ∈ c.installed ∧ s₂.frameAt y ≠ none}⟩ := by
    rw [step, show c.kernel.sysUnmap 3 2 0x400000#64 0x1000#64 = _ from hunmap]
    rfl
  have hrun' := hrun.step _ hcounts' hstep
  exact ⟨c, _, hrun', hstep, hmaps₁, hmaps₂, counts_exact budget_pagesLeft start_small hrun,
    counts_exact budget_pagesLeft start_small hrun'⟩

/-- Thread 1 maps the same page twice, and its frame has two counts. -/
theorem mapped_twice_counts_two : ∃ c : MapCounts BumpAllocator, Start userTop small ∧
    Machine.Run step (fun _ _ => True) ⟨small, ∅⟩ c ∧ ¬ c.Exact := by
  have hcheck : ((small.sysMap 2 2 0x400000#64 0x200000#64 0x1000#64 3#64).any fun x =>
      (x.2.sysMap 2 2 0x400000#64 0x200000#64 0x1000#64 3#64).any fun y =>
        (written small x.2).length = 1 ∧ (written x.2 y.2).length = 1 ∧
          (x.2.thread 2).pmap = 0x100#64 ∧ 0x200#64 < y.2.frames ∧
          y.2.maps 0x200#64 = 2#16) = true := by
    decide +kernel
  obtain ⟨⟨v, s₁⟩, hfirst, hcheck⟩ := (Option.any_eq_true _ _).mp hcheck
  obtain ⟨⟨v', s₂⟩, hsecond, hcheck⟩ := (Option.any_eq_true _ _).mp hcheck
  obtain ⟨hlength₁, hlength₂, hpmap, hframes, hmaps⟩ := of_decide_eq_true hcheck
  have hrun : Machine.Run step (fun _ _ => True) (⟨small, ∅⟩ : MapCounts BumpAllocator)
      ⟨s₂, ∅ ∪ storedPages small s₁ 2 0x400000#64 3#64 ∪ storedPages s₁ s₂ 2 0x400000#64 3#64⟩ := by
    exact (Machine.Run.init.step _ trivial (step_map hfirst)).step _ trivial (step_map hsecond)
  refine ⟨_, start_small, hrun, fun hexact => ?_⟩
  -- both times it is the same page
  have hstored : ∀ s s' : Kernel BumpAllocator, (written s s').length = 1 →
      (s.thread 2).pmap = 0x100#64 → ∀ x ∈ storedPages s s' 2 0x400000#64 3#64,
        x = (0x100#64, rangePage 0x400000#64 (mapFlags 3#64) 0) := by
    rintro s s' hlength hpmap ⟨m, page⟩ ⟨hm, k, hk, hsame⟩
    obtain ⟨j, hj, hpage⟩ := samePage_pageAddr_iff.mp hsame
    rw [hlength] at hk
    have hone : stepFrames (mapFlags 3#64) = 1 := by decide
    rw [hone] at hj hpage
    obtain rfl : k = 0 := by omega
    obtain rfl : j = 0 := by omega
    exact Prod.ext (hm.trans hpmap) hpage
  have hone : ∀ y ∈ ∅ ∪ storedPages small s₁ 2 0x400000#64 3#64 ∪
      storedPages s₁ s₂ 2 0x400000#64 3#64,
      y = (0x100#64, rangePage 0x400000#64 (mapFlags 3#64) 0) := by
    rintro y ((hy | hy) | hy)
    · exact absurd hy (Set.notMem_empty y)
    · exact hstored _ _ hlength₁ rfl y hy
    · exact hstored _ _ hlength₂ hpmap y hy
  have hcount := hexact 0x200#64 hframes
  rw [hmaps] at hcount
  exact absurd (hcount.trans_le (Tally.count_le_one hone)) (by decide)

end MapCounts

end Koharu
