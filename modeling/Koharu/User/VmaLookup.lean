import Koharu.User.VmaSets

/-!
# Which ranges are free, and which record holds an address

`vma_insert` looks at the two neighbours of a new interval only, and `vma_find` at the record that
starts next and at the one before it. In a set that is in order and has no empty interval this
decides about all records.

* `vmaInsert_exact`: an interval is accepted iff it is disjoint from all others and a record is
  free; what the set gains is `Gains`;
* `vmaFind_exact_iff`: `vma_find` finds the record that holds an address, in every set but the empty
  one. There `v` is `NULL` when `RB_PREV` is applied to it.
-/

namespace Koharu

namespace VmaState

variable {S : Type*} {s : VmaState S} {i : S}

/-- No interval of the set is empty. -/
def NonemptyIn (s : VmaState S) (i : S) : Prop :=
  ∀ v ∈ (s.sets i).tree, (s.vmaPool v).start < (s.vmaPool v).endAddr

instance (s : VmaState S) (i : S) : Decidable (s.NonemptyIn i) :=
  inferInstanceAs (Decidable (∀ v ∈ (s.sets i).tree, _))

/-! ### The neighbours

In a set of intervals that are apart, only the neighbours of an address can hold it. -/

/-- A record of the set starts below an address, or from it on. -/
theorem mem_below_or_above {v : VmaId} (hv : v ∈ (s.sets i).tree) (a : BitVec 64) :
    v ∈ s.below i a ∨ v ∈ s.above i a := by
  rw [← s.below_append_above i a] at hv
  exact List.mem_append.mp hv

theorem mem_tree_of_mem_below {v : VmaId} {a : BitVec 64} (hv : v ∈ s.below i a) :
    v ∈ (s.sets i).tree := by
  rw [← s.below_append_above i a]
  exact List.mem_append_left _ hv

theorem mem_tree_of_mem_above {v : VmaId} {a : BitVec 64} (hv : v ∈ s.above i a) :
    v ∈ (s.sets i).tree := by
  rw [← s.below_append_above i a]
  exact List.mem_append_right _ hv

/-- What ends before a record starts ends before all later ones start. -/
theorem Rep.endAddr_le_of_above (h : s.Rep) {a : BitVec 64} {v w : VmaId} (hv : v ∈ s.below i a)
    (hw : w ∈ s.above i a) : (s.vmaPool v).endAddr ≤ (s.vmaPool w).start := by
  have hends := h.end_le i
  rw [← s.below_append_above i a] at hends
  exact (List.pairwise_append.mp hends).2.2 v hv w hw

/-- No record starts where an interval fits. -/
theorem Rep.start_ne_of_fits (h : s.Rep) {start endAddr : BitVec 64} (hlt : start < endAddr)
    (hfits : s.Fits i start endAddr) : ∀ v ∈ (s.sets i).tree, (s.vmaPool v).start ≠ start := by
  intro v hv hstart
  rw [BitVec.lt_def] at hlt
  rcases mem_below_or_above hv start with hbelow | habove
  · have := BitVec.lt_def.mp (lt_of_mem_below hbelow)
    rw [hstart] at this
    omega
  · have := BitVec.le_def.mp (h.ordered.le_start_of_above hfits habove)
    rw [hstart] at this
    omega

/-- The neighbours decide: an interval fits iff it is disjoint from all of the set. -/
theorem Rep.fits_iff_disjoint (h : s.Rep) (hne : s.NonemptyIn i) {start endAddr : BitVec 64}
    (hlt : start < endAddr) : s.Fits i start endAddr ↔
      ∀ v ∈ (s.sets i).tree, Disjoint (s.interval v) {a | start ≤ a ∧ a < endAddr} := by
  constructor
  · intro hfits v hv
    rw [Set.disjoint_left]
    rintro a ⟨hge, hvlt⟩ ⟨hstart, hend⟩
    rw [BitVec.le_def] at hge hstart
    rw [BitVec.lt_def] at hvlt hend
    rcases mem_below_or_above hv start with hbelow | habove
    · have hle := BitVec.le_def.mp (h.ordered.endAddr_le_of_below hfits hbelow)
      omega
    · have hle := BitVec.le_def.mp (h.ordered.le_start_of_above hfits habove)
      omega
  · intro hdisjoint
    constructor
    · intro p hp
      have hp := List.mem_of_getLast? hp
      -- otherwise the neighbour holds `start`
      by_contra hover
      rw [BitVec.not_le] at hover
      refine Set.disjoint_left.mp (hdisjoint p (mem_tree_of_mem_below hp)) ⟨?_, hover⟩
        ⟨BitVec.le_refl start, hlt⟩
      exact BitVec.le_of_lt (lt_of_mem_below hp)
    · intro n hn
      have hn := List.mem_of_head? hn
      -- otherwise the interval holds the start of the neighbour
      by_contra hover
      rw [BitVec.not_le] at hover
      refine Set.disjoint_left.mp (hdisjoint n (mem_tree_of_mem_above hn)) ⟨BitVec.le_refl _, ?_⟩
        ⟨h.ordered.le_of_mem_above hn, hover⟩
      exact hne n (mem_tree_of_mem_above hn)

/-! ### `vma_insert`

It tests the two neighbours, which is enough. -/

section Insert

variable [DecidableEq S]

/-- The set gains an interval, with the record `v`. -/
structure Gains (s s' : VmaState S) (i : S) (start endAddr prot kind : BitVec 64) (v : VmaId) :
    Prop where
  /-- The record was the first of the free ones. -/
  free : s.vmaFree = some v ∧ s'.vmaFree = (s.vmaPool v).next
  contents : (s'.vmaPool v).start = start ∧ (s'.vmaPool v).endAddr = endAddr ∧
    (s'.vmaPool v).prot = prot ∧ (s'.vmaPool v).kind = kind
  /-- Its position is the one of its start, and the other records keep theirs. -/
  tree : ∃ l₁ l₂, (s.sets i).tree = l₁ ++ l₂ ∧ (s'.sets i).tree = l₁ ++ v :: l₂ ∧
    (∀ w ∈ l₁, (s.vmaPool w).start < start) ∧ ∀ w ∈ l₂, start < (s.vmaPool w).start
  /-- The list has the records of the tree, in both directions. -/
  list : Chain.Segment (fun v => (s'.vmaPool v).next) (s'.sets i).first (s'.sets i).tree none ∧
    Chain.Segment (fun v => (s'.vmaPool v).prev) (s'.sets i).last (s'.sets i).tree.reverse none
  others : ∀ w, w ≠ v → (s'.vmaPool w).start = (s.vmaPool w).start ∧
    (s'.vmaPool w).endAddr = (s.vmaPool w).endAddr ∧ (s'.vmaPool w).prot = (s.vmaPool w).prot ∧
    (s'.vmaPool w).kind = (s.vmaPool w).kind
  sets : ∀ j, j ≠ i → s'.sets j = s.sets j
  rep : s'.Rep

/-- What `vma_insert` does with a free range at which no record starts. -/
theorem Rep.gains_of_eq (h : s.Rep) {start endAddr prot kind : BitVec 64} {v : VmaId}
    (hnew : ∀ w ∈ (s.sets i).tree, (s.vmaPool w).start ≠ start) (hfree : s.vmaFree = some v)
    (heq : s.vmaInsert i start endAddr prot kind =
      (true, s.inserted i v (s.newVma i start endAddr prot kind) (s.newTree i v start))) :
    s.Gains (s.vmaInsert i start endAddr prot kind).2 i start endAddr prot kind v := by
  have hrep : (s.vmaInsert i start endAddr prot kind).2.Rep := h.insert prot kind fun _ _ => hnew
  -- no interval has this start, so the new one comes between those below and those above
  have htree : s.newTree i v start = s.below i start ++ v :: s.above i start := by
    rw [newTree, if_neg]
    rintro ⟨w, hw, hstart⟩
    exact hnew w hw hstart
  rw [heq] at hrep ⊢
  refine ⟨⟨hfree, rfl⟩, ?_, ⟨s.below i start, s.above i start, ?_, ?_, ?_, ?_⟩,
    ⟨hrep.forward i, hrep.backward i⟩, fun w hw => ?_, fun j hj => inserted_sets_of_ne hj, hrep⟩
  · rw [inserted_self]
    exact ⟨rfl, rfl, rfl, rfl⟩
  · exact (s.below_append_above i start).symm
  · rw [inserted_sets_self, htree]
  · exact fun w hw => lt_of_mem_below hw
  · intro w hw
    have hge := h.ordered.le_of_mem_above hw
    have hne := hnew w (mem_tree_of_mem_above hw)
    rw [Ne, ← BitVec.toNat_inj] at hne
    rw [BitVec.le_def] at hge
    rw [BitVec.lt_def]
    omega
  · rw [inserted_of_ne hw]
    exact ⟨rfl, rfl, rfl, rfl⟩

/-- `vma_insert` accepts exactly the free ranges, and changes nothing when it fails. -/
theorem vmaInsert_exact (h : s.Rep) (hne : s.NonemptyIn i) {start endAddr : BitVec 64}
    (hlt : start < endAddr) (prot kind : BitVec 64) :
    ((s.vmaInsert i start endAddr prot kind).1 = true ↔
        (∀ v ∈ (s.sets i).tree, Disjoint (s.interval v) {a | start ≤ a ∧ a < endAddr}) ∧
          s.vmaFree ≠ none) ∧
      ((s.vmaInsert i start endAddr prot kind).1 = true →
        ∃ v, s.Gains (s.vmaInsert i start endAddr prot kind).2 i start endAddr prot kind v) ∧
      ((s.vmaInsert i start endAddr prot kind).1 = false →
        (s.vmaInsert i start endAddr prot kind).2 = s) := by
  rw [← h.fits_iff_disjoint hne hlt]
  -- a refusal leaves the state alone; an insertion had room and a free record
  rcases h.ordered.vmaInsert i start endAddr prot kind with ⟨heq, hnot⟩ | ⟨v, hfree, hfits, heq⟩
  · rw [heq]
    refine ⟨⟨fun hok => absurd hok Bool.false_ne_true, fun hok => ?_⟩,
      fun hok => absurd hok Bool.false_ne_true, fun _ => rfl⟩
    exact absurd hok.1 (hnot hok.2)
  · have hgains := h.gains_of_eq (h.start_ne_of_fits hlt hfits) hfree heq
    refine ⟨⟨fun _ => ⟨hfits, by simp [hfree]⟩, fun _ => by rw [heq]⟩, fun _ => ⟨v, hgains⟩,
      fun hfail => ?_⟩
    rw [heq] at hfail
    exact absurd hfail.symm Bool.false_ne_true

/-- A range that is clear of all records is accepted, also an empty one. -/
theorem Rep.gains_of_clear (h : s.Rep) {start endAddr : BitVec 64} (prot kind : BitVec 64)
    (hfree : s.vmaFree ≠ none)
    (hclear : ∀ v ∈ (s.sets i).tree,
      (s.vmaPool v).start < start ∧ (s.vmaPool v).endAddr ≤ start ∨
        start < (s.vmaPool v).start ∧ endAddr ≤ (s.vmaPool v).start) :
    (s.vmaInsert i start endAddr prot kind).1 = true ∧
      ∃ v, s.Gains (s.vmaInsert i start endAddr prot kind).2 i start endAddr prot kind v := by
  -- its two neighbours are all that is compared
  have hfits : s.Fits i start endAddr := by
    constructor
    · intro p hp
      have hp := List.mem_of_getLast? hp
      rcases hclear p (mem_tree_of_mem_below hp) with hbelow | habove
      · exact hbelow.2
      · exact absurd (BitVec.le_of_lt habove.1) (BitVec.not_le.mpr (lt_of_mem_below hp))
    · intro n hn
      have hn := List.mem_of_head? hn
      rcases hclear n (mem_tree_of_mem_above hn) with hbelow | habove
      · exact absurd hbelow.1 (BitVec.not_lt.mpr (h.ordered.le_of_mem_above hn))
      · exact habove.2
  have hnew : ∀ v ∈ (s.sets i).tree, (s.vmaPool v).start ≠ start := by
    intro v hv hstart
    rcases hclear v hv with hbelow | habove
    · exact BitVec.lt_irrefl _ (hstart ▸ hbelow.1)
    · exact BitVec.lt_irrefl _ (hstart ▸ habove.1)
  rcases h.ordered.vmaInsert i start endAddr prot kind with ⟨-, hnot⟩ | ⟨v, hv, -, heq⟩
  · exact absurd hfits (hnot hfree)
  · exact ⟨by rw [heq], v, h.gains_of_eq hnew hv heq⟩

/-- A second interval next to one that is there. -/
theorem vmaInsert_exact_oneSet : ∃ s : VmaState Unit, (s.sets ()).tree ≠ [] ∧
    ∃ v, s.Gains (s.vmaInsert () 0x2000#64 0x3000#64 3#64 4#64).2 () 0x2000#64 0x3000#64 3#64
      4#64 v := by
  obtain ⟨s, hrun, hcheck⟩ := Machine.exists_run_of_execAll step CallOk
    (zero.vmaSetInit () : VmaState Unit) [.insert () 0x1000#64 0x2000#64 3#64 4#64]
    (fun s => decide ((s.sets ()).tree ≠ [] ∧ s.NonemptyIn () ∧
      (s.vmaInsert () 0x2000#64 0x3000#64 3#64 4#64).1 = true)) (by decide +kernel)
  obtain ⟨htree, hne, hok⟩ := of_decide_eq_true hcheck
  have hlt : 0x2000#64 < 0x3000#64 := by decide
  exact ⟨s, htree, (vmaInsert_exact (rep_of_calls hrun) hne hlt 3#64 4#64).2.1 hok⟩

end Insert

/-! ### `vma_find`

It looks at the last record that starts at the address or below. -/

/-- The record that holds an address starts there, or is the last one that starts below. -/
theorem Rep.holds_cases (h : s.Rep) {a : BitVec 64} {v : VmaId} (hv : v ∈ (s.sets i).tree)
    (ha : a ∈ s.interval v) :
    (s.above i a).head? = some v ∧ (s.vmaPool v).start = a ∨
      (s.below i a).getLast? = some v ∧ ∀ w ∈ s.above i a, a < (s.vmaPool w).start := by
  obtain ⟨hge, hlt⟩ := ha
  rw [BitVec.le_def] at hge
  rw [BitVec.lt_def] at hlt
  rcases mem_below_or_above hv a with hbelow | habove
  · refine Or.inr ⟨?_, fun w hw => ?_⟩
    · -- a record between them would start before `v` ends
      have hends := h.end_le i
      rw [← s.below_append_above i a, List.pairwise_append] at hends
      obtain ⟨l, p, hl⟩ := (List.eq_nil_or_concat' (s.below i a)).resolve_left
        (List.ne_nil_of_mem hbelow)
      rw [hl, List.getLast?_concat]
      rw [hl] at hbelow hends
      rcases List.mem_append.mp hbelow with hmem | hmem
      · have hle := BitVec.le_def.mp ((List.pairwise_append.mp hends.1).2.2 v hmem p (by simp))
        have hmem' : p ∈ s.below i a := by simp [hl]
        have hp := BitVec.lt_def.mp (lt_of_mem_below hmem')
        omega
      · rw [List.mem_singleton.mp hmem]
    · have hle := BitVec.le_def.mp (h.endAddr_le_of_above hbelow hw)
      rw [BitVec.lt_def]
      omega
  · have hstart : (s.vmaPool v).start = a := by
      have := BitVec.le_def.mp (h.ordered.le_of_mem_above habove)
      exact BitVec.eq_of_toNat_eq (by omega)
    refine Or.inl ⟨?_, hstart⟩
    have hsorted := h.start_lt i
    rw [← s.below_append_above i a, List.pairwise_append] at hsorted
    obtain ⟨n, l, hl⟩ := List.exists_cons_of_ne_nil (List.ne_nil_of_mem habove)
    rw [hl]
    rw [hl] at habove hsorted
    rcases List.mem_cons.mp habove with rfl | hmem
    · rfl
    · have hmem' : n ∈ s.above i a := by simp [hl]
      have hn := BitVec.le_def.mp (h.ordered.le_of_mem_above hmem')
      have hlt := BitVec.lt_def.mp ((List.pairwise_cons.mp hsorted.2.1).1 v hmem)
      rw [hstart] at hlt
      omega

/-- At most one record holds an address. -/
theorem Rep.holds_unique (h : s.Rep) {a : BitVec 64} {v w : VmaId} (hv : v ∈ (s.sets i).tree)
    (hw : w ∈ (s.sets i).tree) (hav : a ∈ s.interval v) (haw : a ∈ s.interval w) : v = w := by
  rcases h.holds_cases hv hav with ⟨hv', hstart⟩ | ⟨hv', hlater⟩ <;>
    rcases h.holds_cases hw haw with ⟨hw', hstart'⟩ | ⟨hw', hlater'⟩
  · exact Option.some.inj (hv'.symm.trans hw')
  · have := BitVec.lt_def.mp (hlater' v (List.mem_of_head? hv'))
    rw [hstart] at this
    omega
  · have := BitVec.lt_def.mp (hlater w (List.mem_of_head? hw'))
    rw [hstart'] at this
    omega
  · exact Option.some.inj (hv'.symm.trans hw')

theorem mem_of_rbPrev {tree : List VmaId} {v p : VmaId} (hp : rbPrev tree v = some p) : p ∈ tree :=
  (List.takeWhile_sublist _).mem (List.mem_of_getLast? hp)

/-- The record that `vma_find` looks at first, when there is one. -/
theorem Rep.vmaFind_eq (h : s.Rep) {a : BitVec 64} {v : VmaId}
    (hv : ((s.above i a).head?.or (rbMax (s.sets i).tree)) = some v) :
    ∃ r, s.vmaFind i a = some r ∧ ∀ w, r = some w ↔ w ∈ (s.sets i).tree ∧ a ∈ s.interval w := by
  have hmem : v ∈ (s.sets i).tree := by
    rcases Option.or_eq_some_iff.mp hv with hhead | ⟨-, hlast⟩
    · exact mem_tree_of_mem_above (List.mem_of_head? hhead)
    · exact List.mem_of_getLast? hlast
  rw [vmaFind, rbNfind_eq]
  dsimp only
  rw [hv]
  dsimp only
  split
  next hholds =>
    refine ⟨some v, rfl, fun w => ⟨fun hw => ?_, fun hw => ?_⟩⟩
    · rw [← Option.some.inj hw]
      exact ⟨hmem, hholds⟩
    · rw [h.holds_unique hmem hw.1 hholds hw.2]
  next hnot =>
    refine ⟨_, rfl, fun w => ⟨fun hw => ?_, fun hw => ?_⟩⟩
    · obtain ⟨hprev, hholds⟩ := Option.filter_eq_some_iff.mp hw
      rw [decide_eq_true_eq] at hholds
      exact ⟨mem_of_rbPrev hprev, hholds⟩
    · -- only the record before `v` can hold the address
      have hother : v ≠ w := by
        rintro rfl
        exact hnot hw.2
      rw [Option.filter_eq_some_iff, decide_eq_true_eq]
      refine ⟨?_, hw.2⟩
      rcases h.holds_cases hw.1 hw.2 with ⟨hhead, -⟩ | ⟨hlast, -⟩
      · rw [hhead, Option.some_or] at hv
        exact absurd (Option.some.inj hv).symm hother
      · rcases Option.or_eq_some_iff.mp hv with hhead | ⟨hnone, hmax⟩
        · rw [h.ordered.rbPrev_eq hhead, hlast]
        · -- nothing is above, and `v` is the last record
          have hnil := List.head?_eq_none_iff.mp hnone
          have htree := s.below_append_above i a
          rw [hnil, List.append_nil] at htree
          rw [rbMax, ← htree, hlast] at hmax
          exact absurd (Option.some.inj hmax).symm hother

/-- `vma_find` is exact in every set but the empty one, where it does not get to a result. -/
theorem vmaFind_exact_iff (h : s.Rep) (addr : BitVec 64) :
    (∃ r, s.vmaFind i addr = some r ∧
      ∀ v, r = some v ↔ v ∈ (s.sets i).tree ∧ addr ∈ s.interval v) ↔ (s.sets i).tree ≠ [] := by
  constructor
  · rintro ⟨r, hr, -⟩ hempty
    rw [vmaFind, rbNfind, rbMax, hempty] at hr
    cases hr
  · intro hne
    obtain ⟨v, hv⟩ := Option.ne_none_iff_exists'.mp
      (mt List.getLast?_eq_none_iff.mp hne)
    cases hhead : (s.above i addr).head? with
    | none => exact h.vmaFind_eq (by rw [hhead, Option.none_or, rbMax, hv])
    | some n => exact h.vmaFind_eq (by rw [hhead, Option.some_or])

/-- A set with one interval, and addresses inside and outside. -/
theorem vmaFind_exact_iff_oneSet : ∃ s : VmaState Unit, (s.sets ()).tree ≠ [] ∧
    ∃ r, s.vmaFind () 0x1fff#64 = some r ∧
      ∀ v, r = some v ↔ v ∈ (s.sets ()).tree ∧ 0x1fff#64 ∈ s.interval v := by
  obtain ⟨s, hrun, hcheck⟩ := Machine.exists_run_of_execAll step CallOk
    (zero.vmaSetInit () : VmaState Unit) [.insert () 0x1000#64 0x2000#64 3#64 4#64]
    (fun s => decide ((s.sets ()).tree ≠ [])) (by decide +kernel)
  have hne := of_decide_eq_true hcheck
  exact ⟨s, hne, (vmaFind_exact_iff (rep_of_calls hrun) 0x1fff#64).mpr hne⟩

/-- A set that was just set up: `RB_PREV` is applied to `NULL`, and `vma_find` has no result. -/
theorem vmaFind_of_empty : (zero.vmaSetInit () : VmaState Unit).Rep ∧
    ¬ ∃ r, (zero.vmaSetInit () : VmaState Unit).vmaFind () 0x1000#64 = some r := by
  refine ⟨rep_zero (), ?_⟩
  rintro ⟨r, hr⟩
  have hfault : (zero.vmaSetInit () : VmaState Unit).vmaFind () 0x1000#64 = none := by
    decide +kernel
  cases hfault.symm.trans hr

end VmaState

end Koharu
