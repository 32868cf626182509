import Koharu.User.VmaTree
import Mathlib.Data.Fintype.Card

/-!
# Runs of the memory areas in their trees

`vma.c` on the trees of `tree.h` refines `vma.c` on lists. One lemma for each operation of the tree
says that it finds or leaves what the list operation does, and the rest of each function is the same
on both sides.
-/

namespace Koharu

open VmaState (vmaCmp vmaCmp_lt vmaCmp_le vmaCmp_eq vmaPoolAt)

/-- Whether memory holds a tree depends on the root pointer and the nodes of the tree only. -/
theorem RbTree.Holds.congr {α : Type*} {s s' : RbTree α} {l : List α} (h : s.Holds l)
    (hroot : s'.rbhRoot = s.rbhRoot) (hentry : ∀ a ∈ l, s'.entry a = s.entry a) : s'.Holds l := by
  obtain ⟨t, hat, hbal, rfl⟩ := h
  refine ⟨t, ⟨?_, hat.lays.congr hentry, hat.nodup, fun _ ha => ha, fun _ _ => rfl⟩, hbal, rfl⟩
  exact hroot.trans hat.frames

namespace VmaMem

variable {S : Type*} {m m' : VmaMem S} {s s' : VmaState S} {i j : S} {T : S → List VmaId}
  {v : VmaId} {p q : Option VmaId} {l : List VmaId} {t : RbTree VmaId} {fuel : ℕ} {key r : Vma}

/-- The state with the lists `T` for the trees. -/
def abs (m : VmaMem S) (T : S → List VmaId) : VmaState S where
  vmaPool := m.vmaPool
  vmaFree := m.vmaFree
  sets i := ⟨T i, (m.sets i).first, (m.sets i).last⟩

/-- The trees hold the lists of `s`, and all else is the same. -/
structure Rep (m : VmaMem S) (s : VmaState S) : Prop where
  abs_eq : m.abs (fun i => (s.sets i).tree) = s
  holds : ∀ i, (m.tree i).Holds (s.sets i).tree
  rep : s.Rep

/-- The records are the same in both models. -/
theorem Rep.vmaPool_eq (h : m.Rep s) : m.vmaPool = s.vmaPool := congrArg VmaState.vmaPool h.abs_eq

/-- The list of free records is, too. -/
theorem Rep.vmaFree_eq (h : m.Rep s) : m.vmaFree = s.vmaFree := congrArg VmaState.vmaFree h.abs_eq

/-! ### Searches

The searches of `tree.h` find what the model with lists finds. -/

/-- The comparison of `vma_cmp` agrees with the order of a sorted set. -/
theorem vmaCmp_pairwise (hsorted : l.Pairwise fun v w => (s.vmaPool v).start < (s.vmaPool w).start)
    (key : Vma) :
    l.Pairwise fun v w => vmaCmp key (s.vmaPool v) ≤ 0 → vmaCmp key (s.vmaPool w) < 0 := by
  refine hsorted.imp fun hlt hle => ?_
  rw [vmaCmp_le, BitVec.lt_def] at hle
  rw [BitVec.lt_def] at hlt
  rw [vmaCmp_lt, BitVec.lt_def]
  omega

/-- The fuel is enough for every tree over the pool. -/
theorem Rep.bound (h : m.Rep s) (hfuel : vmaFuel ≤ fuel) (i : S) :
    rbBound (s.sets i).tree.length ≤ fuel := by
  refine (rbBound_mono ?_).trans hfuel
  have := List.Nodup.length_le_card (h.holds i).nodup
  rwa [Fintype.card_fin] at this

/-- `RB_NFIND` on the tree finds what the search of the sorted set does. -/
theorem Rep.rbNfind (h : m.Rep s) (hfuel : vmaFuel ≤ fuel) (i : S) (key : Vma) :
    (m.tree i).rbNfind (fun k w => vmaCmp k (m.vmaPool w)) fuel key =
      some (s.rbNfind (s.sets i).tree key) := by
  rw [h.vmaPool_eq]
  exact (h.holds i).rbNfind (h.bound hfuel i) (vmaCmp_pairwise (h.rep.start_lt i) key)

/-- `RB_MAX` is the last record of the set. -/
theorem Rep.rbMinmax (h : m.Rep s) (hfuel : vmaFuel ≤ fuel) (i : S) :
    (m.tree i).rbMinmax fuel 1 = some (VmaState.rbMax (s.sets i).tree) := by
  rw [(h.holds i).rbMinmax (h.bound hfuel i)]
  rfl

/-- `RB_PREV` is the record before. -/
theorem Rep.rbPrev (h : m.Rep s) (hfuel : vmaFuel ≤ fuel) (hv : v ∈ (s.sets i).tree) :
    (m.tree i).rbPrev fuel v = some (VmaState.rbPrev (s.sets i).tree v) := by
  obtain ⟨l₁, l₂, hl⟩ := List.append_of_mem hv
  have hholds := h.holds i
  have hbound := h.bound hfuel i
  have hnodup := h.rep.ordered.nodup i
  rw [hl] at hholds hbound hnodup
  rw [(hholds.rbStep hbound).2, VmaState.rbPrev, hl, List.takeWhile_append_of_pos]
  · simp
  · intro w hw
    rw [bne_iff_ne]
    exact fun hwv => (List.nodup_append.mp hnodup).2.2 w hw v List.mem_cons_self hwv

/-- The place for a new record is found alike. -/
theorem Rep.vmaPlace (h : m.Rep s) (hfuel : vmaFuel ≤ fuel) (i : S) (key : Vma) :
    m.vmaPlace fuel i key = some (VmaState.vmaPrev (s.sets i).tree (s.rbNfind (s.sets i).tree key),
      s.rbNfind (s.sets i).tree key) := by
  rw [VmaMem.vmaPlace, h.rbNfind hfuel, Option.bind_eq_bind, Option.bind_some]
  cases hn : s.rbNfind (s.sets i).tree key with
  | none =>
      simp only [h.rbMinmax hfuel]
      rfl
  | some n =>
      simp only [h.rbPrev hfuel (List.mem_of_find?_eq_some hn)]
      rfl

/-- `vma_find` gives the same record. -/
theorem Rep.vmaFind (h : m.Rep s) (hfuel : vmaFuel ≤ fuel) (i : S) (addr : BitVec 64) :
    m.vmaFind fuel i addr = s.vmaFind i addr := by
  rw [VmaMem.vmaFind, VmaState.vmaFind, h.rbNfind hfuel, h.rbMinmax hfuel, h.vmaPool_eq]
  simp only [Option.bind_eq_bind, Option.bind_some]
  generalize hkey : (⟨addr, addr, 0, 0, none, none⟩ : Vma) = key
  have hprev : ∀ {w : VmaId}, w ∈ (s.sets i).tree →
      (m.tree i).rbPrev fuel w = some (VmaState.rbPrev (s.sets i).tree w) := fun hw =>
    h.rbPrev hfuel hw
  have hlast : ∀ {w : VmaId}, VmaState.rbMax (s.sets i).tree = some w → w ∈ (s.sets i).tree :=
    fun hw => List.mem_of_getLast? hw
  have hfind : ∀ {w : VmaId}, s.rbNfind (s.sets i).tree key = some w → w ∈ (s.sets i).tree :=
    fun hw => List.mem_of_find?_eq_some hw
  -- the record found at or above the address, or else the last one of all
  cases hn : s.rbNfind (s.sets i).tree key with
  | none =>
      cases hm : VmaState.rbMax (s.sets i).tree with
      | none => rfl
      | some w =>
          simp only [Option.isNone_none, if_true, Option.bind_some, hprev (hlast hm),
            Option.none_or, Option.any_some, decide_eq_true_eq]
  | some w =>
      simp only [Option.isNone_some, Bool.false_eq_true, if_false, Option.bind_some,
        hprev (hfind hn), Option.some_or, Option.any_some, decide_eq_true_eq]

/-! ### Stores

Stores that do not touch the tree are the same in both models. -/

variable [DecidableEq S]

/-- A change of the head pointers is one of the set that they stand for. -/
theorem abs_setSet (f : VmaHead → VmaHead) (g : VmaSet → VmaSet)
    (hfg : ∀ h : VmaHead, (⟨T i, (f h).first, (f h).last⟩ : VmaSet) = g ⟨T i, h.first, h.last⟩) :
    (m.setSet i f).abs T = (m.abs T).setSet i g := by
  refine VmaState.ext rfl rfl (funext fun j => ?_)
  by_cases hj : j = i
  · subst hj
    simp only [abs, setSet, VmaState.setSet, Function.update_self]
    exact hfg _
  · simp only [abs, setSet, VmaState.setSet, Function.update_of_ne hj]

/-- Storing a `next` pointer does the same in both models. -/
theorem abs_linkNext : (m.linkNext i p q).abs T = (m.abs T).linkNext i p q := by
  cases p with
  | none =>
      exact abs_setSet (fun h => { h with first := q }) (fun h => { h with first := q })
        fun _ => rfl
  | some p => rfl

/-- Storing a `prev` pointer does, too. -/
theorem abs_linkPrev : (m.linkPrev i p q).abs T = (m.abs T).linkPrev i p q := by
  cases p with
  | none =>
      exact abs_setSet (fun h => { h with last := q }) (fun h => { h with last := q }) fun _ => rfl
  | some p => rfl

/-- Changing the list pointers of a set leaves its tree. -/
theorem tree_setSet (f : VmaHead → VmaHead) (hf : (f (m.sets i)).root = (m.sets i).root) :
    (m.setSet i f).tree j = m.tree j := by
  by_cases hj : j = i
  · subst hj
    rw [tree, setSet]
    simp only [Function.update_self, hf]
    rfl
  · rw [tree, setSet]
    simp only [Function.update_of_ne hj]
    rfl

/-- So does storing a `next` pointer. -/
theorem tree_linkNext : (m.linkNext i p q).tree j = m.tree j := by
  cases p with
  | none => exact tree_setSet (fun h => { h with first := q }) rfl
  | some p => rfl

/-- So does storing a `prev` pointer. -/
theorem tree_linkPrev : (m.linkPrev i p q).tree j = m.tree j := by
  cases p with
  | none => exact tree_setSet (fun h => { h with last := q }) rfl
  | some p => rfl

/-- The tree of a set is replaced, and its list with it. -/
theorem abs_setTree : (m.setTree i t).abs (Function.update T i l) =
    (m.abs T).setSet i fun h => { h with tree := l } := by
  refine VmaState.ext rfl rfl (funext fun j => ?_)
  by_cases hj : j = i
  · subst hj
    simp only [abs, setTree, setSet, VmaState.setSet, Function.update_self]
  · simp only [abs, setTree, setSet, VmaState.setSet, Function.update_of_ne hj]

/-- The tree of the set is the one that was stored. -/
theorem tree_setTree_self : (m.setTree i t).tree i = t := by
  simp [tree, setTree, setSet]

/-- The other trees stay where they are. -/
theorem holds_setTree_of_ne (hj : j ≠ i) (h : (m.tree j).Holds l)
    (hentry : ∀ w ∈ l, t.entry w = m.rb w) : ((m.setTree i t).tree j).Holds l := by
  refine h.congr ?_ hentry
  simp [tree, setTree, setSet, Function.update_of_ne hj]

/-! ### The functions

Each function answers as on lists, and leaves what stands for the lists it leaves there. -/

/-- A tree and its list are replaced together. -/
theorem Rep.setTree {s₂ : VmaState S} {m₂ : VmaMem S} (h : m.Rep s)
    (habs : m₂.abs (fun j => (s.sets j).tree) = s₂) (htree : ∀ j, m₂.tree j = m.tree j)
    (hholds : t.Holds l) (hkept : ∀ j, j ≠ i → ∀ w ∈ (s.sets j).tree, t.entry w = m.rb w) :
    (m₂.setTree i t).abs (fun j => ((s₂.setSet i fun h => { h with tree := l }).sets j).tree) =
        s₂.setSet i (fun h => { h with tree := l }) ∧
      ∀ j, ((m₂.setTree i t).tree j).Holds
        ((s₂.setSet i fun h => { h with tree := l }).sets j).tree := by
  subst habs
  -- only the tree of set `i` is replaced
  have htrees : (fun j => (((m₂.abs fun j => (s.sets j).tree).setSet i
      fun h => { h with tree := l }).sets j).tree) =
      Function.update (fun j => (s.sets j).tree) i l := by
    funext j
    by_cases hj : j = i
    · subst hj
      simp [VmaState.setSet]
    · simp [VmaState.setSet, Function.update_of_ne hj, abs]
  refine ⟨by rw [htrees, abs_setTree], fun j => ?_⟩
  have hset : (((m₂.abs fun j => (s.sets j).tree).setSet i fun h =>
      { h with tree := l }).sets j).tree =
      Function.update (fun j => (s.sets j).tree) i l j := congrFun htrees j
  rw [hset]
  by_cases hj : j = i
  · subst hj
    rwa [tree_setTree_self, Function.update_self]
  · rw [Function.update_of_ne hj]
    refine holds_setTree_of_ne hj (htree j ▸ h.holds j) fun w hw => (hkept j hj w hw).trans ?_
    exact (congrFun (congrArg RbTree.entry (htree j)) w).symm

/-- `vma_insert`, behind the checks. -/
theorem Rep.vmaLink (h : m.Rep s) (hfuel : vmaFuel ≤ fuel) (hfree : s.vmaFree = some v) (i : S)
    (r : Vma) :
    let s₃ := ({ s with vmaFree := (s.vmaPool v).next } : VmaState S).vmaLink i v r
    ∃ m', ({ m with vmaFree := (m.vmaPool v).next } : VmaMem S).vmaLink fuel i v r = some m' ∧
      m'.abs (fun j => (s₃.sets j).tree) = s₃ ∧ ∀ j, (m'.tree j).Holds (s₃.sets j).tree := by
  intro s₃
  have hnot := h.rep.ordered.notMem_tree hfree
  -- the state before the call of the tree
  let m₁ : VmaMem S := { m with vmaFree := (m.vmaPool v).next }
  let s₁ : VmaState S := { s with vmaFree := (s.vmaPool v).next }
  let m₂ := ((m₁.setVma v fun _ => r).linkNext i r.prev (some v)).linkPrev i r.next (some v)
  let s₂ := ((s₁.setVma v fun _ => r).linkNext i r.prev (some v)).linkPrev i r.next (some v)
  have habs : m₂.abs (fun j => (s.sets j).tree) = s₂ := by
    have hs₁ : s₁ = m₁.abs fun j => (s.sets j).tree := by
      refine VmaState.ext h.vmaPool_eq.symm ?_ ?_
      · exact congrArg (fun pool : VmaId → Vma => (pool v).next) h.vmaPool_eq.symm
      · exact (congrArg VmaState.sets h.abs_eq).symm
    rw [abs_linkPrev, abs_linkNext]
    simp only [s₂, hs₁]
    rfl
  have htree : ∀ j, m₂.tree j = m.tree j := by
    intro j
    rw [tree_linkPrev, tree_linkNext]
    rfl
  have hpool : m₂.vmaPool = s₂.vmaPool := congrArg VmaState.vmaPool habs
  have hstart : ∀ w, w ≠ v → (s₂.vmaPool w).start = (s.vmaPool w).start := by
    intro w hw
    simp only [s₂, VmaState.linkPrev_vmaPool, VmaState.linkNext_vmaPool, VmaState.setVma_vmaPool,
      hw, if_false]
    rfl
  have hsorted : (s.sets i).tree.Pairwise fun a b =>
      vmaCmp (s₂.vmaPool v) (s₂.vmaPool a) ≤ 0 → vmaCmp (s₂.vmaPool v) (s₂.vmaPool b) < 0 := by
    refine vmaCmp_pairwise (s := s₂) ((h.rep.start_lt i).imp_of_mem fun ha hb hlt => ?_) _
    rwa [hstart _ (ne_of_mem_of_not_mem ha (hnot i)), hstart _ (ne_of_mem_of_not_mem hb (hnot i))]
  have hlist : s₃ = s₂.setSet i fun t => { t with tree := s₂.rbInsert (s.sets i).tree v } := by
    have htree₂ : (s₂.sets i).tree = (s.sets i).tree := by rw [← habs, abs]
    rw [← htree₂]
    rfl
  -- what the call leaves is the new list
  have hcall : ∃ q, (m.tree i).rbInsert (fun a b => vmaCmp (s₂.vmaPool a) (s₂.vmaPool b)) fuel v =
      some q ∧ q.2.Holds (s₂.rbInsert (s.sets i).tree v) ∧
        ∀ w, w ∉ (s.sets i).tree → w ≠ v → q.2.entry w = m.rb w := by
    rcases (h.holds i).rbInsert (fun a b => vmaCmp (s₂.vmaPool a) (s₂.vmaPool b))
      (h.bound hfuel i) (hnot i) hsorted with ⟨a, ha, hzero, hins⟩ | ⟨hne, t, hins, hholds, hkept⟩
    · have hany : ((s.sets i).tree.any fun w => vmaCmp (s₂.vmaPool v) (s₂.vmaPool w) = 0) = true :=
        List.any_eq_true.mpr ⟨a, ha, decide_eq_true hzero⟩
      refine ⟨_, hins, ?_, fun _ _ _ => rfl⟩
      rw [VmaState.rbInsert, hany, if_pos rfl]
      exact h.holds i
    · have hany : ((s.sets i).tree.any fun w => vmaCmp (s₂.vmaPool v) (s₂.vmaPool w) = 0) = false :=
        List.any_eq_false.mpr fun w hw h0 => hne w hw (of_decide_eq_true h0)
      have hsides : (fun w => decide (vmaCmp (s₂.vmaPool w) (s₂.vmaPool v) < 0)) =
          fun w => decide (0 < vmaCmp (s₂.vmaPool v) (s₂.vmaPool w)) := by
        funext w
        rw [decide_eq_decide, vmaCmp_lt, ← not_le, vmaCmp_le, not_not]
      refine ⟨_, hins, ?_, hkept⟩
      rw [VmaState.rbInsert, hany, if_neg Bool.false_ne_true, hsides]
      exact hholds
  obtain ⟨q, hq, hholds, hkept⟩ := hcall
  have hset := h.setTree (i := i) habs htree hholds fun j hj w hw =>
    hkept w (fun hw' => hj (h.rep.tree_unique hw hw')) (ne_of_mem_of_not_mem hw (hnot j))
  refine ⟨m₂.setTree i q.2, ?_, ?_⟩
  · change ((m₂.tree i).rbInsert (fun a b => vmaCmp (m₂.vmaPool a) (m₂.vmaPool b)) fuel v).map
      (fun q => m₂.setTree i q.2) = _
    rw [htree, hpool, hq]
    rfl
  · rw [hlist]
    exact hset

/-- `vma_insert` answers as it does on lists, and leaves the lists that it leaves there. -/
theorem Rep.vmaInsert (h : m.Rep s) (hfuel : vmaFuel ≤ fuel) (i : S)
    (start endAddr prot kind : BitVec 64) :
    let q := s.vmaInsert i start endAddr prot kind
    ∃ m', m.vmaInsert fuel i start endAddr prot kind = some (q.1, m') ∧
      m'.abs (fun j => (q.2.sets j).tree) = q.2 ∧ ∀ j, (m'.tree j).Holds (q.2.sets j).tree := by
  intro q
  -- an insertion that is refused changes nothing in memory either
  have hsame : ∀ b : Bool, ∃ m', some (b, m) = some (b, m') ∧
      m'.abs (fun j => (s.sets j).tree) = s ∧ ∀ j, (m'.tree j).Holds (s.sets j).tree :=
    fun b => ⟨m, rfl, h.abs_eq, h.holds⟩
  simp only [q, VmaMem.vmaInsert, h.vmaPlace hfuel, Option.bind_some, VmaState.vmaInsert]
  rw [h.vmaPool_eq]
  split_ifs
  · exact hsame false
  · exact hsame false
  · rw [VmaMem.vmaAlloc, VmaState.vmaAlloc, h.vmaFree_eq]
    cases hfree : s.vmaFree with
    | none => exact hsame false
    | some v =>
        obtain ⟨m', hm', hrest⟩ := h.vmaLink hfuel hfree i ⟨start, endAddr, prot, kind,
          VmaState.vmaPrev (s.sets i).tree
          (s.rbNfind (s.sets i).tree ⟨start, endAddr, 0, 0, none, none⟩),
          s.rbNfind (s.sets i).tree ⟨start, endAddr, 0, 0, none, none⟩⟩
        refine ⟨m', ?_, hrest⟩
        simp only [hm', Option.map_some]

/-- `vma_remove` of a record of the set. -/
theorem Rep.vmaRemove (h : m.Rep s) (hfuel : vmaFuel ≤ fuel) (hv : v ∈ (s.sets i).tree) :
    ∃ m', m.vmaRemove fuel i v = some m' ∧
      m'.abs (fun j => ((s.vmaRemove i v).sets j).tree) = s.vmaRemove i v ∧
        ∀ j, (m'.tree j).Holds ((s.vmaRemove i v).sets j).tree := by
  -- the neighbours in the list are linked to each other, then the tree loses the record
  let m₁ := m.linkNext i (m.vmaPool v).prev (m.vmaPool v).next
  let s₁ := s.linkNext i (s.vmaPool v).prev (s.vmaPool v).next
  let m₂ := m₁.linkPrev i (m₁.vmaPool v).next (m₁.vmaPool v).prev
  let s₂ := s₁.linkPrev i (s₁.vmaPool v).next (s₁.vmaPool v).prev
  have habs₁ : m₁.abs (fun j => (s.sets j).tree) = s₁ := by
    rw [abs_linkNext, h.abs_eq, h.vmaPool_eq]
  have habs : m₂.abs (fun j => (s.sets j).tree) = s₂ := by
    rw [abs_linkPrev, habs₁, show m₁.vmaPool = s₁.vmaPool from congrArg VmaState.vmaPool habs₁]
  have htree : ∀ j, m₂.tree j = m.tree j := by
    intro j
    rw [tree_linkPrev, tree_linkNext]
  have hlist : s.vmaRemove i v =
      (s₂.setSet i fun t => { t with tree := (s.sets i).tree.erase v }).vmaRelease v := by
    have htree₂ : (s₂.sets i).tree = (s.sets i).tree := by rw [← habs, abs]
    rw [← htree₂]
    rfl
  obtain ⟨t, hrem, hholds, hkept⟩ := (h.holds i).rbRemove (h.bound hfuel i) hv
  obtain ⟨habs', hholds'⟩ := h.setTree (i := i) habs htree hholds fun j hj w hw =>
    hkept w fun hw' => hj (h.rep.tree_unique hw hw')
  refine ⟨(m₂.setTree i t).vmaRelease v, ?_, ?_⟩
  · change ((m₂.tree i).rbRemove fuel v).map (fun t => (m₂.setTree i t).vmaRelease v) = _
    rw [htree, hrem]
    rfl
  · rw [hlist]
    exact ⟨congrArg (fun s : VmaState S => s.vmaRelease v) habs', hholds'⟩

/-- `vma_set_init`. -/
theorem vmaSetInit_eq (habs : m.abs (fun j => (s.sets j).tree) = s)
    (hholds : ∀ j, (m.tree j).Holds (s.sets j).tree) (i : S) :
    (m.vmaSetInit i).abs (fun j => ((s.vmaSetInit i).sets j).tree) = s.vmaSetInit i ∧
      ∀ j, ((m.vmaSetInit i).tree j).Holds ((s.vmaSetInit i).sets j).tree := by
  -- clearing the pointers of the set gives the empty set in both models
  have hset : (m.setSet i fun _ => ⟨none, none, none⟩).abs
      (fun j => ((s.setSet i fun _ => ⟨[], none, none⟩).sets j).tree) =
        s.setSet i fun _ => ⟨[], none, none⟩ := by
    rw [← habs]
    refine VmaState.ext rfl rfl (funext fun j => ?_)
    by_cases hj : j = i
    · subst hj
      simp only [abs, setSet, VmaState.setSet, Function.update_self]
    · simp only [abs, setSet, VmaState.setSet, Function.update_of_ne hj]
  have hempty : ∀ j, ((m.setSet i fun _ => ⟨none, none, none⟩).tree j).Holds
      ((s.setSet i fun _ => ⟨[], none, none⟩).sets j).tree := by
    intro j
    by_cases hj : j = i
    · subst hj
      simp only [tree, setSet, VmaState.setSet, Function.update_self]
      exact holds_init m.rb
    · simp only [tree, setSet, VmaState.setSet, Function.update_of_ne hj]
      exact hholds j
  have hfree : m.vmaFree = s.vmaFree := congrArg VmaState.vmaFree habs
  have hpool := congrArg VmaState.vmaPool hset
  have hsets := congrArg VmaState.sets hset
  rw [VmaMem.vmaSetInit, VmaState.vmaSetInit]
  simp only [show (m.setSet i fun _ => ⟨none, none, none⟩).vmaFree = s.vmaFree from hfree,
    VmaState.setSet_vmaFree]
  -- the pool is linked up if it has not been yet
  cases s.vmaFree with
  | none =>
      dsimp only
      refine ⟨VmaState.ext ?_ rfl hsets, hempty⟩
      funext v
      exact congrArg (fun r : Vma => { r with next := vmaPoolAt (v + 1) }) (congrFun hpool v)
  | some v => exact ⟨hset, hempty⟩

/-- The first `vma_set_init`. -/
theorem rep_zero (i : S) : (zero.vmaSetInit i).Rep (VmaState.zero.vmaSetInit i) := by
  obtain ⟨habs, hholds⟩ := vmaSetInit_eq (m := zero) (s := VmaState.zero) rfl
    (fun _ => holds_init _) i
  exact ⟨habs, hholds, VmaState.rep_zero i⟩

variable [Fintype S]

/-- The sets in memory answer every call as the sets on lists do. -/
theorem vmaMem_refines (hfuel : vmaFuel ≤ fuel) :
    Calls.Refines VmaState.call (VmaMem.call (S := S) fuel) fun s m => m.Rep s := by
  intro s m op r s' h hcall
  cases op with
  | find i addr =>
      obtain ⟨v, hv, heq⟩ := Option.map_eq_some_iff.mp hcall
      obtain ⟨rfl, rfl⟩ := Prod.ext_iff.mp heq
      refine ⟨m, ?_, h⟩
      rw [VmaMem.call, h.vmaFind hfuel, hv]
      rfl
  | change c =>
      -- the call keeps the invariant on lists
      cases c with
      | setInit i =>
          rw [VmaState.call] at hcall
          split_ifs at hcall with hok
          obtain ⟨rfl, rfl⟩ := Prod.ext_iff.mp (Option.some.inj hcall)
          obtain ⟨habs, hholds⟩ := vmaSetInit_eq h.abs_eq h.holds i
          exact ⟨_, rfl, habs, hholds, h.rep.step hok rfl⟩
      | insert i start endAddr prot kind =>
          rw [VmaState.call] at hcall
          split_ifs at hcall with hok
          obtain ⟨rfl, rfl⟩ := Prod.ext_iff.mp (Option.some.inj hcall)
          obtain ⟨m', hm', habs, hholds⟩ := h.vmaInsert hfuel i start endAddr prot kind
          refine ⟨m', ?_, habs, hholds, h.rep.step hok rfl⟩
          rw [VmaMem.call, hm']
          rfl
      | remove i v =>
          rw [VmaState.call] at hcall
          split_ifs at hcall with hok
          obtain ⟨s'', hstep, heq⟩ := Option.map_eq_some_iff.mp hcall
          obtain ⟨rfl, rfl⟩ := Prod.ext_iff.mp heq
          have hkept := h.rep.step hok hstep
          rw [VmaState.step] at hstep
          split_ifs at hstep with hv
          obtain rfl := Option.some.inj hstep
          obtain ⟨m', hm', habs, hholds⟩ := h.vmaRemove hfuel hv
          refine ⟨m', ?_, habs, hholds, hkept⟩
          rw [VmaMem.call, hm']
          rfl

/-- Over any sequence of calls, from the first `vma_set_init` on, the sets in memory give the
answers of the sets on lists, in `vmaFuel` steps for each loop at most. At the end the tree of each
set holds the records on its list, in the order of their starts, and each record is in one place. -/
theorem vma_calls_in_memory (hfuel : vmaFuel ≤ fuel) (i : S) (ops : List (VmaOp S))
    {rs : List VmaReply} {s : VmaState S}
    (hcalls : Calls.callAll VmaState.call (VmaState.zero.vmaSetInit i) ops = some (rs, s)) :
    ∃ m, Calls.callAll (VmaMem.call fuel) (zero.vmaSetInit i) ops = some (rs, m) ∧
      m.abs (fun j => (s.sets j).tree) = s ∧ (∀ j, (m.tree j).Holds (s.sets j).tree) ∧
        s.Consistent := by
  obtain ⟨m, hm, h⟩ := Calls.callAll_refines (vmaMem_refines hfuel) (rep_zero i) hcalls
  exact ⟨m, hm, h.abs_eq, h.holds, h.rep.consistent⟩

/-- Two sets, an overlap that is refused, two searches and a record that is taken out. -/
theorem vma_calls_in_memory_twoSets : ∃ (s : VmaState Bool) (m : VmaMem Bool),
    Calls.callAll (VmaMem.call vmaFuel) (zero.vmaSetInit true)
      [.change (.setInit false), .change (.insert true 0x3000#64 0x5000#64 3#64 4#64),
        .change (.insert false 0x1000#64 0x2000#64 3#64 4#64),
        .change (.insert true 0x1000#64 0x2000#64 3#64 4#64),
        .change (.insert true 0x4000#64 0x6000#64 3#64 4#64), .find true 0x4fff#64,
        .change (.remove true ⟨0, by decide⟩), .find true 0x4fff#64] =
        some ([.done, .inserted true, .inserted true, .inserted true, .inserted false,
          .found (some ⟨0, by decide⟩), .done, .found none], m) ∧
      m.abs (fun j => (s.sets j).tree) = s ∧ ∀ j, (m.tree j).Holds (s.sets j).tree := by
  -- the calls are evaluated in the list model, and carried over to memory
  have hrun : ((Calls.callAll VmaState.call (VmaState.zero.vmaSetInit true : VmaState Bool)
      [.change (.setInit false), .change (.insert true 0x3000#64 0x5000#64 3#64 4#64),
        .change (.insert false 0x1000#64 0x2000#64 3#64 4#64),
        .change (.insert true 0x1000#64 0x2000#64 3#64 4#64),
        .change (.insert true 0x4000#64 0x6000#64 3#64 4#64), .find true 0x4fff#64,
        .change (.remove true ⟨0, by decide⟩), .find true 0x4fff#64]).map Prod.fst) =
      some [.done, .inserted true, .inserted true, .inserted true, .inserted false,
        .found (some ⟨0, by decide⟩), .done, .found none] := by decide +kernel
  obtain ⟨⟨rs, s⟩, hcalls, rfl⟩ := Option.map_eq_some_iff.mp hrun
  obtain ⟨m, hm, habs, hholds, -⟩ := vma_calls_in_memory le_rfl true _ hcalls
  exact ⟨s, m, hm, habs, hholds⟩

end VmaMem

end Koharu
