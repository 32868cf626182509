import Koharu.Task.Grant
import Mathlib.Data.Set.Card

/-!
# Grants and their reference counts

A pmap's grants are a list of entries, and `g_refs` counts for every frame the pmaps that have an
entry for it. The two are updated together, by `grant_add` and `grant_drop`:

* `rightsOn` reads the list of a pmap as a map from frames to rights;
* `Counted` says that the lists hold no frame twice and that the counts are right;
* `GrantRun` is any sequence of `grant_add` and `grant_drop`. `grants_of_run` says what the lists
  and the counts are after it.

The count of a frame has 16 bits. It is right as long as fewer than `2 ^ 16` pmaps have an entry for
the frame.
-/

namespace Koharu

/-! ### Lists of entries

The entries of a pmap as a partial function from frames to rights, as `grant_holds` looks them up.
-/

/-- The rights that a list of entries gives on a frame. -/
def lookupRights (l : List GrantEntry) (pfn : BitVec 64) : Option (BitVec 8) :=
  (l.find? fun e => e.pfn = pfn).map GrantEntry.rights

/-- The lookup goes through the entries in order. -/
theorem lookupRights_cons (e : GrantEntry) (l : List GrantEntry) (f : BitVec 64) :
    lookupRights (e :: l) f = if e.pfn = f then some e.rights else lookupRights l f := by
  by_cases h : e.pfn = f <;> simp [lookupRights, h]

/-- It fails for frames without an entry. -/
theorem lookupRights_eq_none {l : List GrantEntry} {f : BitVec 64} :
    lookupRights l f = none ↔ f ∉ l.map GrantEntry.pfn := by
  simp [lookupRights]

/-- The test of `grant_add` and `grant_drop`. -/
theorem any_pfn_eq {l : List GrantEntry} {f : BitVec 64} :
    (l.any fun e => e.pfn = f) = (lookupRights l f).isSome := by
  rw [Bool.eq_iff_iff, Option.isSome_iff_ne_none, Ne, lookupRights_eq_none]
  simp

/-- An entry that is added gives its frame these rights as well. -/
theorem lookupRights_addEntry (pfn : BitVec 64) (rights : BitVec 8) (l : List GrantEntry)
    (f : BitVec 64) : lookupRights (addEntry pfn rights l) f =
      if f = pfn then some ((lookupRights l f).getD 0 ||| rights) else lookupRights l f := by
  induction l with
  | nil =>
      rw [addEntry, lookupRights_cons]
      by_cases hf : f = pfn
      · simp [hf, lookupRights]
      · simp [hf, Ne.symm hf, lookupRights]
  | cons e l ih =>
      rw [addEntry]
      split
      -- the entry of the frame gets the rights; a list without one gets an entry
      next he =>
        rw [lookupRights_cons, lookupRights_cons, he]
        by_cases hf : f = pfn
        · simp [hf]
        · simp [hf, Ne.symm hf]
      next he =>
        rw [lookupRights_cons, lookupRights_cons, ih]
        by_cases hf : e.pfn = f
        · have hne : f ≠ pfn := fun h => he (hf.trans h)
          simp [hf, hne]
        · simp [hf]

/-- The frames of a list of entries after `grant_add`. -/
theorem map_pfn_addEntry (pfn : BitVec 64) (rights : BitVec 8) (l : List GrantEntry) :
    (addEntry pfn rights l).map GrantEntry.pfn =
      if pfn ∈ l.map GrantEntry.pfn then l.map GrantEntry.pfn
      else l.map GrantEntry.pfn ++ [pfn] := by
  induction l with
  | nil => simp [addEntry]
  | cons e l ih =>
      rw [addEntry]
      split
      next he => simp [he]
      next he =>
        rw [List.map_cons, ih, List.map_cons]
        have hne : pfn ≠ e.pfn := Ne.symm he
        -- the frame is found further down, or it is appended at the end
        by_cases hmem : pfn ∈ l.map GrantEntry.pfn
        · rw [if_pos hmem, if_pos (List.mem_cons_of_mem _ hmem)]
        · rw [if_neg hmem, if_neg (by simpa [hne] using hmem), List.cons_append]

/-- No frame gets two entries. -/
theorem nodup_addEntry {l : List GrantEntry} (h : (l.map GrantEntry.pfn).Nodup) (pfn : BitVec 64)
    (rights : BitVec 8) : ((addEntry pfn rights l).map GrantEntry.pfn).Nodup := by
  rw [map_pfn_addEntry]
  split
  next => exact h
  next hmem => exact h.append (List.nodup_singleton pfn) (by simpa using hmem)

/-- Nor does it by erasing one. -/
theorem nodup_eraseP {l : List GrantEntry} (h : (l.map GrantEntry.pfn).Nodup) (pfn : BitVec 64) :
    ((l.eraseP fun e => e.pfn = pfn).map GrantEntry.pfn).Nodup :=
  h.sublist ((List.eraseP_sublist).map _)

/-- The entry that `grant_drop` removes was the only one. -/
theorem lookupRights_eraseP {l : List GrantEntry} (h : (l.map GrantEntry.pfn).Nodup)
    (pfn f : BitVec 64) : lookupRights (l.eraseP fun e => e.pfn = pfn) f =
      if f = pfn then none else lookupRights l f := by
  induction l with
  | nil => simp [lookupRights]
  | cons e l ih =>
      rw [List.map_cons, List.nodup_cons] at h
      by_cases he : e.pfn = pfn
      · rw [List.eraseP_cons_of_pos (by simpa using he), lookupRights_cons, he]
        -- no second entry of the frame is left behind it
        by_cases hf : f = pfn
        · subst hf
          rw [if_pos rfl, lookupRights_eq_none, ← he]
          exact h.1
        · rw [if_neg hf, if_neg (Ne.symm hf)]
      · rw [List.eraseP_cons_of_neg (by simpa using he), lookupRights_cons, lookupRights_cons,
          ih h.2]
        by_cases hf : e.pfn = f
        · have hne : f ≠ pfn := fun h => he (hf.trans h)
          simp [hf, hne]
        · simp [hf]

namespace Kernel

variable {σ : Type} {s s' : Kernel σ}

/-- The rights that a pmap has an entry for. -/
def rightsOn (s : Kernel σ) (ptr : Addr) (f : BitVec 64) : Option (BitVec 8) :=
  (s.pmaps ptr).bind fun p => lookupRights p.grants f

/-- The pmaps that have an entry for a frame. -/
def holders (s : Kernel σ) (f : BitVec 64) : Set Addr := {ptr | (s.rightsOn ptr f).isSome}

/-! ### The operations on grants

Every operation replaces the list of one pmap and adjusts the count of one frame. -/

/-- `grant_holds`, in terms of rights. -/
theorem grantHolds_eq {ptr : Addr} {p : Pmap} (hp : s.pmaps ptr = some p) (f : BitVec 64)
    (r : BitVec 8) : ∃ held, s.grantHolds ptr f r = some held ∧
      (held = true ↔ ptr ≠ 0 ∧ f < s.frames ∧
        ((ptr = s.rootPmap ∧ s.pool f = true ∧ s.refs f = 0) ∨
          ∃ x, s.rightsOn ptr f = some x ∧ x &&& r = r)) := by
  rw [grantHolds]
  split
  next hguard =>
    -- no pmap, or no frame
    refine ⟨false, rfl, by simp, fun ⟨hne, hlt, _⟩ => ?_⟩
    rcases hguard with hzero | hle
    · exact absurd hzero hne
    · exact absurd hlt (BitVec.not_lt.mpr hle)
  next hguard =>
    obtain ⟨hne, hlt⟩ := not_or.mp hguard
    have hlt' : f < s.frames := BitVec.not_le.mp hlt
    have hpool : s.grantPoolTest f = s.pool f := by
      rw [grantPoolTest, if_neg hlt]
    rw [hpool]
    split
    next himplicit => exact ⟨true, rfl, fun _ => ⟨hne, hlt', Or.inl himplicit⟩, fun _ => rfl⟩
    next himplicit =>
      -- only an entry can give the right
      have hiff : (ptr ≠ 0 ∧ f < s.frames ∧ ((ptr = s.rootPmap ∧ s.pool f = true ∧ s.refs f = 0) ∨
          ∃ x, s.rightsOn ptr f = some x ∧ x &&& r = r)) ↔
          ∃ x, s.rightsOn ptr f = some x ∧ x &&& r = r :=
        ⟨fun h => h.2.2.resolve_left himplicit, fun h => ⟨hne, hlt', Or.inr h⟩⟩
      simp only [hiff]
      simp only [hp, Option.bind_eq_bind, Option.bind_some, rightsOn, lookupRights]
      cases hfind : p.grants.find? fun e => e.pfn = f with
      | none => exact ⟨false, rfl, by simp⟩
      | some e => exact ⟨_, rfl, by simp⟩

/-- Replace the grants of a pmap, and the counts. -/
def regrant (s : Kernel σ) (ptr : Addr) (p : Pmap) (l : List GrantEntry)
    (refs : BitVec 64 → BitVec 16) : Kernel σ :=
  { s.setGrants ptr p l with refs }

/-- The rights after the list of one pmap was replaced. -/
theorem rightsOn_regrant (s : Kernel σ) (ptr : Addr) (p : Pmap) (l : List GrantEntry)
    (refs : BitVec 64 → BitVec 16) (q : Addr) (f : BitVec 64) :
    (s.regrant ptr p l refs).rightsOn q f =
      if q = ptr then lookupRights l f else s.rightsOn q f := by
  by_cases hq : q = ptr
  · subst hq
    simp [rightsOn, regrant, setGrants]
  · simp [rightsOn, regrant, setGrants, hq]

/-- What `grant_add` does: nothing, or rights are added to a pmap. -/
theorem grantAdd_cases {kmalloc ok : Bool} {ptr : Addr} {pfn : BitVec 64} {r : BitVec 8}
    (h : s.grantAdd kmalloc ptr pfn r = some (ok, s')) :
    (ok = false ∧ s' = s) ∨ (ok = true ∧ pfn < s.frames ∧ ∃ p, s.pmaps ptr = some p ∧
      ∃ refs, s' = s.regrant ptr p (addEntry pfn r p.grants) refs ∧
        refs = if (s.rightsOn ptr pfn).isSome then s.refs
          else Function.update s.refs pfn (s.refs pfn + 1)) := by
  rw [grantAdd] at h
  -- no space or no such frame, then no memory for a new entry
  split at h
  · cases h
    exact Or.inl ⟨rfl, rfl⟩
  next hguard =>
  split at h
  · cases h
    exact Or.inl ⟨rfl, rfl⟩
  obtain ⟨p, hp, h⟩ := Option.bind_eq_some_iff.mp h
  have hrights : (s.rightsOn ptr pfn).isSome = (p.grants.any fun e => e.pfn = pfn) := by
    rw [any_pfn_eq, rightsOn, hp, Option.bind_some]
  apply Or.inr
  rw [hrights]
  dsimp only at h
  split at h
  next hany =>
    cases h
    exact ⟨rfl, BitVec.not_le.mp (not_or.mp hguard).2, p, hp, s.refs, rfl, (if_pos hany).symm⟩
  next hany =>
    cases h
    exact ⟨rfl, BitVec.not_le.mp (not_or.mp hguard).2, p, hp, _, rfl, (if_neg hany).symm⟩

/-- What `grant_drop` does: nothing, or an entry is removed. -/
theorem grantDrop_cases {ok : Bool} {ptr : Addr} {pfn : BitVec 64}
    (h : s.grantDrop ptr pfn = some (ok, s')) :
    (ok = false ∧ s' = s) ∨ (ok = true ∧ ∃ p, s.pmaps ptr = some p ∧
      (s.rightsOn ptr pfn).isSome ∧
      ∃ refs, s' = s.regrant ptr p (p.grants.eraseP fun e => e.pfn = pfn) refs ∧
        refs = if s.refs pfn ≠ 0 then Function.update s.refs pfn (s.refs pfn - 1) else s.refs) := by
  rw [grantDrop] at h
  -- there is nothing to drop without a space, or without an entry
  split at h
  · cases h
    exact Or.inl ⟨rfl, rfl⟩
  obtain ⟨p, hp, h⟩ := Option.bind_eq_some_iff.mp h
  split at h
  next hany =>
    have hrights : (s.rightsOn ptr pfn).isSome := by
      rw [rightsOn, hp, Option.bind_some, ← any_pfn_eq]
      exact hany
    apply Or.inr
    dsimp only at h
    split at h
    next hrefs =>
      cases h
      exact ⟨rfl, p, hp, hrights, _, rfl, (if_pos hrefs).symm⟩
    next hrefs =>
      cases h
      exact ⟨rfl, p, hp, hrights, _, rfl, (if_neg hrefs).symm⟩
  · cases h
    exact Or.inl ⟨rfl, rfl⟩

/-! ### The counts

The count is the number of pmaps with an entry. It has 16 bits, so that it stays exact only while
there are fewer holders than that. -/

/-- No list of grants has two entries for a frame, and the count of a frame is the number of pmaps
that have an entry for it. -/
structure Counted (s : Kernel σ) : Prop where
  nodup : ∀ ptr p, s.pmaps ptr = some p → (p.grants.map GrantEntry.pfn).Nodup
  finite : ∀ f, (s.holders f).Finite
  refs : ∀ f, (s.refs f).toNat = (s.holders f).ncard

/-- Fewer than `2 ^ 16` pmaps have an entry for a frame. -/
def Few (s : Kernel σ) : Prop := ∀ f, (s.holders f).ncard < 2 ^ 16

/-- The count of a frame is zero when there is no entry for it. -/
theorem Counted.refs_eq_zero (h : s.Counted) (f : BitVec 64) :
    s.refs f = 0 ↔ ∀ ptr, s.rightsOn ptr f = none := by
  rw [← BitVec.toNat_inj, h.refs f, show (0 : BitVec 16).toNat = 0 from rfl,
    Set.ncard_eq_zero (h.finite f)]
  simp [Set.eq_empty_iff_forall_notMem, holders]

/-- The rights after `grant_add`. -/
theorem rightsOn_added {ptr : Addr} {p : Pmap} (hp : s.pmaps ptr = some p) (pfn : BitVec 64)
    (r : BitVec 8) (refs : BitVec 64 → BitVec 16) (q : Addr) (f : BitVec 64) :
    (s.regrant ptr p (addEntry pfn r p.grants) refs).rightsOn q f =
      if q = ptr ∧ f = pfn then some ((s.rightsOn ptr pfn).getD 0 ||| r) else s.rightsOn q f := by
  have hptr : s.rightsOn ptr f = lookupRights p.grants f := by
    rw [rightsOn, hp, Option.bind_some]
  rw [rightsOn_regrant]
  by_cases hq : q = ptr
  · subst hq
    by_cases hf : f = pfn
    · subst hf
      rw [if_pos rfl, if_pos ⟨rfl, rfl⟩, lookupRights_addEntry, if_pos rfl, hptr]
    · rw [if_pos rfl, if_neg fun h => hf h.2, lookupRights_addEntry, if_neg hf, hptr]
  · rw [if_neg hq, if_neg fun h => hq h.1]

/-- The rights after `grant_drop`. -/
theorem rightsOn_dropped {ptr : Addr} {p : Pmap} (hp : s.pmaps ptr = some p)
    (hnodup : (p.grants.map GrantEntry.pfn).Nodup) (pfn : BitVec 64)
    (refs : BitVec 64 → BitVec 16) (q : Addr) (f : BitVec 64) :
    (s.regrant ptr p (p.grants.eraseP fun e => e.pfn = pfn) refs).rightsOn q f =
      if q = ptr ∧ f = pfn then none else s.rightsOn q f := by
  have hptr : s.rightsOn ptr f = lookupRights p.grants f := by
    rw [rightsOn, hp, Option.bind_some]
  rw [rightsOn_regrant]
  by_cases hq : q = ptr
  · subst hq
    rw [if_pos rfl, lookupRights_eraseP hnodup]
    by_cases hf : f = pfn
    · rw [if_pos hf, if_pos ⟨rfl, hf⟩]
    · rw [if_neg hf, if_neg fun h => hf h.2, hptr]
  · rw [if_neg hq, if_neg fun h => hq h.1]

/-- The lists of grants after those of one pmap have been replaced. -/
theorem nodup_regrant
    (h : ∀ ptr p, s.pmaps ptr = some p → (p.grants.map GrantEntry.pfn).Nodup) {ptr : Addr}
    {p : Pmap} {l : List GrantEntry} (hl : (l.map GrantEntry.pfn).Nodup)
    {refs : BitVec 64 → BitVec 16} (q : Addr) (p' : Pmap)
    (hq : (s.regrant ptr p l refs).pmaps q = some p') : (p'.grants.map GrantEntry.pfn).Nodup := by
  by_cases heq : q = ptr
  · subst heq
    simp only [regrant, setGrants, Function.update_self, Option.some.injEq] at hq
    rw [← hq]
    exact hl
  · simp only [regrant, setGrants, Function.update_of_ne heq] at hq
    exact h q p' hq

/-- `grant_add` keeps the counts right. -/
theorem Counted.grantAdd (h : s.Counted) {kmalloc ok : Bool} {ptr : Addr} {pfn : BitVec 64}
    {r : BitVec 8} (hadd : s.grantAdd kmalloc ptr pfn r = some (ok, s')) (hfew : s'.Few) :
    s'.Counted := by
  obtain ⟨-, rfl⟩ | ⟨-, -, p, hp, refs, rfl, hrefs⟩ := grantAdd_cases hadd
  · exact h
  have hrights := rightsOn_added hp pfn r refs
  -- the holders of the frame and of the other frames
  have hholders : ∀ f, (s.regrant ptr p (addEntry pfn r p.grants) refs).holders f =
      if f = pfn then insert ptr (s.holders pfn) else s.holders f := by
    intro f
    ext q
    by_cases hf : f = pfn
    · subst hf
      rw [if_pos rfl, Set.mem_insert_iff]
      by_cases hq : q = ptr <;> simp [holders, hrights, hq]
    · rw [if_neg hf]
      simp [holders, hrights, hf]
  refine ⟨fun q p' hq => ?_, fun f => ?_, fun f => ?_⟩
  · exact nodup_regrant h.nodup (nodup_addEntry (h.nodup ptr p hp) pfn r) q p' hq
  · rw [hholders]
    split
    · exact (h.finite pfn).insert ptr
    · exact h.finite f
  · have hfew := hfew f
    rw [hholders] at hfew ⊢
    show (refs f).toNat = _
    rw [hrefs]
    by_cases hmem : (s.rightsOn ptr pfn).isSome
    · have hinsert : insert ptr (s.holders pfn) = s.holders pfn := Set.insert_eq_of_mem hmem
      rw [if_pos hmem, hinsert, h.refs f]
      split
      next hf => rw [hf]
      next => rfl
    · rw [if_neg hmem]
      by_cases hf : f = pfn
      · subst hf
        have hnot : ptr ∉ s.holders f := hmem
        rw [if_pos rfl, Set.ncard_insert_of_notMem hnot (h.finite f)] at hfew ⊢
        rw [Function.update_self, BitVec.toNat_add, h.refs f,
          show (1 : BitVec 16).toNat = 1 from rfl, Nat.mod_eq_of_lt hfew]
      · rw [if_neg hf, Function.update_of_ne hf, h.refs f]

/-- `grant_drop` keeps the counts right. -/
theorem Counted.grantDrop (h : s.Counted) {ok : Bool} {ptr : Addr} {pfn : BitVec 64}
    (hdrop : s.grantDrop ptr pfn = some (ok, s')) : s'.Counted := by
  obtain ⟨-, rfl⟩ | ⟨-, p, hp, hsome, refs, rfl, hrefs⟩ := grantDrop_cases hdrop
  · exact h
  have hrights := rightsOn_dropped hp (h.nodup ptr p hp) pfn refs
  -- the pmap does not hold the frame any more
  have hholders : ∀ f, (s.regrant ptr p (p.grants.eraseP fun e => e.pfn = pfn) refs).holders f =
      if f = pfn then s.holders pfn \ {ptr} else s.holders f := by
    intro f
    ext q
    by_cases hf : f = pfn
    · subst hf
      rw [if_pos rfl]
      by_cases hq : q = ptr <;> simp [holders, hrights, hq]
    · rw [if_neg hf]
      simp [holders, hrights, hf]
  refine ⟨fun q p' hq => ?_, fun f => ?_, fun f => ?_⟩
  · exact nodup_regrant h.nodup (nodup_eraseP (h.nodup ptr p hp) pfn) q p' hq
  · rw [hholders]
    split
    · exact (h.finite pfn).sdiff
    · exact h.finite f
  · rw [hholders]
    show (refs f).toNat = _
    -- it held the frame before, so the count was not 0
    have hne : s.refs pfn ≠ 0 := by
      intro hzero
      have := (h.refs_eq_zero pfn).mp hzero ptr
      rw [this] at hsome
      cases hsome
    rw [hrefs, if_pos hne]
    by_cases hf : f = pfn
    · subst hf
      have hcard := Set.ncard_sdiff_singleton_add_one (s := s.holders f) hsome (h.finite f)
      have hcount := h.refs f
      have hone : (1 : BitVec 16).toNat = 1 := rfl
      have hsub : (s.refs f - 1).toNat = (s.refs f).toNat - 1 :=
        BitVec.toNat_sub_of_le (BitVec.le_def.mpr (by omega))
      rw [if_pos rfl, Function.update_self, hsub]
      omega
    · rw [if_neg hf, Function.update_of_ne hf, h.refs f]

/-! ### Histories of grants

The counts are exact after every history, by induction on the number of calls. -/

/-- A call of `grant_add` or `grant_drop`. -/
inductive GrantOp
  | add (kmalloc : Bool) (pmap : Addr) (pfn : BitVec 64) (rights : BitVec 8)
  | drop (pmap : Addr) (pfn : BitVec 64)

/-- The pmap of a call. -/
def GrantOp.pmap : GrantOp → Addr
  | .add _ pmap _ _ => pmap
  | .drop pmap _ => pmap

/-- Perform a call. -/
def grantOp (s : Kernel σ) : GrantOp → Option (Bool × Kernel σ)
  | .add kmalloc pmap pfn rights => s.grantAdd kmalloc pmap pfn rights
  | .drop pmap pfn => s.grantDrop pmap pfn

/-- Any number of calls, the latest first, each with whether it succeeded. -/
inductive GrantRun (s₀ : Kernel σ) : List (GrantOp × Bool) → Kernel σ → Prop
  | nil : GrantRun s₀ [] s₀
  | cons {history s s' op ok} (hrun : GrantRun s₀ history s)
      (hop : s.grantOp op = some (ok, s')) : GrantRun s₀ ((op, ok) :: history) s'

/-- The union of the rights on a frame that a pmap has been given since they were last dropped. -/
def granted (ptr : Addr) (f : BitVec 64) : List (GrantOp × Bool) → Option (BitVec 8)
  | [] => none
  | (_, false) :: history => granted ptr f history
  | (.add _ pmap pfn rights, true) :: history =>
      if ptr = pmap ∧ f = pfn then some ((granted ptr f history).getD 0 ||| rights)
      else granted ptr f history
  | (.drop pmap pfn, true) :: history =>
      if ptr = pmap ∧ f = pfn then none else granted ptr f history

/-- No pmap has any grants. -/
structure NoGrants (s : Kernel σ) : Prop where
  grants : ∀ ptr p, s.pmaps ptr = some p → p.grants = []
  refs : ∀ f, s.refs f = 0

/-- Before the first grant nobody has rights on a frame. -/
theorem NoGrants.rightsOn (h : s.NoGrants) (ptr : Addr) (f : BitVec 64) :
    s.rightsOn ptr f = none := by
  unfold Kernel.rightsOn
  cases hp : s.pmaps ptr with
  | none => rfl
  | some p => rw [Option.bind_some, h.grants ptr p hp]; rfl

/-- The counts are right then. -/
theorem NoGrants.counted (h : s.NoGrants) : s.Counted := by
  have hholders : ∀ f, s.holders f = ∅ := by
    intro f
    simp [holders, h.rightsOn]
  refine ⟨fun ptr p hp => ?_, fun f => ?_, fun f => ?_⟩
  · rw [h.grants ptr p hp]
    exact List.nodup_nil
  · rw [hholders]
    exact Set.finite_empty
  · rw [hholders, h.refs, Set.ncard_empty]
    rfl

/-- What the lists and the counts are after a history of calls for the pmaps of `S`. -/
structure Account (S : Finset Addr) (history : List (GrantOp × Bool)) (s : Kernel σ) : Prop where
  counted : s.Counted
  rights : ∀ ptr f, s.rightsOn ptr f = granted ptr f history
  lt_frames : ∀ ptr f, (s.rightsOn ptr f).isSome → f < s.frames
  holders : ∀ f, s.holders f ⊆ S

/-- A set with fewer than `2 ^ 16` elements bounds the number of the holders. -/
theorem few_of_subset {S : Finset Addr} (hS : S.card < 2 ^ 16)
    (h : ∀ f, s.holders f ⊆ S) : s.Few := by
  intro f
  calc (s.holders f).ncard ≤ (S : Set Addr).ncard := Set.ncard_le_ncard (h f) S.finite_toSet
    _ = S.card := Set.ncard_coe_finset S
    _ < 2 ^ 16 := hS

/-- A call of `grant_add`, and the account. -/
theorem Account.grantAdd {S : Finset Addr} (hS : S.card < 2 ^ 16)
    {history : List (GrantOp × Bool)} (h : s.Account S history) {kmalloc ok : Bool} {ptr : Addr}
    {pfn : BitVec 64} {r : BitVec 8} (hmem : ptr ∈ S)
    (hadd : s.grantAdd kmalloc ptr pfn r = some (ok, s')) :
    s'.Account S ((.add kmalloc ptr pfn r, ok) :: history) := by
  obtain ⟨rfl, rfl⟩ | ⟨rfl, hlt, p, hp, refs, hs', -⟩ := grantAdd_cases hadd
  · exact ⟨h.counted, h.rights, h.lt_frames, h.holders⟩
  -- the rights of one pmap on one frame have grown
  have hrights : ∀ q f, s'.rightsOn q f = if q = ptr ∧ f = pfn
      then some ((s.rightsOn ptr pfn).getD 0 ||| r) else s.rightsOn q f := by
    rw [hs']
    exact rightsOn_added hp pfn r refs
  have hframes : s'.frames = s.frames := by rw [hs']; rfl
  have hholders : ∀ f, s'.holders f ⊆ S := by
    intro f q hq
    by_cases hcase : q = ptr ∧ f = pfn
    · rw [hcase.1]
      exact hmem
    · apply h.holders f
      rwa [Kernel.holders, Set.mem_ofPred_eq, hrights, if_neg hcase] at hq
  refine ⟨h.counted.grantAdd hadd (few_of_subset hS hholders), fun q f => ?_, fun q f hq => ?_,
    hholders⟩
  · rw [hrights, granted, ← h.rights q f]
    by_cases hcase : q = ptr ∧ f = pfn
    · rw [if_pos hcase, if_pos hcase, hcase.1, hcase.2]
    · rw [if_neg hcase, if_neg hcase]
  · rw [hframes]
    by_cases hcase : q = ptr ∧ f = pfn
    · rw [hcase.2]
      exact hlt
    · rw [hrights, if_neg hcase] at hq
      exact h.lt_frames q f hq

/-- A call of `grant_drop`, and the account. -/
theorem Account.grantDrop {S : Finset Addr} {history : List (GrantOp × Bool)}
    (h : s.Account S history) {ok : Bool} {ptr : Addr} {pfn : BitVec 64}
    (hdrop : s.grantDrop ptr pfn = some (ok, s')) :
    s'.Account S ((.drop ptr pfn, ok) :: history) := by
  obtain ⟨rfl, rfl⟩ | ⟨rfl, p, hp, -, refs, hs', -⟩ := grantDrop_cases hdrop
  · exact ⟨h.counted, h.rights, h.lt_frames, h.holders⟩
  have hrights : ∀ q f, s'.rightsOn q f = if q = ptr ∧ f = pfn then none else s.rightsOn q f := by
    rw [hs']
    exact rightsOn_dropped hp (h.counted.nodup ptr p hp) pfn refs
  have hframes : s'.frames = s.frames := by rw [hs']; rfl
  -- every entry was there before
  have hbefore : ∀ q f, (s'.rightsOn q f).isSome → (s.rightsOn q f).isSome := by
    intro q f hq
    rw [hrights] at hq
    split at hq
    · cases hq
    · exact hq
  refine ⟨h.counted.grantDrop hdrop, fun q f => ?_, fun q f hq => ?_, fun f q hq => ?_⟩
  · rw [hrights, granted, ← h.rights q f]
  · rw [hframes]
    exact h.lt_frames q f (hbefore q f hq)
  · exact h.holders f (hbefore q f hq)

/-- The lists and the counts after any number of calls. -/
theorem account_of_run {s₀ : Kernel σ} {S : Finset Addr} (hS : S.card < 2 ^ 16)
    (hs₀ : s₀.NoGrants) {history : List (GrantOp × Bool)} (hrun : GrantRun s₀ history s)
    (hops : ∀ e ∈ history, e.1.pmap ∈ S) : s.Account S history := by
  induction hrun with
  | nil =>
      refine ⟨hs₀.counted, hs₀.rightsOn, fun ptr f h => ?_, fun f ptr h => ?_⟩
      · rw [hs₀.rightsOn] at h
        cases h
      · rw [Kernel.holders, Set.mem_ofPred_eq, hs₀.rightsOn] at h
        cases h
  | @cons history s s' op ok _ hop ih =>
      have hacc := ih fun e he => hops e (List.mem_cons_of_mem _ he)
      cases op with
      | add kmalloc ptr pfn r => exact hacc.grantAdd hS (hops _ List.mem_cons_self) hop
      | drop ptr pfn => exact hacc.grantDrop hop

/-- After any history of calls of `grant_add` and `grant_drop` for fewer than `2 ^ 16` pmaps: no
list has two entries for a frame, an entry has the rights given since the last drop, the count of a
frame is the number of the pmaps that have an entry for it, and the root server has its implicit
right on the frames of the pool that nobody has an entry for, and on no others. -/
theorem grants_exact_of_run {s₀ s : Kernel σ} {S : Finset Addr} (hS : S.card < 2 ^ 16)
    (hs₀ : s₀.NoGrants) {history : List (GrantOp × Bool)} (hrun : GrantRun s₀ history s)
    (hops : ∀ e ∈ history, e.1.pmap ∈ S) :
    (∀ ptr p, s.pmaps ptr = some p → (p.grants.map GrantEntry.pfn).Nodup ∧
      ∀ f, lookupRights p.grants f = granted ptr f history) ∧
    (∀ f, (s.refs f).toNat =
      {ptr | ∃ p, s.pmaps ptr = some p ∧ f ∈ p.grants.map GrantEntry.pfn}.ncard) ∧
    ∀ root, s.pmaps s.rootPmap = some root → s.rootPmap ≠ 0 → ∀ f r, ∃ held,
      s.grantHolds s.rootPmap f r = some held ∧ (held = true ↔
        (s.grantPoolTest f = true ∧
          ∀ ptr p, s.pmaps ptr = some p → f ∉ p.grants.map GrantEntry.pfn) ∨
        ∃ x, lookupRights root.grants f = some x ∧ x &&& r = r) := by
  have h := account_of_run hS hs₀ hrun hops
  have hentry : ∀ ptr p f, s.pmaps ptr = some p → s.rightsOn ptr f = lookupRights p.grants f := by
    intro ptr p f hp
    rw [rightsOn, hp, Option.bind_some]
  refine ⟨fun ptr p hp => ⟨h.counted.nodup ptr p hp, fun f => ?_⟩, fun f => ?_,
    fun root hroot hne f r => ?_⟩
  · rw [← hentry ptr p f hp, h.rights]
  · rw [h.counted.refs f]
    congr 1
    ext ptr
    simp only [Kernel.holders, rightsOn, Set.mem_ofPred_eq, Option.isSome_iff_ne_none]
    cases hp : s.pmaps ptr with
    | none => simp
    | some p => simp [lookupRights_eq_none]
  · obtain ⟨held, hheld, hiff⟩ := grantHolds_eq hroot f r
    refine ⟨held, hheld, hiff.trans ?_⟩
    -- a count of zero means that there is no entry
    have hrefs : s.refs f = 0 ↔
        ∀ ptr p, s.pmaps ptr = some p → f ∉ p.grants.map GrantEntry.pfn := by
      rw [h.counted.refs_eq_zero]
      refine forall_congr' fun ptr => ⟨fun hnone p hp => ?_, fun hall => ?_⟩
      · rw [← lookupRights_eq_none, ← hentry ptr p f hp]
        exact hnone
      · unfold rightsOn
        cases hp : s.pmaps ptr with
        | none => rfl
        | some p => exact lookupRights_eq_none.mpr (hall p hp)
    have hpool : s.grantPoolTest f = true ↔ f < s.frames ∧ s.pool f = true := by
      rw [grantPoolTest]
      split
      next hle => simp [BitVec.not_lt.mpr hle]
      next hlt => simp [BitVec.not_le.mp hlt]
    rw [hrefs, hpool, hentry _ root f hroot]
    constructor
    · rintro ⟨-, hlt, ⟨-, hpool, hnone⟩ | hx⟩
      · exact Or.inl ⟨⟨hlt, hpool⟩, hnone⟩
      · exact Or.inr hx
    · rintro (⟨⟨hlt, hpool⟩, hnone⟩ | ⟨x, hx, hr⟩)
      · exact ⟨hne, hlt, Or.inl ⟨rfl, hpool, hnone⟩⟩
      · have hlt : f < s.frames := by
          apply h.lt_frames s.rootPmap f
          rw [hentry _ root f hroot, hx]
          rfl
        exact ⟨hne, hlt, Or.inr ⟨x, hx, hr⟩⟩

/-- Three threads, each in its own address space; the first is the root server. The first eight
frames are in the pool. -/
def threeSpaces : Kernel Unit where
  pm := { mem := fun _ _ => 0, pmm := (), trace := [] }
  -- the three threads have a pmap each, at 256 times their identifier
  pmaps p :=
    if p = 0x100#64 ∨ p = 0x200#64 ∨ p = 0x300#64 then some { rootPhys := p <<< 12, grants := [] }
    else none
  kernelPmap := 0x400#64
  thread tid := { pmap := tid <<< 8, pagerTid := 1, utcb := 0, state := .ready }
  registered tid := tid = 1 ∨ tid = 2 ∨ tid = 3
  nextTid := 4
  current := 1
  cr3 := 0x100000#64
  kernelData _ := false
  rootPmap := 0x100#64
  frames := 0x1000#64
  pool f := f < 8
  refs _ := 0
  maps _ := 0

/-- The three spaces of the example begin without grants. -/
theorem noGrants_threeSpaces : threeSpaces.NoGrants := by
  refine ⟨fun ptr p hp => ?_, fun f => rfl⟩
  simp only [threeSpaces] at hp
  split at hp
  · cases hp
    rfl
  · cases hp

/-- The frame `5` is given, given again, dropped and given once more. -/
theorem grants_exact_of_run_threeSpaces : ∃ history s, GrantRun threeSpaces history s ∧
    history.length = 4 ∧ (s.refs 5#64).toNat = 1 ∧
    ∃ held, s.grantHolds 0x100#64 6#64 1#8 = some held ∧ (held = true ↔
      (s.grantPoolTest 6#64 = true ∧
        ∀ ptr p, s.pmaps ptr = some p → 6#64 ∉ p.grants.map GrantEntry.pfn) ∨
      ∃ x, lookupRights [] 6#64 = some x ∧ x &&& 1#8 = 1#8) := by
  have h₁ : GrantRun threeSpaces ((.add true 0x200#64 5#64 1#8, true) :: _) _ := .cons .nil rfl
  have h₂ : GrantRun threeSpaces ((.add true 0x200#64 5#64 4#8, true) :: _) _ := .cons h₁ rfl
  have h₃ : GrantRun threeSpaces ((.drop 0x200#64 5#64, true) :: _) _ := .cons h₂ rfl
  have h₄ : GrantRun threeSpaces ((.add true 0x200#64 5#64 3#8, true) :: _) _ := .cons h₃ rfl
  have h := grants_exact_of_run (S := {0x200#64}) (by decide) noGrants_threeSpaces h₄ (by
    intro e he
    simp only [List.mem_cons, List.not_mem_nil, or_false] at he
    rcases he with rfl | rfl | rfl | rfl <;> decide)
  exact ⟨_, _, h₄, rfl, rfl, h.2.2 ⟨0x100000#64, []⟩ rfl (by decide) 6#64 1#8⟩

end Kernel

end Koharu
