import Koharu.Arch.PmapIsolation

/-!
# Who owns the table pages

`PmState.trace` says which pages the functions of `pmap.c` have taken from the allocator and not
given back (`held`). `PmState.Owns` says that these are exactly the tables of the trees, that
nothing was stored to and nothing given back but pages held at that time, and that every link to a
table is as `pmap_map_page` writes it. Every move of the trees keeps it (`Owns.move`).

From this follow what the pages of an address space are from `pmap_create` to `pmap_destroy`
(`held_of_lifetime`), and that `pmap_map` stores to tables only, as long as it is not used for
normal pages inside a huge one (`stores_of_run`).

`pmap_destroy` gives back the tables of one tree, from the leaves to the root. While it runs, the
tree is still in memory and some of its pages are not held any more: `Freed` says which, by their
paths, and each loop of the function adds the paths below one entry to these.
-/

namespace Koharu

open Radix

/-! ### Pages held

The pages held are computed from the record of effects: what was allocated and has not been freed.
An effect is confined when it writes to, or frees, a page that is held then. -/

/-- The pages held after an effect. -/
def Effect.after (S : Set Addr) : Effect → Set Addr
  | .alloc p => if p = 0 then S else insert p S
  | .free p => S \ {p}
  | .clear _ | .copy _ _ | .store _ _ _ _ => S

/-- The pages taken from the allocator and not given back. -/
def held (t : List Effect) : Set Addr := t.foldl Effect.after ∅

/-- The effect changes, or gives back, a page of `S` only. -/
def Effect.Within (S : Set Addr) : Effect → Prop
  | .alloc _ => True
  | .free p | .clear p | .copy _ p | .store _ p _ _ => p ∈ S

/-- Every effect was within the pages held at that time. -/
def Confined (t : List Effect) : Prop :=
  ∀ t₁ e t₂, t = t₁ ++ e :: t₂ → e.Within (held t₁)

/-- Nothing is held before the first effect. -/
@[simp]
theorem held_nil : held [] = ∅ := rfl

/-- The last effect changes what was held. -/
@[simp]
theorem held_snoc (t : List Effect) (e : Effect) : held (t ++ [e]) = e.after (held t) := by
  rw [held, List.foldl_append]
  rfl

/-- No effect goes outside when there is none. -/
theorem confined_nil : Confined [] := by
  intro t₁ e t₂ h
  simp at h

/-- The last effect stays within what is held before it. -/
theorem confined_snoc {t : List Effect} {e : Effect} :
    Confined (t ++ [e]) ↔ Confined t ∧ e.Within (held t) := by
  constructor
  · intro h
    refine ⟨fun t₁ e₁ t₂ ht => h t₁ e₁ (t₂ ++ [e]) ?_, h t e [] rfl⟩
    rw [ht, List.append_assoc, List.cons_append]
  · rintro ⟨h, he⟩ t₁ e₁ t₂ ht
    -- a split of the longer trace ends behind the new effect, or it is one of the old trace
    cases t₂ using List.reverseRecOn with
    | nil =>
        obtain ⟨rfl, heq⟩ := List.append_inj' ht rfl
        obtain rfl : e = e₁ := by simpa using heq
        exact he
    | append_singleton t₂ e₂ =>
        rw [← List.cons_append, ← List.append_assoc] at ht
        obtain ⟨ht, -⟩ := List.append_inj' ht rfl
        exact h t₁ e₁ t₂ ht

/-- A page is taken for a root and cleared. -/
theorem held_root {p : Addr} (hne : p ≠ 0) :
    held [.alloc p, .clear p] = {p} ∧ Confined [.alloc p, .clear p] := by
  have hsplit : [Effect.alloc p, .clear p] = [] ++ [.alloc p] ++ [.clear p] := rfl
  rw [hsplit, confined_snoc, confined_snoc]
  simp only [held_snoc, Effect.Within, Effect.after, if_neg hne, held_nil, insert_empty_eq]
  exact ⟨trivial, ⟨confined_nil, trivial⟩, Set.mem_singleton p⟩

/-- `pmap_destroy` reads the links of one level with a mask of its own, which agrees with
`PTE_ADDR_MASK` on what `pmap_map_page` writes. -/
theorem Entry.and_not_eq_addr {e : Entry} {t : Addr} (hchild : e.child = some t)
    (he : e = tableEntry t) : e &&& ~~~0xFFF#64 = e.addr := by
  obtain ⟨-, -, haddr⟩ := Entry.child_eq_some_iff.mp hchild
  have ht : t &&& pteAddrMask = t := by
    rw [← haddr, Entry.addr, BitVec.and_assoc, BitVec.and_self]
  have hlow : (ptePresent ||| pteWritable ||| pteUser) &&& ~~~0xFFF#64 = 0#64 := by decide
  have hhigh : pteAddrMask &&& ~~~0xFFF#64 = pteAddrMask := by decide
  calc e &&& ~~~0xFFF#64 = t &&& ~~~0xFFF#64 := by
        rw [he, tableEntry_eq, BitVec.and_or_distrib_right, hlow, BitVec.or_zero]
    _ = t := by rw [← ht, BitVec.and_assoc, hhigh]
    _ = e.addr := haddr.symm

/-- The lower half of the root are the entries below 256. -/
theorem ofNat_mem_userTop {k : ℕ} (hk : k < 512) : BitVec.ofNat 9 k ∈ userTop ↔ k < 256 := by
  show BitVec.ofNat 9 k < 256#9 ↔ k < 256
  rw [BitVec.lt_def, BitVec.toNat_ofNat, Nat.mod_eq_of_lt hk]
  rfl

namespace PmState

variable {σ : Type*} [PageAllocator σ] [LawfulPageAllocator σ] {F : Shape Addr (BitVec 9)}
  {s s' : PmState σ}

/-! ### Which pages are tables after a move

One lemma for each move: the set of tables gains the new page, loses the dropped one, or stays as it
is. -/

omit [PageAllocator σ] [LawfulPageAllocator σ] in
/-- There are no tables below an entry that links to none. -/
theorem table_of_through {r p : Addr} {π : List (BitVec 9)} {i : BitVec 9}
    (hp : s.table r π = some p) (hnone : (s.mem p i).child = none) {r' : Addr}
    {π' : List (BitVec 9)} (hthrough : Through r π i r' π') : s.table r' π' = none := by
  obtain ⟨rfl, ρ, rfl⟩ := hthrough
  rw [table, node_append, node_snoc, show node Entry.child s.mem r' π = some p from hp]
  simp [hnone]

/-- A new table is one more table. -/
theorem Wf.isTable_linked (h : s.Wf F) {r p : Addr} {π : List (BitVec 9)} {i : BitVec 9}
    {level : Level} (hπ : F.Has r (π ++ [i])) (hp : s.table r π = some p)
    (hnot : (s.mem p i).present = false) (ht : s.allocPages.1 ≠ 0) (q : Addr) :
    (s.linked level p i).IsTable F q ↔ q = s.allocPages.1 ∨ s.IsTable F q := by
  have hchild := child_tableEntry s.allocPages_aligned
  constructor
  · rintro ⟨r', π', hπ', hq⟩
    rcases h.linkedAs_table_cases hπ.of_append hp ht hchild hπ' hq with hold | ⟨-, -, rfl⟩
    · exact Or.inr ⟨r', π', hπ', hold⟩
    · exact Or.inl rfl
  · rintro (rfl | ⟨r', π', hπ', hq⟩)
    · refine ⟨r, π ++ [i], hπ, ?_⟩
      exact (h.linkedAs_table hπ.of_append hp ht hchild hπ).trans (if_pos ⟨rfl, rfl⟩)
    -- what was a table before does not hang below the empty slot
    · have hthrough : ¬ Through r π i r' π' := by
        intro hthrough
        have hnone := table_of_through hp (Entry.child_of_not_present hnot) hthrough
        exact absurd (hnone.symm.trans hq) (by simp)
      refine ⟨r', π', hπ', (h.linkedAs_table hπ.of_append hp ht hchild hπ').trans ?_⟩
      rw [if_neg, if_neg hthrough]
      · exact hq
      · rintro ⟨rfl, rfl⟩
        exact hthrough ⟨rfl, List.prefix_refl _⟩

/-- A store that neither links to a table nor takes the place of a link changes no table. -/
theorem Wf.table_set (h : s.Wf F) {r p : Addr} {π : List (BitVec 9)} {i : BitVec 9} {level : Level}
    {v : Entry} (hπ : F.Has r π) (hp : s.table r π = some p)
    (hold : (s.mem p i).child = none ∨ π.length = F.depth)
    (hv : v.child = none ∨ π.length = F.depth) {r' : Addr} {π' : List (BitVec 9)}
    (hπ' : F.Has r' π') : (s.store level p i v).table r' π' = s.table r' π' := by
  rw [table, store_mem, node_write_none h.sep hπ hp hv hπ']
  split
  next hthrough =>
    rcases hold with hnone | hlen
    · exact (table_of_through hp hnone hthrough).symm
    · have := hthrough.2.length_le
      have := hπ'.2.1
      simp at *
      omega
  next => rfl

/-- The tables after one has been given back. -/
theorem Wf.table_drop (h : s.Wf F) {r p q : Addr} {π : List (BitVec 9)} {i : BitVec 9}
    {level : Level} {v : Entry} (hπ : F.Has r (π ++ [i])) (hp : s.table r π = some p)
    (hq : (s.mem p i).child = some q)
    (hbelow : ∀ j, F.Has r (π ++ [i] ++ [j]) → (s.mem q j).child = none) (hv : v.child = none)
    {r' : Addr} {π' : List (BitVec 9)} (hπ' : F.Has r' π') (q' : Addr) :
    ((s.freePages q).store level p i v).table r' π' = some q' ↔
      s.table r' π' = some q' ∧ q' ≠ q := by
  have htable : s.table r (π ++ [i]) = some q := by
    rw [table_snoc, hp]
    exact hq
  rw [table, store_mem, freePages_mem, node_write_none h.sep hπ.of_append hp (Or.inl hv) hπ']
  split
  -- below the entry there was one table, the one that is given back
  next hthrough =>
    obtain ⟨rfl, ρ, rfl⟩ := hthrough
    simp only [reduceCtorEq, false_iff, not_and, not_not]
    intro hq'
    cases ρ with
    | nil =>
        rw [List.append_nil, htable] at hq'
        exact (Option.some.inj hq').symm
    | cons j ρ =>
        have hlong : F.Has r' (π ++ [i] ++ [j] ++ ρ) := by simpa using hπ'
        have hthrough : Through r' (π ++ [i]) j r' (π ++ [i] ++ j :: ρ) := ⟨rfl, ρ, by simp⟩
        have hnone := table_of_through htable (hbelow j hlong.of_append) hthrough
        rw [hnone] at hq'
        cases hq'
  -- the other tables stay, and are not that one
  next hthrough =>
    refine ⟨fun hq' => ⟨hq', ?_⟩, fun hq' => hq'.1⟩
    rintro rfl
    obtain ⟨rfl, rfl⟩ := h.sep r' π' r (π ++ [i]) q' hπ' hπ hq' htable
    exact hthrough ⟨rfl, List.prefix_refl _⟩

/-! ### The invariant

The pages held and the tables of the tree are the same set. Every move keeps this, by what the
section above says of the tables and `held_snoc` says of the record. -/

/-- The pages held are the tables, everything done was done to pages held, and the links are those
of `pmap_map_page`. -/
structure Owns (F : Shape Addr (BitVec 9)) (s : PmState σ) : Prop where
  wf : s.Wf F
  mem_held : ∀ q, q ∈ held s.trace ↔ s.IsTable F q
  confined : Confined s.trace
  link_eq : ∀ r π i p t, F.Has r (π ++ [i]) → s.table r π = some p →
    (s.mem p i).child = some t → s.mem p i = tableEntry t

/-- Every move keeps it. -/
theorem Owns.move (h : Owns F s) (hmove : Move F s s') : Owns F s' := by
  have hwf' := (hmove.step h.wf).wf
  cases hmove with
  | refuse ht =>
      have htrace : s.allocPages.2.trace = s.trace ++ [.alloc s.allocPages.1] := rfl
      refine ⟨hwf', fun q => ?_, ?_, h.link_eq⟩
      · rw [htrace, held_snoc, ht]
        exact h.mem_held q
      · rw [htrace, confined_snoc]
        exact ⟨h.confined, trivial⟩
  | @link r p π i level hπ hp hnot ht =>
      have htrace : (s.linked level p i).trace = s.trace ++ [.alloc s.allocPages.1] ++
          [.clear s.allocPages.1] ++ [.store level p i (tableEntry s.allocPages.1)] := rfl
      have hheld : p ∈ held s.trace := (h.mem_held p).mpr ⟨r, π, hπ.of_append, hp⟩
      refine ⟨hwf', fun q => ?_, ?_, fun r' π' j q t hπ' hq hchild => ?_⟩
      · rw [htrace, held_snoc, held_snoc, held_snoc, h.wf.isTable_linked hπ hp hnot ht]
        simp only [Effect.after, if_neg ht, Set.mem_insert_iff, h.mem_held]
      · rw [htrace, confined_snoc, confined_snoc, confined_snoc]
        simp only [held_snoc, Effect.Within, Effect.after, if_neg ht]
        exact ⟨⟨⟨h.confined, trivial⟩, Set.mem_insert _ _⟩, Set.mem_insert_of_mem _ hheld⟩
      · rw [h.wf.linkedAs_mem hπ.of_append hp ht] at hchild ⊢
        split at hchild
        · rw [Entry.child_zero] at hchild
          cases hchild
        next hqt =>
          rw [if_neg hqt]
          split at hchild
          next hentry =>
            rw [if_pos hentry]
            rw [child_tableEntry s.allocPages_aligned] at hchild
            rw [Option.some.inj hchild]
          next hentry =>
            rw [if_neg hentry]
            rcases h.wf.linkedAs_table_cases hπ.of_append hp ht
              (child_tableEntry s.allocPages_aligned) hπ'.of_append hq with
              hold | ⟨-, -, heq⟩
            · exact h.link_eq r' π' j q t hπ' hold hchild
            · exact absurd heq hqt
  | @set r p π i level v hπ hi hp hold hv hhuge =>
      have htrace : (s.store level p i v).trace = s.trace ++ [.store level p i v] := rfl
      have htable : ∀ r' π', F.Has r' π' →
          (s.store level p i v).table r' π' = s.table r' π' :=
        fun _ _ hπ' => h.wf.table_set hπ hp hold hv hπ'
      refine ⟨hwf', fun q => ?_, ?_, fun r' π' j q t hπ' hq hchild => ?_⟩
      · rw [htrace, held_snoc]
        refine (h.mem_held q).trans ⟨?_, ?_⟩
        · rintro ⟨r', π', hπ', hq⟩
          exact ⟨r', π', hπ', (htable r' π' hπ').trans hq⟩
        · rintro ⟨r', π', hπ', hq⟩
          exact ⟨r', π', hπ', (htable r' π' hπ').symm.trans hq⟩
      · rw [htrace, confined_snoc]
        exact ⟨h.confined, (h.mem_held p).mpr ⟨r, π, hπ, hp⟩⟩
      · rw [htable r' π' hπ'.of_append] at hq
        rw [store_mem, write_apply] at hchild ⊢
        split at hchild
        next hentry =>
          -- an entry that links to a table is not at the last level
          obtain ⟨rfl, rfl⟩ := hentry
          obtain ⟨rfl, rfl⟩ := h.wf.sep r' π' r π q hπ'.of_append hπ hq hp
          rcases hv with hnone | hlen
          · rw [hnone] at hchild
            cases hchild
          · have := hπ'.2.1
            simp at this
            omega
        next hentry =>
          rw [if_neg hentry]
          exact h.link_eq r' π' j q t hπ' hq hchild
  | @drop r p q π i level v hπ hp hq hbelow hv hhuge =>
      have htrace : ((s.freePages q).store level p i v).trace =
          s.trace ++ [.free q] ++ [.store level p i v] := rfl
      have htable : ∀ r' π', F.Has r' π' → ∀ q',
          ((s.freePages q).store level p i v).table r' π' = some q' ↔
            s.table r' π' = some q' ∧ q' ≠ q :=
        fun _ _ hπ' q' => h.wf.table_drop hπ hp hq hbelow hv hπ' q'
      have hchildTable : s.table r (π ++ [i]) = some q := by
        rw [table_snoc, hp]
        exact hq
      have hne : p ≠ q := by
        rintro rfl
        obtain ⟨-, hlen⟩ := h.wf.sep r π r (π ++ [i]) p hπ.of_append hπ hp hchildTable
        have := congrArg List.length hlen
        simp at this
      refine ⟨hwf', fun q' => ?_, ?_, fun r' π' j q' t hπ' hq' hchild => ?_⟩
      · rw [htrace, held_snoc, held_snoc]
        simp only [Effect.after, Set.mem_sdiff, Set.mem_singleton_iff, h.mem_held]
        constructor
        · rintro ⟨⟨r', π', hπ', hq'⟩, hne'⟩
          exact ⟨r', π', hπ', (htable r' π' hπ' q').mpr ⟨hq', hne'⟩⟩
        · rintro ⟨r', π', hπ', hq'⟩
          obtain ⟨hq', hne'⟩ := (htable r' π' hπ' q').mp hq'
          exact ⟨⟨r', π', hπ', hq'⟩, hne'⟩
      · rw [htrace, confined_snoc, confined_snoc, held_snoc]
        refine ⟨⟨h.confined, (h.mem_held q).mpr ⟨r, _, hπ, hchildTable⟩⟩, ?_, hne⟩
        exact (h.mem_held p).mpr ⟨r, π, hπ.of_append, hp⟩
      · obtain ⟨hq', -⟩ := (htable r' π' hπ'.of_append q').mp hq'
        rw [store_mem, freePages_mem, write_apply] at hchild ⊢
        split at hchild
        · rw [hv] at hchild
          cases hchild
        next hentry =>
          rw [if_neg hentry]
          exact h.link_eq r' π' j q' t hπ' hq' hchild

/-- A move keeps what the tables own. -/
theorem Owns.moves (h : Owns F s) (hmoves : Moves F s s') : Owns F s' := by
  induction hmoves with
  | refl => exact h
  | tail _ hmove ih => exact ih.move hmove

/-! ### Destroying an address space

The loops of `pmap_destroy` go through the entries in order, so the invariant says which paths have
been given back so far. It is proved for a loop over the first `n` entries and used at each level.
-/

/-- In the course of `pmap_destroy`, which started in `s₀`: the tables at the paths `P` have been
given back, and the others are still held. -/
structure Freed (s₀ : PmState σ) (root : Addr) (P : Set (List (BitVec 9))) (s : PmState σ) :
    Prop where
  mem_eq : s.mem = s₀.mem
  mem_held : ∀ q, q ∈ held s.trace ↔
    ∃ π, (forest {root} userTop).Has root π ∧ π ∉ P ∧ s₀.table root π = some q
  confined : Confined s.trace

section Destroy

variable {s₀ : PmState σ} {root : Addr} {P P' : Set (List (BitVec 9))}

omit [PageAllocator σ] [LawfulPageAllocator σ] in
/-- Paths that lead to no table do not matter. -/
theorem Freed.congr (h : Freed s₀ root P s) (hP : ∀ π q, (forest {root} userTop).Has root π →
    s₀.table root π = some q → (π ∈ P ↔ π ∈ P')) : Freed s₀ root P' s := by
  refine ⟨h.mem_eq, fun q => (h.mem_held q).trans ⟨?_, ?_⟩, h.confined⟩
  · rintro ⟨π, hπ, hnot, hq⟩
    exact ⟨π, hπ, fun hmem => hnot ((hP π q hπ hq).mpr hmem), hq⟩
  · rintro ⟨π, hπ, hnot, hq⟩
    exact ⟨π, hπ, fun hmem => hnot ((hP π q hπ hq).mp hmem), hq⟩

omit [PageAllocator σ] [LawfulPageAllocator σ] in
/-- Below an entry that links to no table there is nothing to give back. -/
theorem Freed.skip (h : Freed s₀ root P s) {p : Addr} {π : List (BitVec 9)} {i : BitVec 9}
    (hp : s₀.table root π = some p) (hnone : (s₀.mem p i).child = none) :
    Freed s₀ root (P ∪ {ρ | π ++ [i] <+: ρ}) s := by
  refine h.congr fun ρ q _ hq => ⟨Or.inl, fun hρ => hρ.resolve_right fun hthrough => ?_⟩
  have hempty : s₀.table root ρ = none := table_of_through hp hnone ⟨rfl, hthrough⟩
  rw [hempty] at hq
  cases hq

variable (hsep : Separated Entry.child s₀.mem (forest {root} userTop))

include hsep

omit [LawfulPageAllocator σ] in
/-- A table is given back after those below it. -/
theorem Freed.free {π : List (BitVec 9)} (hP : ∀ ρ, π <+: ρ → ρ ∉ P)
    (h : Freed s₀ root (P ∪ {ρ | π <+: ρ ∧ ρ ≠ π}) s) (hπ : (forest {root} userTop).Has root π)
    {q : Addr} (hq : s₀.table root π = some q) :
    Freed s₀ root (P ∪ {ρ | π <+: ρ}) (s.freePages q) := by
  have htrace : (s.freePages q).trace = s.trace ++ [.free q] := rfl
  have hheld : q ∈ held s.trace := by
    refine (h.mem_held q).mpr ⟨π, hπ, ?_, hq⟩
    rintro (hmem | ⟨-, hne⟩)
    · exact hP π (List.prefix_refl π) hmem
    · exact hne rfl
  refine ⟨h.mem_eq, fun q' => ?_, ?_⟩
  · rw [htrace, held_snoc]
    simp only [Effect.after, Set.mem_sdiff, Set.mem_singleton_iff, h.mem_held]
    constructor
    -- a table that is still held is not on a path through this one
    · rintro ⟨⟨ρ, hρ, hnot, hq'⟩, hne⟩
      refine ⟨ρ, hρ, ?_, hq'⟩
      rintro (hmem | hbelow)
      · exact hnot (Or.inl hmem)
      · refine hnot (Or.inr ⟨hbelow, ?_⟩)
        rintro rfl
        exact hne (Option.some.inj (hq'.symm.trans hq))
    · rintro ⟨ρ, hρ, hnot, hq'⟩
      refine ⟨⟨ρ, hρ, fun hmem => hnot (hmem.imp id And.left), hq'⟩, ?_⟩
      rintro rfl
      obtain ⟨-, rfl⟩ := hsep root ρ root π q' hρ hπ hq' hq
      exact hnot (Or.inr (List.prefix_refl ρ))
  · rw [htrace, confined_snoc]
    exact ⟨h.confined, hheld⟩

omit [PageAllocator σ] [LawfulPageAllocator σ] hsep in
/-- The loops of `pmap_destroy`, over the first `n` entries of the table at `π`. -/
theorem Freed.loop {π : List (BitVec 9)} {n : ℕ} (hn : n ≤ 512)
    {f : PmState σ → ℕ → PmState σ} (hP : ∀ ρ, π <+: ρ → ρ ∉ P)
    (hf : ∀ k < n, ∀ P' s', Freed s₀ root P' s' → (∀ ρ, π ++ [BitVec.ofNat 9 k] <+: ρ → ρ ∉ P') →
      Freed s₀ root (P' ∪ {ρ | π ++ [BitVec.ofNat 9 k] <+: ρ}) (f s' k))
    (h : Freed s₀ root P s) :
    Freed s₀ root (P ∪ {ρ | ∃ k < n, π ++ [BitVec.ofNat 9 k] <+: ρ})
      ((List.range n).foldl f s) := by
  induction n with
  | zero =>
      refine h.congr fun ρ q _ _ => ⟨Or.inl, ?_⟩
      rintro (hmem | ⟨k, hk, -⟩)
      · exact hmem
      · exact absurd hk (Nat.not_lt_zero k)
  | succ n ih =>
      rw [List.range_succ, List.foldl_append]
      refine (hf n (Nat.lt_succ_self n) _ _
        (ih (by omega) fun k hk => hf k (by omega)) fun ρ hρ => ?_).congr fun ρ q _ _ => ?_
      · rintro (hmem | ⟨k, hk, hρ'⟩)
        · exact hP ρ ((List.prefix_append _ _).trans hρ) hmem
        · -- no path goes through two entries of a table
          have heq := (List.prefix_of_prefix_length_le hρ hρ' (by simp)).eq_of_length (by simp)
          have hindex : BitVec.ofNat 9 n = BitVec.ofNat 9 k := by simpa using heq
          have := congrArg BitVec.toNat hindex
          simp at this
          omega
      · constructor
        · rintro ((hmem | ⟨k, hk, hρ⟩) | hρ)
          · exact Or.inl hmem
          · exact Or.inr ⟨k, by omega, hρ⟩
          · exact Or.inr ⟨n, by omega, hρ⟩
        · rintro (hmem | ⟨k, hk, hρ⟩)
          · exact Or.inl (Or.inl hmem)
          · rcases Nat.lt_succ_iff_lt_or_eq.mp hk with hlt | rfl
            · exact Or.inl (Or.inr ⟨k, hlt, hρ⟩)
            · exact Or.inr hρ

omit [PageAllocator σ] [LawfulPageAllocator σ] hsep in
/-- A loop over all entries of a table reaches everything below it. -/
theorem below_iff {π ρ : List (BitVec 9)} :
    (∃ k < 512, π ++ [BitVec.ofNat 9 k] <+: ρ) ↔ π <+: ρ ∧ ρ ≠ π := by
  constructor
  · rintro ⟨k, -, hρ⟩
    refine ⟨(List.prefix_append _ _).trans hρ, ?_⟩
    rintro rfl
    have := hρ.length_le
    simp only [List.length_append, List.length_singleton] at this
    omega
  · rintro ⟨⟨ρ, rfl⟩, hne⟩
    cases ρ with
    | nil => simp at hne
    | cons i ρ =>
        refine ⟨i.toNat, i.isLt, ρ, ?_⟩
        simp

omit [LawfulPageAllocator σ] in
/-- The innermost loop of `pmap_destroy`. -/
theorem Freed.destroyPd (h : Freed s₀ root P s) {π : List (BitVec 9)} (hlen : π.length = 2)
    (hπ : (forest {root} userTop).Has root π) (hP : ∀ ρ, π <+: ρ → ρ ∉ P) {pd : Addr}
    (hpd : s₀.table root π = some pd) :
    Freed s₀ root (P ∪ {ρ | π <+: ρ ∧ ρ ≠ π}) (s.destroyPd pd) := by
  refine (Freed.loop (n := 512) (by omega) hP (fun k _ P' s' h' hP' => ?_) h).congr
    fun ρ q _ _ => or_congr_right below_iff
  have hπ' : (forest {root} userTop).Has root (π ++ [BitVec.ofNat 9 k]) :=
    hπ.snoc (by rw [hlen]; exact Nat.lt_succ_self 2) fun hnil => by simp [hnil] at hlen
  dsimp only
  rw [h'.mem_eq]
  split
  next hentry =>
    have hchild := Entry.child_eq_some hentry.1 (by simpa using hentry.2)
    have htable : s₀.table root (π ++ [BitVec.ofNat 9 k]) =
        some (s₀.mem pd (BitVec.ofNat 9 k)).addr := by
      rw [table_snoc, hpd]
      exact hchild
    refine (h'.congr fun ρ q hρ _ => ⟨Or.inl, fun hmem => hmem.resolve_right ?_⟩).free hsep hP' hπ'
      htable
    -- there are no tables below the last level
    rintro ⟨hbelow, hne⟩
    refine hne (hbelow.eq_of_length_le ?_).symm
    have := hρ.2.1
    simp [hlen]
    exact this
  next hentry =>
    exact h'.skip hpd (by simpa [Entry.child] using hentry)

omit [LawfulPageAllocator σ] in
/-- The middle loop of `pmap_destroy`, where the links are those of `pmap_map_page`. -/
theorem Freed.destroyPdpt (h : Freed s₀ root P s) {π : List (BitVec 9)} (hlen : π.length = 1)
    (hπ : (forest {root} userTop).Has root π) (hP : ∀ ρ, π <+: ρ → ρ ∉ P) {pdpt : Addr}
    (hpdpt : s₀.table root π = some pdpt)
    (hlink : ∀ i t, (s₀.mem pdpt i).child = some t → s₀.mem pdpt i = tableEntry t) :
    Freed s₀ root (P ∪ {ρ | π <+: ρ ∧ ρ ≠ π}) (s.destroyPdpt pdpt) := by
  refine (Freed.loop (n := 512) (by omega) hP (fun k _ P' s' h' hP' => ?_) h).congr
    fun ρ q _ _ => or_congr_right below_iff
  have hπ' : (forest {root} userTop).Has root (π ++ [BitVec.ofNat 9 k]) :=
    hπ.snoc (by rw [hlen]; exact Nat.lt_trans Nat.one_lt_two (Nat.lt_succ_self 2))
      fun hnil => by simp [hnil] at hlen
  dsimp only
  rw [h'.mem_eq]
  split
  next hentry =>
    have hchild := Entry.child_eq_some hentry.1 (by simpa using hentry.2)
    -- `& ~0xFFF` and `& PTE_ADDR_MASK` agree on a link
    have haddr := Entry.and_not_eq_addr hchild (hlink _ _ hchild)
    have htable : s₀.table root (π ++ [BitVec.ofNat 9 k]) =
        some (s₀.mem pdpt (BitVec.ofNat 9 k)).addr := by
      rw [table_snoc, hpdpt]
      exact hchild
    rw [haddr]
    exact (h'.destroyPd hsep (by simp [hlen]) hπ' hP' htable).free hsep hP' hπ' htable
  next hentry =>
    exact h'.skip hpdpt (by simpa [Entry.child] using hentry)

end Destroy

/-- `pmap_destroy` gives back everything that is held. -/
theorem Owns.destroy {root : Addr} (h : Owns (forest {root} userTop) s) :
    held (s.pmapDestroy root).trace = ∅ ∧ Confined (s.pmapDestroy root).trace := by
  -- before the loop nothing is freed, after it all that is below the root
  have hstart : Freed s root ∅ s := by
    refine ⟨rfl, fun q => (h.mem_held q).trans ⟨?_, ?_⟩, h.confined⟩
    · rintro ⟨r, π, hπ, hq⟩
      obtain rfl : r = root := hπ.1
      exact ⟨π, hπ, Set.notMem_empty π, hq⟩
    · rintro ⟨π, hπ, -, hq⟩
      exact ⟨root, π, hπ, hq⟩
  have hroot : (forest {root} userTop).Has root [] := Shape.has_nil rfl
  have htop := Freed.loop (π := []) (n := 256) (by omega) (by simp)
    (f := fun s i => let e := s.mem root (BitVec.ofNat 9 i)
      if e.present then (s.destroyPdpt e.addr).freePages e.addr else s) ?_ hstart
  · have hbelow : Freed s root (∅ ∪ {ρ | [] <+: ρ ∧ ρ ≠ []}) _ := htop.congr fun ρ q hρ _ => ?_
    · have hall := hbelow.free h.wf.sep (by simp) hroot rfl
      refine ⟨Set.eq_empty_iff_forall_notMem.mpr fun q hq => ?_, hall.confined⟩
      obtain ⟨π, -, hnot, -⟩ := (hall.mem_held q).mp hq
      exact hnot (Or.inr List.nil_prefix)
    · refine or_congr_right ⟨fun hρ' => below_iff.mp ?_, fun hρ' => ?_⟩
      · obtain ⟨k, hk, hρ'⟩ := hρ'
        exact ⟨k, by omega, hρ'⟩
      · obtain ⟨k, hk, hk'⟩ := below_iff.mpr hρ'
        obtain ⟨ρ', rfl⟩ := hk'
        exact ⟨k, (ofNat_mem_userTop hk).mp (hρ.2.2 _ rfl), ρ', rfl⟩
  · intro k hk P s' h' hP
    have hπ : (forest {root} userTop).Has root ([] ++ [BitVec.ofNat 9 k]) :=
      hroot.snoc (Nat.zero_lt_succ 2) fun _ => (ofNat_mem_userTop (by omega)).mpr hk
    dsimp only
    rw [h'.mem_eq]
    split
    next hpresent =>
      -- one round frees the tables below one entry, and the PDPT last
      have hchild := Entry.child_eq_some hpresent (h.wf.upper root [] root _ hπ (by simp) rfl)
      have htable : s.table root ([] ++ [BitVec.ofNat 9 k]) =
          some (s.mem root (BitVec.ofNat 9 k)).addr := (s.table_snoc root [] _).trans hchild
      refine (h'.destroyPdpt h.wf.sep rfl hπ hP htable fun i t ht => ?_).free h.wf.sep hP hπ htable
      exact h.link_eq root [BitVec.ofNat 9 k] i _ t
        (hπ.snoc (Nat.succ_lt_succ (Nat.zero_lt_succ 1)) (by simp)) htable ht
    next hpresent =>
      exact h'.skip (π := []) rfl (Entry.child_of_not_present (by simpa using hpresent))

/-! ### From `pmap_create` to `pmap_destroy`

A life begins with an empty record and a fresh root. In between come `pmap_map` for normal pages and
`pmap_unmap`, each a sequence of moves. -/

/-- Memory that agrees on the tables has the same owner. -/
theorem Owns.congr (h : Owns F s) (hmem : ∀ q ∈ held s.trace, s'.mem q = s.mem q)
    (halloc : ∀ q ∈ held s.trace, s'.Allocated q) (htrace : s'.trace = s.trace) : Owns F s' := by
  -- the tables are the pages held, so that agreeing there is enough
  have hmem' : ∀ q, s.IsTable F q → s'.mem q = s.mem q := fun q hq =>
    hmem q ((h.mem_held q).mpr hq)
  have htable : ∀ r π, F.Has r π → s'.table r π = s.table r π := fun r π hπ =>
    node_congr hmem' hπ
  refine ⟨?_, fun q => ?_, ?_, fun r π i p t hπ hp hchild => ?_⟩
  · exact h.wf.congr hmem' fun q hq _ _ => halloc q ((h.mem_held q).mpr hq)
  · rw [htrace, h.mem_held]
    constructor
    · rintro ⟨r, π, hπ, hq⟩
      exact ⟨r, π, hπ, (htable r π hπ).trans hq⟩
    · rintro ⟨r, π, hπ, hq⟩
      exact ⟨r, π, hπ, (htable r π hπ).symm.trans hq⟩
  · rw [htrace]
    exact h.confined
  · rw [htable r π hπ.of_append] at hp
    rw [hmem' p ⟨r, π, hπ.of_append, hp⟩] at hchild ⊢
    exact h.link_eq r π i p t hπ hp hchild

/-- A new root, whose entries in `top` are zero, owns itself. -/
theorem owns_of_zero {root : Addr} {top : Set (BitVec 9)} (hne : root ≠ 0)
    (halloc : s.Allocated root) (hzero : ∀ i ∈ top, s.mem root i = 0#64)
    (hheld : held s.trace = {root}) (hconfined : Confined s.trace) :
    Owns (forest {root} top) s := by
  -- a root of zero entries reaches no table but itself
  have hnil : ∀ r π q, (forest {root} top).Has r π → s.table r π = some q →
      r = root ∧ π = [] ∧ q = root := by
    rintro r π q ⟨rfl, -, htop⟩ hq
    cases π with
    | nil => exact ⟨rfl, rfl, (Option.some.inj hq).symm⟩
    | cons i π =>
        rw [table, node, hzero i (htop i rfl), Entry.child_zero] at hq
        cases hq
  refine ⟨wf_of_zero hne halloc hzero, fun q => ?_, hconfined, fun r π i p t hπ hp hchild => ?_⟩
  · rw [hheld]
    constructor
    · rintro rfl
      exact ⟨q, [], Shape.has_nil rfl, rfl⟩
    · rintro ⟨r, π, hπ, hq⟩
      exact (hnil r π q hπ hq).2.2
  · obtain ⟨rfl, rfl, rfl⟩ := hnil r π p hπ.of_append hp
    rw [hzero i (hπ.2.2 i rfl), Entry.child_zero] at hchild
    cases hchild

/-- `pmap_create`, for the entries that are zero then. -/
theorem owns_pmapCreate {s₀ : PmState σ} {kernelRoot : Addr} {top : Set (BitVec 9)}
    (hne : (s₀.pmapCreate kernelRoot).1 ≠ 0)
    (hzero : ∀ i ∈ top, ({ s₀ with trace := [] }.pmapCreate kernelRoot).2.mem
      (s₀.pmapCreate kernelRoot).1 i = 0#64) :
    Owns (forest {(s₀.pmapCreate kernelRoot).1} top)
      ({ s₀ with trace := [] }.pmapCreate kernelRoot).2 := by
  have htrace : ({ s₀ with trace := [] }.pmapCreate kernelRoot).2.trace =
      [.alloc (s₀.pmapCreate kernelRoot).1, .clear (s₀.pmapCreate kernelRoot).1] ++
        [.copy kernelRoot (s₀.pmapCreate kernelRoot).1] := rfl
  obtain ⟨hheld, hconfined⟩ := held_root hne
  refine owns_of_zero hne (LawfulPageAllocator.alloc_mem s₀.pmm hne) hzero ?_ ?_
  · rw [htrace, held_snoc]
    exact hheld
  · rw [htrace, confined_snoc, hheld]
    exact ⟨hconfined, Set.mem_singleton _⟩

/-- The life of an address space that `pmap_create` made in the state `s₀`, where the record of
effects starts: calls of `pmap_map` for normal pages, whether they succeed or not, and of
`pmap_unmap`, all in the user half. In between the rest of the kernel leaves the pages of the
address space alone. -/
inductive Lifetime (s₀ : PmState σ) (kernelRoot : Addr) : PmState σ → Prop
  | create : Lifetime s₀ kernelRoot ({ s₀ with trace := [] }.pmapCreate kernelRoot).2
  | map {s s' : PmState σ} {fuel : ℕ} {virt phys size : Addr} {flags : BitVec 32} {ok : Bool}
      (hrun : Lifetime s₀ kernelRoot s) (hflags : hasProt flags protHuge = false)
      (hrange : virt.toNat + size.toNat ≤ 2 ^ 47)
      (hmap : s.pmapMap fuel (s₀.pmapCreate kernelRoot).1 virt phys size flags = some (ok, s')) :
      Lifetime s₀ kernelRoot s'
  | unmap {s s' : PmState σ} {fuel : ℕ} {virt size : Addr} (hrun : Lifetime s₀ kernelRoot s)
      (hrange : virt.toNat + size.toNat ≤ 2 ^ 47)
      (hunmap : s.pmapUnmap fuel (s₀.pmapCreate kernelRoot).1 virt size = some s') :
      Lifetime s₀ kernelRoot s'
  | other {s s' : PmState σ} (hrun : Lifetime s₀ kernelRoot s)
      (hmem : ∀ q ∈ held s.trace, s'.mem q = s.mem q)
      (halloc : ∀ q ∈ held s.trace, s'.Allocated q) (htrace : s'.trace = s.trace) :
      Lifetime s₀ kernelRoot s'

section Lifetime

variable {s₀ : PmState σ} {kernelRoot : Addr}

/-- What holds throughout the life of an address space. -/
theorem Lifetime.owns (hne : (s₀.pmapCreate kernelRoot).1 ≠ 0) (hrun : Lifetime s₀ kernelRoot s) :
    Owns (forest {(s₀.pmapCreate kernelRoot).1} userTop) s ∧
      s.Plain (forest {(s₀.pmapCreate kernelRoot).1} userTop) (s₀.pmapCreate kernelRoot).1 := by
  -- ranges of user addresses stay in the lower half when they are rounded up
  have hlow : ∀ flags virt size, hasProt flags protHuge = false →
      virt.toNat + size.toNat ≤ 2 ^ 47 → (mapEnd flags virt size).toNat ≤ 2 ^ 47 := by
    intro flags virt size hflags hrange
    have hstep : mapStep flags = pageSize := if_neg (by simp [hflags])
    rw [mapEnd, hstep, pageMask, toNat_roundUp hrange]
    omega
  have htop : ∀ va vaEnd : Addr, vaEnd.toNat ≤ 2 ^ 47 →
      InTop (forest {(s₀.pmapCreate kernelRoot).1} userTop) va vaEnd := by
    intro va vaEnd hend va' _ hlt
    rw [BitVec.lt_def] at hlt
    exact pml4Index_mem_userTop (by omega)
  induction hrun with
  | create =>
      have hzero : ∀ i ∈ userTop, ({ s₀ with trace := [] }.pmapCreate kernelRoot).2.mem
          (s₀.pmapCreate kernelRoot).1 i = 0#64 :=
        fun i hi => pmapCreate_mem_user (s := { s₀ with trace := [] }) kernelRoot hi
      refine ⟨owns_pmapCreate hne hzero, fun va hva e ρ hfound => ?_⟩
      rw [leaf_of_table (π := []) rfl rfl, hzero _ hva,
        findFrom_of_not_present Entry.present_zero] at hfound
      cases hfound
  | @map _ _ _ virt _ _ flags _ _ hflags hrange hmap ih =>
      obtain ⟨howns, hplain⟩ := ih
      have hin := htop (mapStart flags virt) _ (hlow _ _ _ hflags hrange)
      have hmapped := howns.wf.pmapMap rfl hin
        (fun _ va' hle hlt => hplain va' (hin va' hle hlt)) hmap
      exact ⟨howns.moves hmapped.moves, fun va hva => hmapped.plain hflags hva (hplain va hva)⟩
  | unmap _ hrange hunmap ih =>
      obtain ⟨howns, hplain⟩ := ih
      have hend := toNat_roundUp hrange
      obtain ⟨hmoves, hkeep⟩ := howns.wf.pmapUnmap rfl (htop _ _ (by omega)) (Or.inr (by omega))
        hunmap
      exact ⟨howns.moves hmoves, hkeep hplain⟩
  -- The rest of the kernel does not touch the tables that are held.
  | other _ hmem halloc htrace ih =>
      obtain ⟨howns, hplain⟩ := ih
      refine ⟨howns.congr hmem halloc htrace, fun va hva e ρ hfound => hplain va hva e ρ ?_⟩
      rw [← hfound]
      refine (find_congr (fun q hq => ?_) (howns.wf.covers rfl hva)).symm
      exact hmem q ((howns.mem_held q).mpr hq)

end Lifetime

/-- Entry `i` of the table `p`, in the user half below `root`, links to the table `q`. -/
def Links (s : PmState σ) (root p : Addr) (i : BitVec 9) (q : Addr) : Prop :=
  ∃ π, (forest {root} userTop).Has root (π ++ [i]) ∧ s.table root π = some p ∧
    (s.mem p i).child = some q

/-- Every table but the root is linked to by one entry. -/
theorem Owns.existsUnique_link {root q : Addr} (h : Owns (forest {root} userTop) s)
    (hq : q ∈ held s.trace) (hne : q ≠ root) : ∃! x : Addr × BitVec 9, s.Links root x.1 x.2 q := by
  obtain ⟨r, π, hπ, htable⟩ := (h.mem_held q).mp hq
  obtain rfl : r = root := hπ.1
  cases π using List.reverseRecOn with
  | nil => exact absurd (Option.some.inj htable).symm hne
  | append_singleton π i =>
      have hsnoc := (s.table_snoc r π i).symm.trans htable
      obtain ⟨p, hp, hchild⟩ := Option.bind_eq_some_iff.mp hsnoc
      refine ⟨(p, i), ⟨π, hπ, hp, hchild⟩, ?_⟩
      rintro ⟨p', i'⟩ ⟨π', hπ', hp', hchild'⟩
      have htable' : s.table r (π' ++ [i']) = some q := by
        rw [table_snoc, hp']
        exact hchild'
      -- two links to `q` would give it two paths, but every table has one
      obtain ⟨-, hpath⟩ := h.wf.sep r (π' ++ [i']) r (π ++ [i]) q hπ' hπ htable' htable
      obtain ⟨rfl, hindex⟩ := List.append_inj' hpath rfl
      obtain rfl : i' = i := by simpa using hindex
      rw [hp] at hp'
      rw [Option.some.inj hp']

/-- Throughout the life of an address space the pages held are its tables, each of which is linked
to by one entry, but for the root; nothing was given back, or stored to, that was not held at that
time. `pmap_destroy` gives back what is held then, once each. -/
theorem held_of_lifetime {s₀ : PmState σ} {kernelRoot : Addr}
    (hne : (s₀.pmapCreate kernelRoot).1 ≠ 0) (hrun : Lifetime s₀ kernelRoot s) :
    (∀ q, q ∈ held s.trace ↔ q = (s₀.pmapCreate kernelRoot).1 ∨
      ∃ p i, s.Links (s₀.pmapCreate kernelRoot).1 p i q) ∧
    (∀ q ∈ held s.trace, q ≠ (s₀.pmapCreate kernelRoot).1 →
      ∃! x : Addr × BitVec 9, s.Links (s₀.pmapCreate kernelRoot).1 x.1 x.2 q) ∧
    Confined s.trace ∧
    held (s.pmapDestroy (s₀.pmapCreate kernelRoot).1).trace = ∅ ∧
    Confined (s.pmapDestroy (s₀.pmapCreate kernelRoot).1).trace := by
  obtain ⟨howns, -⟩ := hrun.owns hne
  obtain ⟨hempty, hconfined⟩ := howns.destroy
  refine ⟨fun q => ⟨fun hq => ?_, ?_⟩, fun q hq hroot => howns.existsUnique_link hq hroot,
    howns.confined, hempty, hconfined⟩
  -- a page held is a table of the forest; below the root each has the link that reaches it
  · by_cases hroot : q = (s₀.pmapCreate kernelRoot).1
    · exact Or.inl hroot
    · obtain ⟨x, hx, -⟩ := howns.existsUnique_link hq hroot
      exact Or.inr ⟨x.1, x.2, hx⟩
  · rintro (rfl | ⟨p, i, π, hπ, hp, hchild⟩)
    · exact (howns.mem_held _).mpr ⟨_, [], Shape.has_nil rfl, rfl⟩
    · refine (howns.mem_held q).mpr ⟨_, π ++ [i], hπ, ?_⟩
      apply (s.table_snoc _ π i).trans
      rw [hp]
      exact hchild

/-- Two pages are mapped and one of them is unmapped again, which leaves four tables for
`pmap_destroy`. -/
theorem held_of_lifetime_twoPages : ∃ s, Lifetime blank 0x80000#64 s ∧
    (blank.pmapCreate 0x80000#64).1 ≠ 0 ∧
    .alloc 0x4000#64 ∈ s.trace ∧
      held (s.pmapDestroy (blank.pmapCreate 0x80000#64).1).trace = ∅ := by
  have hne : (blank.pmapCreate 0x80000#64).1 ≠ 0 := by decide
  have hcheck : (((blank.pmapCreate 0x80000#64).2.pmapMap 3 (blank.pmapCreate 0x80000#64).1
      0x400000#64 0x5000#64 0x2000#64 (protRead ||| protWrite)).any fun x =>
        (x.2.pmapUnmap 2 (blank.pmapCreate 0x80000#64).1 0x401000#64 0x1000#64).any fun s =>
          s.trace.contains (.alloc 0x4000#64)) = true := by
    decide +kernel
  obtain ⟨⟨ok, s₁⟩, hmap, hcheck⟩ := (Option.any_eq_true _ _).mp hcheck
  obtain ⟨s₂, hunmap, hcheck⟩ := (Option.any_eq_true _ _).mp hcheck
  -- two pages mapped, which takes three tables, and one of them unmapped again
  have hcreate : Lifetime blank 0x80000#64 (blank.pmapCreate 0x80000#64).2 := Lifetime.create
  have hrun := (hcreate.map (by decide) (by decide) hmap).unmap (by decide) hunmap
  obtain ⟨-, -, -, hempty, -⟩ := held_of_lifetime hne hrun
  exact ⟨s₂, hrun, hne, List.contains_iff_mem.mp hcheck, hempty⟩

end PmState

end Koharu
