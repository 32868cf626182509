import Koharu.Task.GrantInvariant
import Koharu.Task.Syscall

/-!
# Delegation of rights

Rights on frames are passed on by `SYS_GRANT`. The rights start from the root server: it has all
rights on the frames of the pool as long as nobody has an entry for them, and `rootserver_boot`
gives it entries for the framebuffer.

* `GrantCalls` is any sequence of `SYS_GRANT` calls, with the other things that go on between them;
* `rights_not_amplified` says that the calls only pass on rights that somebody has;
* `Chain` is a chain of calls that leads from the root server to a pmap in which every granter may
  grant. `SYS_GRANT` does not ask for `GRANT_GRANT`, so it exists only if the callers do
  (`chain_of_grantCalls`, `grant_without_chain`).
-/

namespace Koharu

namespace Kernel

variable {σ : Type} {s s' : Kernel σ}

/-! ### The grants of `rootserver_boot`

Where every chain starts: the root server has entries for the framebuffer, and the pool stands for
the rest of the memory. -/

/-- The loop of `rootserver_boot` over the framebuffer. Boot stops when an entry cannot be made. -/
def grantFramebuffer (paEnd : Addr) : ℕ → Addr → Kernel σ → Option (Kernel σ)
  | 0, _, _ => none
  | fuel + 1, pa, s =>
      if pa < paEnd then do
        let (ok, s) ← s.grantAdd true s.rootPmap (physToPfn pa)
          (grantRead ||| grantWrite ||| grantGrant)
        if ok then grantFramebuffer paEnd fuel (pa + pageSize) s else none
      else some s

/-- The state `rootserver_boot` leaves: the root server has entries for the framebuffer, and the
pool has been built. -/
def GrantsBooted (s₀ : Kernel σ) : Prop :=
  ∃ (e s : Kernel σ) (fuel : ℕ) (fbPhys fbBytes : Addr), e.NoGrants ∧
    grantFramebuffer (fbPhys + fbBytes) fuel fbPhys e = some s ∧ s₀ = { s with pool := s₀.pool }

/-- The loop is a history of calls for one pmap. -/
theorem account_of_grantFramebuffer {paEnd : Addr} (fuel : ℕ) {pa : Addr}
    {history : List (GrantOp × Bool)} (h : s.Account {s.rootPmap} history)
    (hfb : grantFramebuffer paEnd fuel pa s = some s') :
    ∃ history', s'.Account {s'.rootPmap} history' := by
  induction fuel generalizing s pa history with
  | zero => cases hfb
  | succ fuel ih =>
      rw [grantFramebuffer] at hfb
      split at hfb
      · obtain ⟨⟨ok, s₁⟩, hadd, hfb⟩ := Option.bind_eq_some_iff.mp hfb
        dsimp only at hfb
        split at hfb
        · have hroot : s₁.rootPmap = s.rootPmap := by
            obtain ⟨-, rfl⟩ | ⟨-, -, p, -, refs, rfl, -⟩ := grantAdd_cases hadd
            · rfl
            · rfl
          -- each page granted is one more entry of the root's list that the history accounts for
          have hacc := h.grantAdd (by simp) (Finset.mem_singleton_self _) hadd
          rw [← hroot] at hacc
          exact ih hacc hfb
        · cases hfb
      · cases hfb
        exact ⟨history, h⟩

/-- The counts are right when the root server starts. -/
theorem GrantsBooted.counted {s₀ : Kernel σ} (h : s₀.GrantsBooted) : s₀.Counted := by
  obtain ⟨e, s, fuel, fbPhys, fbBytes, hempty, hfb, hs₀⟩ := h
  have hacc : e.Account {e.rootPmap} [] := account_of_run (by simp) hempty .nil (by simp)
  obtain ⟨history, hacc⟩ := account_of_grantFramebuffer fuel hacc hfb
  rw [hs₀]
  exact ⟨hacc.counted.nodup, hacc.counted.finite, hacc.counted.refs⟩

/-! ### Sequences of `SYS_GRANT` calls

A run records who granted which rights to whom. Between two calls anything may happen that adds no
grant. -/

/-- The list of grants at an address. -/
def grantsAt (s : Kernel σ) (ptr : Addr) : List GrantEntry :=
  ((s.pmaps ptr).map Pmap.grants).getD []

/-- The rights are looked up in the list of the pmap. -/
theorem rightsOn_eq (s : Kernel σ) (ptr : Addr) (f : BitVec 64) :
    s.rightsOn ptr f = lookupRights (s.grantsAt ptr) f := by
  rw [rightsOn, grantsAt]
  cases s.pmaps ptr <;> rfl

/-- What goes on between the calls: other threads run, threads and address spaces come and go, and
the root server clears bits of the pool, but no grants are made. -/
structure Between (s s' : Kernel σ) : Prop where
  grants : ∀ ptr, s'.grantsAt ptr = s.grantsAt ptr
  refs : s'.refs = s.refs
  frames : s'.frames = s.frames
  rootPmap : s'.rootPmap = s.rootPmap
  pool : ∀ f, s'.pool f = true → s.pool f = true

/-- A successful call of `SYS_GRANT`. -/
structure Grant where
  /-- The pmap of the caller. -/
  granter : Addr
  /-- The pmap of the target. -/
  target : Addr
  pfn : BitVec 64
  /-- Whether the granter had the right to grant the frame. -/
  mayGrant : Bool
  deriving DecidableEq

/-- The record of a call. -/
def grantRecord (s : Kernel σ) (a1 a2 : BitVec 64) : Grant where
  granter := s.cur.pmap
  target := (s.thread a1).pmap
  pfn := physToPfn a2
  mayGrant := s.grantHolds s.cur.pmap (physToPfn a2) grantGrant = some true

/-- Any number of `SYS_GRANT` calls by any threads, the successful ones recorded with the latest
first. A successful call leads to a state that is `within` a bound: with `fun _ => True` there is
none, with `Few` fewer than `2 ^ 16` pmaps have an entry for a frame. -/
inductive GrantCalls (within : Kernel σ → Prop) (s₀ : Kernel σ) : List Grant → Kernel σ → Prop
  | nil : GrantCalls within s₀ [] s₀
  | call {history s s' kmalloc a1 a2 a3} (hcalls : GrantCalls within s₀ history s)
      (hcall : s.sysGrant kmalloc a1 a2 a3 = some (0, s')) (hwithin : within s') :
      GrantCalls within s₀ (s.grantRecord a1 a2 :: history) s'
  | fail {history s s' kmalloc a1 a2 a3 v} (hcalls : GrantCalls within s₀ history s)
      (hcall : s.sysGrant kmalloc a1 a2 a3 = some (v, s')) (hv : v ≠ 0) :
      GrantCalls within s₀ history s'
  | between {history s s'} (hcalls : GrantCalls within s₀ history s) (hbetween : s.Between s') :
      GrantCalls within s₀ history s'

/-- Calls may be followed by further calls. -/
theorem GrantCalls.trans {within : Kernel σ → Prop} {s₀ : Kernel σ} {history history' : List Grant}
    (h : GrantCalls within s₀ history s) (h' : GrantCalls within s history' s') :
    GrantCalls within s₀ (history' ++ history) s' := by
  induction h' with
  | nil => exact h
  | call _ hcall hwithin ih => exact .call ih hcall hwithin
  | fail _ hcall hv ih => exact .fail ih hcall hv
  | between _ hbetween ih => exact .between ih hbetween

/-- Calls within a bound are within any weaker one. -/
theorem GrantCalls.mono {within within' : Kernel σ → Prop} (hle : ∀ s, within s → within' s)
    {s₀ : Kernel σ} {history : List Grant} (h : GrantCalls within s₀ history s) :
    GrantCalls within' s₀ history s := by
  induction h with
  | nil => exact .nil
  | call _ hcall hwithin ih => exact .call ih hcall (hle _ hwithin)
  | fail _ hcall hv ih => exact .fail ih hcall hv
  | between _ hbetween ih => exact .between ih hbetween

/-! ### One call

What a single call changes in the rights of a pmap, and that none of the rights are new to the
frame. -/

/-- A right that a pmap has comes from an entry, or it is the root server's. -/
theorem of_grantHolds {ptr : Addr} {f : BitVec 64} {r : BitVec 8}
    (h : s.grantHolds ptr f r = some true) :
    (ptr = s.rootPmap ∧ s.grantPoolTest f = true ∧ s.refs f = 0) ∨
      ∃ x, s.rightsOn ptr f = some x ∧ x &&& r = r := by
  rw [grantHolds] at h
  split at h
  · cases h
  split at h
  -- the root holds every frame of the pool that nobody has been given
  next himplicit => exact Or.inl himplicit
  next =>
    obtain ⟨p, hp, h⟩ := Option.bind_eq_some_iff.mp h
    split at h
    next e hfind =>
      refine Or.inr ⟨e.rights, ?_, by simpa using h⟩
      rw [rightsOn, hp, Option.bind_some, lookupRights, hfind]
      rfl
    next => cases h

/-- What `SYS_GRANT` does: it fails and nothing changes, or the caller has the rights and they are
added to the target. -/
theorem sysGrant_cases {kmalloc : Bool} {a1 a2 a3 v : BitVec 64}
    (h : s.sysGrant kmalloc a1 a2 a3 = some (v, s')) :
    (v ≠ 0 ∧ s' = s) ∨ (v = 0 ∧
      s.grantHolds s.cur.pmap (physToPfn a2) (a3.setWidth 8) = some true ∧
      s.grantAdd kmalloc (s.thread a1).pmap (physToPfn a2) (a3.setWidth 8) = some (true, s')) := by
  have hne : (-1 : BitVec 64) ≠ 0 := by decide
  -- the call is refused before anything is added, or it answers what `grant_add` answers
  rw [sysGrant] at h
  split at h
  · cases h
    exact Or.inl ⟨hne, rfl⟩
  split at h
  · cases h
    exact Or.inl ⟨hne, rfl⟩
  obtain ⟨held, hheld, h⟩ := Option.bind_eq_some_iff.mp h
  cases held with
  | false =>
      cases h
      exact Or.inl ⟨hne, rfl⟩
  | true =>
      obtain ⟨⟨ok, s₁⟩, hadd, hret⟩ := Option.bind_eq_some_iff.mp h
      cases ok with
      | true =>
          cases hret
          exact Or.inr ⟨rfl, hheld, hadd⟩
      | false =>
          obtain ⟨-, rfl⟩ | ⟨hok, -⟩ := grantAdd_cases hadd
          · cases hret
            exact Or.inl ⟨hne, rfl⟩
          · cases hok

/-- The counts stay right between two grants. -/
theorem Between.counted (h : s.Between s') (hs : s.Counted) : s'.Counted := by
  -- the holders are read off the grant lists, which stay as they are
  have hholders : ∀ f, s'.holders f = s.holders f := by
    intro f
    simp only [holders, rightsOn_eq, h.grants]
  refine ⟨fun ptr p hp => ?_, fun f => ?_, fun f => ?_⟩
  · have hgrants := h.grants ptr
    rw [grantsAt, hp] at hgrants
    change p.grants = s.grantsAt ptr at hgrants
    rw [hgrants, grantsAt]
    cases hp' : s.pmaps ptr with
    | none => exact List.nodup_nil
    | some p' => exact hs.nodup ptr p' hp'
  · rw [hholders]
    exact hs.finite f
  · rw [hholders, h.refs]
    exact hs.refs f

/-- The counts stay right as long as no count wraps around. -/
theorem GrantCalls.counted {s₀ : Kernel σ} {history : List Grant} (hs₀ : s₀.Counted)
    (h : GrantCalls Few s₀ history s) : s.Counted := by
  induction h with
  | nil => exact hs₀
  | call _ hcall hfew ih =>
      obtain ⟨hv, -⟩ | ⟨-, -, hadd⟩ := sysGrant_cases hcall
      · exact absurd rfl hv
      · exact ih.grantAdd hadd hfew
  | fail _ hcall hv ih =>
      obtain ⟨-, rfl⟩ | ⟨hzero, -⟩ := sysGrant_cases hcall
      · exact ih
      · exact absurd hzero hv
  | between _ hbetween ih => exact hbetween.counted ih

/-- What a successful call changes: the target gets the rights, and before the call they were the
root server's or the caller had an entry with them. -/
theorem rightsOn_of_call {kmalloc : Bool} {a1 a2 a3 : BitVec 64}
    (h : s.sysGrant kmalloc a1 a2 a3 = some (0, s')) :
    (∀ q f, s'.rightsOn q f = if q = (s.thread a1).pmap ∧ f = physToPfn a2
      then some ((s.rightsOn (s.thread a1).pmap (physToPfn a2)).getD 0 ||| a3.setWidth 8)
      else s.rightsOn q f) ∧
    ((s.cur.pmap = s.rootPmap ∧ s.grantPoolTest (physToPfn a2) = true ∧
        s.refs (physToPfn a2) = 0) ∨
      ∃ x, s.rightsOn s.cur.pmap (physToPfn a2) = some x ∧ x &&& a3.setWidth 8 = a3.setWidth 8) ∧
    s'.frames = s.frames ∧ s'.rootPmap = s.rootPmap ∧ s'.pool = s.pool := by
  obtain ⟨hv, -⟩ | ⟨-, hheld, hadd⟩ := sysGrant_cases h
  · exact absurd rfl hv
  obtain ⟨hok, -⟩ | ⟨-, -, p, hp, refs, rfl, -⟩ := grantAdd_cases hadd
  · cases hok
  · exact ⟨rightsOn_added hp _ _ refs, of_grantHolds hheld, rfl, rfl, rfl⟩

/-- The right bits that somebody holds on a frame. -/
def heldBits (s : Kernel σ) (f : BitVec 64) : Set ℕ :=
  {i | ∃ ptr x, s.rightsOn ptr f = some x ∧ x.getLsbD i = true}

/-- Nothing that a call passes on is new. -/
theorem heldBits_of_call (hs : s.Counted) {kmalloc : Bool} {a1 a2 a3 : BitVec 64}
    (h : s.sysGrant kmalloc a1 a2 a3 = some (0, s')) {f : BitVec 64}
    (hf : ∃ ptr, (s.rightsOn ptr f).isSome) : s'.heldBits f ⊆ s.heldBits f := by
  obtain ⟨hrights, hheld, -⟩ := rightsOn_of_call h
  rintro i ⟨q, x, hx, hi⟩
  rw [hrights] at hx
  split at hx
  next hcase =>
    obtain ⟨-, rfl⟩ := hcase
    cases hx
    rw [BitVec.getLsbD_or, Bool.or_eq_true] at hi
    rcases hi with hi | hi
    · -- the target had the bit
      cases hold : s.rightsOn (s.thread a1).pmap (physToPfn a2) with
      | none =>
          rw [hold] at hi
          simp at hi
      | some x => exact ⟨_, x, hold, by rwa [hold] at hi⟩
    · -- the caller has the bit: there is an entry, so it is not the root server's
      rcases hheld with ⟨-, -, hzero⟩ | ⟨x, hx, hr⟩
      · obtain ⟨ptr, hptr⟩ := hf
        rw [(hs.refs_eq_zero _).mp hzero ptr] at hptr
        cases hptr
      · refine ⟨_, x, hx, ?_⟩
        rw [← hr, BitVec.getLsbD_and, Bool.and_eq_true] at hi
        exact hi.1
  next => exact ⟨q, x, hx, hi⟩

/-- An entry that is there stays, and the rights on its frame do not grow. -/
theorem heldBits_of_grantCalls (hs : s.Counted) {history : List Grant}
    (h : GrantCalls Few s history s') {f : BitVec 64} (hf : ∃ ptr, (s.rightsOn ptr f).isSome) :
    (∃ ptr, (s'.rightsOn ptr f).isSome) ∧ s'.heldBits f ⊆ s.heldBits f := by
  induction h with
  | nil => exact ⟨hf, subset_rfl⟩
  | call hcalls hcall _ ih =>
      -- a call gives no bit on the frame that no holder had
      obtain ⟨⟨ptr, hptr⟩, hsubset⟩ := ih
      obtain ⟨hrights, -⟩ := rightsOn_of_call hcall
      refine ⟨⟨ptr, ?_⟩, (heldBits_of_call (hcalls.counted hs) hcall ⟨ptr, hptr⟩).trans hsubset⟩
      rw [hrights]
      split
      · rfl
      · exact hptr
  | fail _ hcall hv ih =>
      obtain ⟨-, rfl⟩ | ⟨hzero, -⟩ := sysGrant_cases hcall
      · exact ih
      · exact absurd hzero hv
  | between _ hbetween ih =>
      simpa only [heldBits, rightsOn_eq, hbetween.grants] using ih

/-- The pool only shrinks. -/
theorem grantPoolTest_of_grantCalls {within : Kernel σ → Prop} {s₀ : Kernel σ}
    {history : List Grant} (h : GrantCalls within s₀ history s) {f : BitVec 64}
    (hf : s.grantPoolTest f = true) :
    s₀.grantPoolTest f = true := by
  induction h with
  | nil => exact hf
  | call _ hcall _ ih =>
      obtain ⟨-, -, hframes, -, hpool⟩ := rightsOn_of_call hcall
      rw [grantPoolTest, hframes, hpool] at hf
      exact ih hf
  | fail _ hcall hv ih =>
      obtain ⟨-, rfl⟩ | ⟨hzero, -⟩ := sysGrant_cases hcall
      · exact ih hf
      · exact absurd hzero hv
  | between _ hbetween ih =>
      apply ih
      rw [grantPoolTest, hbetween.frames] at hf
      rw [grantPoolTest]
      split at hf
      · cases hf
      next hlt =>
        rw [if_neg hlt]
        -- the pool never gains a frame, in a call or between two
        exact hbetween.pool f hf

/-- Where an entry comes from. -/
theorem rightsOn_of_grantCalls {within : Kernel σ → Prop} {s₀ : Kernel σ} {history : List Grant}
    (h : GrantCalls within s₀ history s) {ptr : Addr} {f : BitVec 64}
    (hf : (s.rightsOn ptr f).isSome) :
    s₀.grantPoolTest f = true ∨ ∃ q, (s₀.rightsOn q f).isSome := by
  induction h generalizing ptr with
  | nil => exact Or.inr ⟨ptr, hf⟩
  | call hcalls hcall _ ih =>
      obtain ⟨hrights, hheld, -⟩ := rightsOn_of_call hcall
      rw [hrights] at hf
      split at hf
      next hcase =>
        obtain ⟨-, rfl⟩ := hcase
        -- the granter had the frame of the pool, or it had an entry itself
        rcases hheld with ⟨-, hpool, -⟩ | ⟨x, hx, -⟩
        · exact Or.inl (grantPoolTest_of_grantCalls hcalls hpool)
        · exact ih (by rw [hx]; rfl)
      next => exact ih hf
  | fail _ hcall hv ih =>
      obtain ⟨-, rfl⟩ | ⟨hzero, -⟩ := sysGrant_cases hcall
      · exact ih hf
      · exact absurd hzero hv
  | between _ hbetween ih =>
      rw [rightsOn_eq, hbetween.grants, ← rightsOn_eq] at hf
      exact ih hf

/-- `SYS_GRANT` does not amplify rights: an entry for a frame appears only if the frame is in the
pool or has been granted at boot, and once there is an entry, the rights that somebody holds on the
frame do not grow. -/
theorem rights_not_amplified {s₀ s s' : Kernel σ} {history history' : List Grant}
    (hs₀ : s₀.GrantsBooted) (h : GrantCalls Few s₀ history s) (h' : GrantCalls Few s history' s')
    (f : BitVec 64) :
    (∀ ptr, (s'.rightsOn ptr f).isSome →
      s.grantPoolTest f = true ∨ ∃ q, (s.rightsOn q f).isSome) ∧
    ∀ ptr, (s.rightsOn ptr f).isSome →
      (s₀.grantPoolTest f = true ∨ ∃ q, (s₀.rightsOn q f).isSome) ∧
        s'.heldBits f ⊆ s.heldBits f := by
  refine ⟨fun ptr hptr => rightsOn_of_grantCalls h' hptr, fun ptr hptr => ⟨?_, ?_⟩⟩
  · exact rightsOn_of_grantCalls h hptr
  · exact (heldBits_of_grantCalls (h.counted hs₀.counted) h' ⟨ptr, hptr⟩).2

/-! ### Chains of grants

By induction on the run: each entry goes back to the root server through pmaps that could grant the
frame. The counts play no part in this. -/

/-- A pmap has been reached from the root server, or from a boot grant, by calls whose granters all
had the right to grant the frame. -/
def Chain (s₀ : Kernel σ) (f : BitVec 64) : List Grant → Addr → Prop
  | [], ptr => ptr = s₀.rootPmap ∨ (s₀.rightsOn ptr f).isSome
  | g :: history, ptr =>
      Chain s₀ f history ptr ∨
        (g.target = ptr ∧ g.pfn = f ∧ g.mayGrant = true ∧ Chain s₀ f history g.granter)

/-- The root server is at the start of every chain. -/
theorem chain_root (s₀ : Kernel σ) (f : BitVec 64) (history : List Grant) :
    Chain s₀ f history s₀.rootPmap := by
  induction history with
  | nil => exact Or.inl rfl
  | cons g history ih => exact Or.inl ih

/-- No call changes who the root server is. -/
theorem rootPmap_of_grantCalls {within : Kernel σ → Prop} {s₀ : Kernel σ} {history : List Grant}
    (h : GrantCalls within s₀ history s) : s.rootPmap = s₀.rootPmap := by
  induction h with
  | nil => rfl
  | call _ hcall _ ih =>
      obtain ⟨-, -, -, hroot, -⟩ := rightsOn_of_call hcall
      exact hroot.trans ih
  | fail _ hcall hv ih =>
      obtain ⟨-, rfl⟩ | ⟨hzero, -⟩ := sysGrant_cases hcall
      · exact ih
      · exact absurd hzero hv
  | between _ hbetween ih => exact hbetween.rootPmap.trans ih

/-- If every caller has the right to grant the frame it grants, every pmap with an entry has been
reached by a chain, however many pmaps there are. -/
theorem chain_of_grantCalls {s₀ s : Kernel σ} {history : List Grant}
    (h : GrantCalls (fun _ => True) s₀ history s) (hmay : ∀ g ∈ history, g.mayGrant = true)
    (ptr : Addr) (f : BitVec 64) (hf : (s.rightsOn ptr f).isSome) : Chain s₀ f history ptr := by
  induction h generalizing ptr with
  | nil => exact Or.inr hf
  | @call history s s' _ a1 a2 _ hcalls hcall _ ih =>
      have ih := ih fun g hg => hmay g (List.mem_cons_of_mem _ hg)
      obtain ⟨hrights, hheld, -⟩ := rightsOn_of_call hcall
      rw [hrights] at hf
      split at hf
      next hcase =>
        -- the entry is the call's; its granter has been reached before
        obtain ⟨rfl, rfl⟩ := hcase
        refine Or.inr ⟨rfl, rfl, hmay _ List.mem_cons_self, ?_⟩
        rcases hheld with ⟨hroot, -⟩ | ⟨x, hx, -⟩
        · show Chain s₀ _ history s.cur.pmap
          rw [hroot, rootPmap_of_grantCalls hcalls]
          exact chain_root s₀ _ history
        · exact ih s.cur.pmap (by rw [hx]; rfl)
      next => exact Or.inl (ih ptr hf)
  | fail _ hcall hv ih =>
      obtain ⟨-, rfl⟩ | ⟨hzero, -⟩ := sysGrant_cases hcall
      · exact ih hmay ptr hf
      · exact absurd hzero hv
  | between _ hbetween ih =>
      rw [rightsOn_eq, hbetween.grants, ← rightsOn_eq] at hf
      exact ih hmay ptr hf

/-! ### Three address spaces

An example with two calls, where the second grants what the first one gave. -/

/-- The example is a machine after boot. -/
theorem grantsBooted_threeSpaces : threeSpaces.GrantsBooted :=
  ⟨threeSpaces, threeSpaces, 1, 0, 0, noGrants_threeSpaces, rfl, rfl⟩

/-- No more pmaps than there are hold an entry. -/
theorem few_of_pmaps {S : Finset Addr} (hS : S.card < 2 ^ 16)
    (h : ∀ ptr p, s.pmaps ptr = some p → ptr ∈ S) : s.Few := by
  apply few_of_subset hS
  intro f ptr hptr
  obtain ⟨x, hx⟩ := Option.isSome_iff_exists.mp hptr
  obtain ⟨p, hp, -⟩ := Option.bind_eq_some_iff.mp hx
  exact h ptr p hp

/-- The root server gives the second space the right `r` on the frame `5`. -/
def afterFirst (r : BitVec 8) : Kernel Unit :=
  threeSpaces.regrant 0x200#64 ⟨0x200000#64, []⟩ [⟨5#64, r⟩]
    (Function.update threeSpaces.refs 5#64 1)

/-- Then thread 2 runs. -/
def secondRuns (r : BitVec 8) : Kernel Unit := { afterFirst r with current := 2 }

/-- It gives the third space what it has. -/
def afterSecond (r : BitVec 8) : Kernel Unit :=
  (secondRuns r).regrant 0x300#64 ⟨0x300000#64, []⟩ [⟨5#64, r⟩]
    (Function.update (secondRuns r).refs 5#64 2)

/-- A kernel with the three address spaces of the example has fewer than 2^16. -/
theorem few_threeSpaces {t : Kernel Unit}
    (h : ∀ ptr, (t.pmaps ptr).isSome = (threeSpaces.pmaps ptr).isSome) : t.Few := by
  apply few_of_pmaps (S := {0x100#64, 0x200#64, 0x300#64}) (by decide)
  intro ptr p hp
  have hsome := h ptr
  rw [hp] at hsome
  simp only [threeSpaces] at hsome
  split at hsome
  next hptr => simpa using hptr
  next => cases hsome

/-- Replacing a list of grants removes no pmap. -/
theorem pmaps_isSome_regrant {ptr : Addr} {p : Pmap} (hp : (s.pmaps ptr).isSome)
    (l : List GrantEntry) (refs : BitVec 64 → BitVec 16) (q : Addr) :
    ((s.regrant ptr p l refs).pmaps q).isSome = (s.pmaps q).isSome := by
  by_cases hq : q = ptr
  · subst hq
    simp [regrant, setGrants, hp]
  · simp [regrant, setGrants, hq]

/-- The first of two calls that pass on the frame `5`. -/
theorem grantCalls_afterFirst (r : BitVec 8) (hr : r = 1 ∨ r = 5) :
    GrantCalls Few threeSpaces [⟨0x100#64, 0x200#64, 5#64, true⟩] (afterFirst r) := by
  have hcall : threeSpaces.sysGrant true 2 0x5000#64 (r.setWidth 64) =
      some (0, afterFirst r) := by
    rcases hr with rfl | rfl <;> rfl
  have hfew : (afterFirst r).Few := few_threeSpaces fun ptr => pmaps_isSome_regrant rfl _ _ ptr
  exact .call .nil hcall hfew

/-- The second one. -/
theorem grantCalls_afterSecond (r : BitVec 8) (hr : r = 1 ∨ r = 5) :
    GrantCalls Few (afterFirst r) [⟨0x200#64, 0x300#64, 5#64, r = 5⟩] (afterSecond r) := by
  have hcall : (secondRuns r).sysGrant true 3 0x5000#64 (r.setWidth 64) =
      some (0, afterSecond r) := by
    rcases hr with rfl | rfl <;> rfl
  -- the calls make no new pmaps, so that there are still three
  have hfew : (afterSecond r).Few := few_threeSpaces fun ptr => by
    have hsecond : ((afterSecond r).pmaps ptr).isSome = ((secondRuns r).pmaps ptr).isSome :=
      pmaps_isSome_regrant rfl _ _ ptr
    have hfirst : ((afterFirst r).pmaps ptr).isSome = (threeSpaces.pmaps ptr).isSome :=
      pmaps_isSome_regrant rfl _ _ ptr
    exact hsecond.trans hfirst
  have hruns : GrantCalls Few (afterFirst r) [] (secondRuns r) :=
    .between .nil ⟨fun _ => rfl, rfl, rfl, rfl, fun _ h => h⟩
  have hcalls := GrantCalls.call hruns hcall hfew
  rcases hr with rfl | rfl
  · exact hcalls
  · exact hcalls

/-- The second space passes on what it has been given. -/
theorem rights_not_amplified_threeSpaces : (threeSpaces.grantPoolTest 5#64 = true ∨
      ∃ q, (threeSpaces.rightsOn q 5#64).isSome) ∧
    (afterSecond 1).heldBits 5#64 ⊆ (afterFirst 1).heldBits 5#64 :=
  (rights_not_amplified grantsBooted_threeSpaces (grantCalls_afterFirst 1 (Or.inl rfl))
    (grantCalls_afterSecond 1 (Or.inl rfl)) 5#64).2 0x200#64 rfl

/-- With the right to grant, the third space is at the end of a chain. -/
theorem chain_of_grantCalls_threeSpaces :
    Chain threeSpaces 5#64 [⟨0x200#64, 0x300#64, 5#64, true⟩, ⟨0x100#64, 0x200#64, 5#64, true⟩]
      0x300#64 :=
  chain_of_grantCalls
    (((grantCalls_afterFirst 5 (Or.inr rfl)).trans (grantCalls_afterSecond 5 (Or.inr rfl))).mono
      fun _ _ => trivial)
    (by decide) 0x300#64 5#64 rfl

/-- Without it, thread 2 passes on a frame all the same. -/
theorem grant_without_chain : ∃ history s, GrantCalls (fun _ => True) threeSpaces history s ∧
    threeSpaces.GrantsBooted ∧ 0x300#64 ≠ threeSpaces.rootPmap ∧
    (s.rightsOn 0x300#64 5#64).isSome ∧ ¬ Chain threeSpaces 5#64 history 0x300#64 := by
  refine ⟨_, _, ((grantCalls_afterFirst 1 (Or.inl rfl)).trans
    (grantCalls_afterSecond 1 (Or.inl rfl))).mono fun _ _ => trivial,
    grantsBooted_threeSpaces, by decide, rfl, ?_⟩
  simp [Chain, threeSpaces, rightsOn, lookupRights]

end Kernel

end Koharu
