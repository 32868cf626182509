import Koharu.Boot.DirectMap
import Koharu.Task.Delegation

/-!
# The grants for the framebuffer

`init_gop` reads the mode of the framebuffer from the firmware, the boot loader passes it on with
the address in the direct map, and `rootserver_boot` gives the root server an entry for each frame.

`init_gop` stores the length of a scan line in bytes. `rootserver_boot` multiplies it by four, as
for a length in pixels. So four times as many bytes are granted as the framebuffer has, up to the
rounding to frames at both ends; and as the fields have 16 bits, a long line counts with its
remainder only. The modes for which the grants are right are those of `GopMode.GrantFits`.
-/

namespace Koharu

/-- What the firmware reports in `gop->Mode`. -/
structure GopMode where
  frameBufferBase : BitVec 64
  horizontalResolution : BitVec 32
  verticalResolution : BitVec 32
  pixelsPerScanLine : BitVec 32

/-- `framebuffer_t`. -/
structure Framebuffer where
  address : BitVec 64
  width : BitVec 16
  height : BitVec 16
  pitch : BitVec 16

/-- `init_gop`. -/
def initGop (mode : GopMode) : Framebuffer where
  address := mode.frameBufferBase
  width := mode.horizontalResolution.setWidth 16
  height := mode.verticalResolution.setWidth 16
  pitch := (mode.pixelsPerScanLine.setWidth 64 * 4#64).setWidth 16

/-- The boot loader's last change: the kernel finds the framebuffer in the direct map. -/
def Framebuffer.handOver (fb : Framebuffer) : Framebuffer :=
  { fb with address := fb.address + hhdmOffset }

/-- `fb_phys`. -/
def Framebuffer.phys (fb : Framebuffer) : Addr := fb.address - hhdmOffset

/-- `fb_bytes`. -/
def Framebuffer.bytes (fb : Framebuffer) : BitVec 64 :=
  fb.height.setWidth 64 * fb.pitch.setWidth 64 * 4#64

namespace Kernel

variable {σ : Type} {s s' : Kernel σ}

/-- What `rootserver_boot` does about the framebuffer. -/
def bootFramebuffer (fb : Framebuffer) (fuel : ℕ) (s : Kernel σ) : Option (Kernel σ) :=
  if fb.address = 0 then some s else grantFramebuffer (fb.phys + fb.bytes) fuel fb.phys s

/-- The frames a pmap has entries for. -/
def grantedFrames (s : Kernel σ) (ptr : Addr) : Set (BitVec 64) :=
  {f | f ∈ (s.grantsAt ptr).map GrantEntry.pfn}

end Kernel

/-- The bytes from the first scan line to the last one. -/
def GopMode.bytes (mode : GopMode) : ℕ :=
  mode.verticalResolution.toNat * (4 * mode.pixelsPerScanLine.toNat)

/-- The frames that overlap the framebuffer. -/
def GopMode.frames (mode : GopMode) : Set (BitVec 64) :=
  {f | ∃ k < mode.bytes, (mode.frameBufferBase.toNat + k) / 4096 = f.toNat}

/-- The bytes that the kernel takes the framebuffer to have. -/
def GopMode.scaledBytes (mode : GopMode) : ℕ :=
  mode.verticalResolution.toNat % 2 ^ 16 * (4 * mode.pixelsPerScanLine.toNat % 2 ^ 16) * 4

/-- The mode has no pixels; or the address in the direct map is not `NULL`, the scaled framebuffer
does not go beyond the end of memory, and it has as many pages as the framebuffer touches. -/
def GopMode.GrantFits (mode : GopMode) : Prop :=
  mode.bytes = 0 ∨
    mode.frameBufferBase ≠ 0x800000000000#64 ∧
      mode.frameBufferBase.toNat + mode.scaledBytes < 2 ^ 64 ∧
      (mode.scaledBytes + 4095) / 4096 =
        (mode.frameBufferBase.toNat % 4096 + mode.bytes + 4095) / 4096

instance (mode : GopMode) : Decidable mode.GrantFits :=
  inferInstanceAs (Decidable (_ ∨ _ ∧ _ ∧ _))

/-! ### Sizes

The loader reports the size as bytes per scan line times lines times four, and the kernel relies on
it. None of the products overflows. -/

/-- The kernel hands on the address of the framebuffer. -/
theorem handOver_phys (fb : Framebuffer) : fb.handOver.phys = fb.address := by
  rw [Framebuffer.phys, Framebuffer.handOver]
  exact BitVec.add_sub_cancel ..

/-- The address in the direct map is 0 for one physical address only. -/
theorem handOver_address_eq_zero (fb : Framebuffer) :
    fb.handOver.address = 0 ↔ fb.address = 0x800000000000#64 := by
  have hneg : -hhdmOffset = 0x800000000000#64 := by decide
  rw [← hneg]
  constructor
  · intro h
    rw [← BitVec.add_sub_cancel fb.address hhdmOffset]
    show fb.handOver.address - hhdmOffset = -hhdmOffset
    rw [h]
    exact BitVec.zero_sub ..
  · intro h
    rw [Framebuffer.handOver, h]
    exact BitVec.add_left_neg ..

/-- The size computed by the loader fits in 34 bits. -/
theorem GopMode.scaledBytes_lt (mode : GopMode) : mode.scaledBytes < 2 ^ 34 := by
  have hheight := Nat.mod_lt mode.verticalResolution.toNat (show 0 < 2 ^ 16 by decide)
  have hpitch := Nat.mod_lt (4 * mode.pixelsPerScanLine.toNat) (show 0 < 2 ^ 16 by decide)
  have hmul := Nat.mul_lt_mul'' hheight hpitch
  unfold GopMode.scaledBytes
  omega

/-- The size by the mode fits in 66 bits. -/
theorem GopMode.bytes_lt (mode : GopMode) : mode.bytes < 2 ^ 66 := by
  have hheight : mode.verticalResolution.toNat < 2 ^ 32 := mode.verticalResolution.isLt
  have hline : 4 * mode.pixelsPerScanLine.toNat < 2 ^ 34 := by
    have := mode.pixelsPerScanLine.isLt
    omega
  have hmul := Nat.mul_lt_mul'' hheight hline
  unfold GopMode.bytes
  omega

/-- An empty framebuffer has size 0 by either. -/
theorem GopMode.scaledBytes_eq_zero (mode : GopMode) (h : mode.bytes = 0) :
    mode.scaledBytes = 0 := by
  unfold GopMode.scaledBytes
  rcases Nat.mul_eq_zero.mp h with hheight | hline
  · rw [hheight, Nat.zero_mod, Nat.zero_mul, Nat.zero_mul]
  · rw [hline, Nat.zero_mod, Nat.mul_zero, Nat.zero_mul]

/-- The product does not overflow. -/
theorem toNat_bytes_initGop (mode : GopMode) :
    (initGop mode).handOver.bytes.toNat = mode.scaledBytes := by
  have hline : mode.pixelsPerScanLine.toNat < 2 ^ 32 := mode.pixelsPerScanLine.isLt
  -- the pitch is stored in sixteen bits, and it is in bytes already
  have hpitch : (initGop mode).pitch.toNat = 4 * mode.pixelsPerScanLine.toNat % 2 ^ 16 := by
    simp only [initGop, BitVec.toNat_setWidth, BitVec.toNat_mul, BitVec.toNat_ofNat]
    omega
  have hheight : (initGop mode).height.toNat = mode.verticalResolution.toNat % 2 ^ 16 := by
    simp only [initGop, BitVec.toNat_setWidth]
  have hlt := mode.scaledBytes_lt
  rw [GopMode.scaledBytes, ← hheight, ← hpitch] at hlt ⊢
  have hheight_lt := (initGop mode).height.isLt
  have hpitch_lt := (initGop mode).pitch.isLt
  rw [Framebuffer.bytes, Framebuffer.handOver]
  simp only [BitVec.toNat_mul, BitVec.toNat_setWidth, BitVec.toNat_ofNat]
  rw [Nat.mod_eq_of_lt (a := (initGop mode).height.toNat) (by omega),
    Nat.mod_eq_of_lt (a := (initGop mode).pitch.toNat) (by omega)]
  omega

namespace Kernel

variable {σ : Type} {s s' : Kernel σ} {pa paEnd : Addr}

/-! ### The loop

`rootserver_boot` goes from page to page and makes an entry for each. -/

/-- An entry for one frame. -/
theorem grantedFrames_of_grantAdd {ok : Bool} {ptr : Addr} {pfn : BitVec 64} {r : BitVec 8}
    (h : s.grantAdd true ptr pfn r = some (ok, s')) (hok : ok = true) :
    s'.rootPmap = s.rootPmap ∧ s'.grantedFrames ptr = insert pfn (s.grantedFrames ptr) := by
  rcases grantAdd_cases h with ⟨hfail, -⟩ | ⟨-, -, p, hp, refs, rfl, -⟩
  · rw [hok] at hfail
    cases hfail
  · refine ⟨rfl, Set.ext fun f => ?_⟩
    have hnew : (s.regrant ptr p (addEntry pfn r p.grants) refs).grantsAt ptr =
        addEntry pfn r p.grants := by
      simp [grantsAt, regrant, setGrants]
    have hold : s.grantsAt ptr = p.grants := by simp [grantsAt, hp]
    rw [Set.mem_insert_iff]
    simp only [grantedFrames, Set.mem_ofPred_eq, hnew, hold, map_pfn_addEntry]
    split
    -- a frame with an entry only gets new rights; any other frame gets an entry
    next hmem =>
      refine ⟨Or.inr, fun hf => ?_⟩
      rcases hf with rfl | hf
      · exact hmem
      · exact hf
    next => rw [List.mem_append, List.mem_singleton, or_comm]

/-- The pages of a range are those of the range that begins one page later, shifted by one. -/
theorem pageAfter_succ (pa : Addr) (k : ℕ) : pa + pageSize + BitVec.ofNat 64 (4096 * k) =
    pa + BitVec.ofNat 64 (4096 * (k + 1)) := by
  rw [BitVec.add_assoc, Nat.mul_add, Nat.add_comm, BitVec.ofNat_add]
  rfl

/-- The loop adds the frames of the addresses it comes to before the end. -/
theorem grantedFrames_of_grantFramebuffer (fuel : ℕ)
    (h : grantFramebuffer paEnd fuel pa s = some s') :
    ∃ n, (∀ k < n, pa + BitVec.ofNat 64 (4096 * k) < paEnd) ∧
      ¬ pa + BitVec.ofNat 64 (4096 * n) < paEnd ∧ s'.rootPmap = s.rootPmap ∧
      s'.grantedFrames s.rootPmap = s.grantedFrames s.rootPmap ∪
        {f | ∃ k < n, f = physToPfn (pa + BitVec.ofNat 64 (4096 * k))} := by
  induction fuel generalizing s pa with
  | zero => cases h
  | succ fuel ih =>
      rw [grantFramebuffer] at h
      split at h
      next hlt =>
        obtain ⟨⟨ok, s₁⟩, hadd, h⟩ := Option.bind_eq_some_iff.mp h
        dsimp only at h
        split at h
        next hok =>
          obtain ⟨hroot, hframes⟩ := grantedFrames_of_grantAdd hadd hok
          obtain ⟨n, hbefore, hafter, hroot', hgranted⟩ := ih h
          -- the first page is granted here, the others by the rest of the loop
          refine ⟨n + 1, fun k hk => ?_, ?_, hroot'.trans hroot, ?_⟩
          · cases k with
            | zero => simpa using hlt
            | succ k =>
                rw [← pageAfter_succ]
                exact hbefore k (by omega)
          · rw [← pageAfter_succ]
            exact hafter
          · rw [← hroot, hgranted, hroot, hframes]
            ext f
            simp only [Set.mem_union, Set.mem_insert_iff, Set.mem_ofPred_eq, pageAfter_succ]
            constructor
            · rintro ((rfl | hf) | ⟨k, hk, rfl⟩)
              · exact Or.inr ⟨0, by omega, by simp⟩
              · exact Or.inl hf
              · exact Or.inr ⟨k + 1, by omega, rfl⟩
            · rintro (hf | ⟨k, hk, rfl⟩)
              · exact Or.inl (Or.inr hf)
              · cases k with
                | zero => exact Or.inl (Or.inl (by simp))
                | succ k => exact Or.inr ⟨k, by omega, rfl⟩
        next => cases h
      next hge =>
        cases h
        refine ⟨0, fun k hk => absurd hk (Nat.not_lt_zero k), by simpa using hge, rfl, ?_⟩
        ext f
        simp

end Kernel

/-- The addresses of the loop, as numbers. -/
theorem toNat_pageAfter (pa : Addr) (k : ℕ) :
    (pa + BitVec.ofNat 64 (4096 * k)).toNat = (pa.toNat + 4096 * k) % 2 ^ 64 := by
  rw [BitVec.toNat_add, BitVec.toNat_ofNat]
  omega

/-- How many addresses there are before the end: none, if the end is beyond the end of memory. -/
theorem count_of_stop {pa size : BitVec 64} {n : ℕ}
    (hbefore : ∀ k < n, pa + BitVec.ofNat 64 (4096 * k) < pa + size)
    (hafter : ¬ pa + BitVec.ofNat 64 (4096 * n) < pa + size) :
    n = if pa.toNat + size.toNat < 2 ^ 64 then (size.toNat + 4095) / 4096 else 0 := by
  have hpa := pa.isLt
  have hsize := size.isLt
  simp only [BitVec.lt_def, toNat_pageAfter] at hbefore hafter
  rw [BitVec.toNat_add] at hbefore hafter
  split
  next hend =>
    rw [Nat.mod_eq_of_lt hend] at hbefore hafter
    -- all addresses with the offset of `pa` would be before the end if the last page were cut off
    have hlast : pa.toNat + 4096 * ((size.toNat + 4095) / 4096) < 2 ^ 64 := by
      by_contra hwrap
      omega
    rcases Nat.lt_trichotomy n ((size.toNat + 4095) / 4096) with hlt | heq | hgt
    · rw [Nat.mod_eq_of_lt (by omega)] at hafter
      omega
    · exact heq
    · have := hbefore _ hgt
      rw [Nat.mod_eq_of_lt hlast] at this
      omega
  next hend =>
    by_contra hn
    have := hbefore 0 (by omega)
    omega

/-! ### Which frames

Both the frames of the framebuffer and those that are granted follow one another from the same
frame, so that only their number matters. -/

/-- Frames one after another. -/
def framesFrom (first n : ℕ) : Set (BitVec 64) :=
  {f | first ≤ f.toNat ∧ f.toNat < first + n}

/-- Ranges from one frame are equal when they have the same length. -/
theorem framesFrom_eq_iff {first n n' : ℕ} (h : first + n ≤ 2 ^ 64) (h' : first + n' ≤ 2 ^ 64) :
    framesFrom first n = framesFrom first n' ↔ n = n' := by
  refine ⟨fun heq => ?_, fun heq => heq ▸ rfl⟩
  have hmem : ∀ k, k < n ↔ k < n' := by
    intro k
    by_cases hk : first + k < 2 ^ 64
    · have hf : (BitVec.ofNat 64 (first + k)).toNat = first + k := by
        rw [BitVec.toNat_ofNat, Nat.mod_eq_of_lt hk]
      have := Set.ext_iff.mp heq (BitVec.ofNat 64 (first + k))
      simp only [framesFrom, Set.mem_ofPred_eq, hf] at this
      omega
    · omega
  have hle := hmem n
  have hge := hmem n'
  omega

/-- The number of frames that overlap the framebuffer. -/
def GopMode.frameCount (mode : GopMode) : ℕ :=
  if mode.bytes = 0 then 0 else (mode.frameBufferBase.toNat % 4096 + mode.bytes + 4095) / 4096

/-- The frames of a framebuffer follow each other. -/
theorem GopMode.frames_eq (mode : GopMode) :
    mode.frames = framesFrom (mode.frameBufferBase.toNat / 4096) mode.frameCount := by
  ext f
  simp only [GopMode.frames, framesFrom, Set.mem_ofPred_eq, GopMode.frameCount]
  constructor
  · rintro ⟨k, hk, hf⟩
    rw [if_neg (by omega)]
    omega
  · rintro ⟨hge, hlt⟩
    split at hlt
    next => omega
    next hbytes =>
      -- the first byte of the framebuffer that is in the frame
      refine ⟨f.toNat * 4096 - mode.frameBufferBase.toNat, ?_, ?_⟩ <;> omega

/-- The frames of pages one after another, when they do not go beyond the end of memory. -/
theorem pagesFrom_frames {pa : Addr} {size n : ℕ}
    (hn : n = if pa.toNat + size < 2 ^ 64 then (size + 4095) / 4096 else 0) :
    {f | ∃ k < n, f = physToPfn (pa + BitVec.ofNat 64 (4096 * k))} =
      framesFrom (pa.toNat / 4096) n := by
  have hpa := pa.isLt
  -- no page of the range wraps around, by the choice of `n`
  have hpfn : ∀ k < n, (physToPfn (pa + BitVec.ofNat 64 (4096 * k))).toNat =
      pa.toNat / 4096 + k := by
    intro k hk
    rw [physToPfn, BitVec.toNat_ushiftRight, toNat_pageAfter, Nat.shiftRight_eq_div_pow]
    split at hn <;> omega
  ext f
  simp only [framesFrom, Set.mem_ofPred_eq]
  constructor
  · rintro ⟨k, hk, rfl⟩
    rw [hpfn k hk]
    omega
  · rintro ⟨hge, hlt⟩
    refine ⟨f.toNat - pa.toNat / 4096, by omega, BitVec.eq_of_toNat_eq ?_⟩
    rw [hpfn _ (by omega)]
    omega

/-- The number of frames that `rootserver_boot` grants. -/
def GopMode.grantCount (mode : GopMode) : ℕ :=
  if mode.frameBufferBase ≠ 0x800000000000#64 ∧
      mode.frameBufferBase.toNat + mode.scaledBytes < 2 ^ 64 then (mode.scaledBytes + 4095) / 4096
  else 0

namespace Kernel

variable {σ : Type} {s s' : Kernel σ} {pa paEnd : Addr}

/-- What the root server is granted. -/
theorem grantedFrames_of_bootFramebuffer {mode : GopMode} {fuel : ℕ}
    (hempty : s.grantsAt s.rootPmap = [])
    (h : s.bootFramebuffer (initGop mode).handOver fuel = some s') :
    s'.rootPmap = s.rootPmap ∧ s'.grantedFrames s.rootPmap =
      framesFrom (mode.frameBufferBase.toNat / 4096) mode.grantCount := by
  have hnone : s.grantedFrames s.rootPmap = ∅ := by
    simp [grantedFrames, hempty]
  rw [bootFramebuffer] at h
  split at h
  next hzero =>
    cases h
    -- without a framebuffer nothing is granted
    refine ⟨rfl, ?_⟩
    rw [hnone, GopMode.grantCount, if_neg fun hne => hne.1 ((handOver_address_eq_zero _).mp hzero)]
    ext f
    simp only [framesFrom, Set.mem_ofPred_eq, Set.mem_empty_iff_false, false_iff]
    omega
  next hzero =>
    have hne : mode.frameBufferBase ≠ 0x800000000000#64 :=
      mt (handOver_address_eq_zero (initGop mode)).mpr hzero
    rw [handOver_phys] at h
    obtain ⟨n, hbefore, hafter, hroot, hgranted⟩ := grantedFrames_of_grantFramebuffer fuel h
    have hn := count_of_stop hbefore hafter
    rw [toNat_bytes_initGop] at hn
    have hcount : mode.grantCount = n := by
      rw [hn, GopMode.grantCount]
      exact if_congr (and_iff_right hne) rfl rfl
    refine ⟨hroot, ?_⟩
    rw [hgranted, hnone, Set.empty_union, hcount]
    exact pagesFrom_frames hn
/-! ### Boot gets through

With counters for all of the frames, no entry fails, and the loop comes to its end. -/

/-- `grant_add` for the root task returns. -/
theorem grantAdd_returns {pfn : BitVec 64} (r : BitVec 8) (hroot : s.rootPmap ≠ 0)
    (hpmap : (s.pmaps s.rootPmap).isSome) (hpfn : pfn < s.frames) :
    ∃ s', s.grantAdd true s.rootPmap pfn r = some (true, s') ∧ s'.rootPmap = s.rootPmap ∧
      (s'.pmaps s.rootPmap).isSome ∧ s'.frames = s.frames := by
  obtain ⟨p, hp⟩ := Option.isSome_iff_exists.mp hpmap
  rw [grantAdd, if_neg]
  · rw [hp]
    have hgrants : ((s.setGrants s.rootPmap p (addEntry pfn r p.grants)).pmaps
      s.rootPmap).isSome := by
      simp [setGrants]
    -- an entry changed, or one appended: the list is found either way
    by_cases hold : (p.grants.any fun e => e.pfn = pfn) = true
    · exact ⟨_, if_pos hold, rfl, hgrants, rfl⟩
    · exact ⟨_, if_neg hold, rfl, hgrants, rfl⟩
  · rintro (hzero | hle)
    · exact hroot hzero
    · rw [BitVec.lt_def] at hpfn
      rw [BitVec.le_def] at hle
      omega

/-- When all frames are ones that the kernel counts, the loop comes to its end. -/
theorem grantFramebuffer_returns (n : ℕ) (hroot : s.rootPmap ≠ 0)
    (hpmap : (s.pmaps s.rootPmap).isSome)
    (hpfn : ∀ k < n, physToPfn (pa + BitVec.ofNat 64 (4096 * k)) < s.frames)
    (hend : ¬ pa + BitVec.ofNat 64 (4096 * n) < paEnd) :
    ∃ s', grantFramebuffer paEnd (n + 1) pa s = some s' := by
  induction n generalizing s pa with
  | zero =>
      refine ⟨s, ?_⟩
      rw [grantFramebuffer, if_neg]
      simpa using hend
  | succ n ih =>
      rw [grantFramebuffer]
      split
      next hlt =>
        have hfirst : physToPfn pa < s.frames := by simpa using hpfn 0 (by omega)
        obtain ⟨s₁, hadd, hroot₁, hpmap₁, hframes⟩ :=
          grantAdd_returns (grantRead ||| grantWrite ||| grantGrant) hroot hpmap hfirst
        rw [hadd]
        -- the pages from the second on are those of a range one page shorter
        refine ih (hroot₁ ▸ hroot) (hroot₁ ▸ hpmap₁) (fun k hk => ?_) ?_
        · rw [pageAfter_succ, hframes]
          exact hpfn (k + 1) (by omega)
        · rw [pageAfter_succ]
          exact hend
      next => exact ⟨s, rfl⟩

/-- The grants are those for the framebuffer iff the scaled size has the right number of pages. -/
theorem framebufferGrants_exact_iff {mode : GopMode} {fuel : ℕ}
    (hempty : s.grantsAt s.rootPmap = [])
    (h : s.bootFramebuffer (initGop mode).handOver fuel = some s') :
    s'.grantedFrames s'.rootPmap = mode.frames ↔ mode.GrantFits := by
  obtain ⟨hroot, hgranted⟩ := grantedFrames_of_bootFramebuffer hempty h
  have hbase := mode.frameBufferBase.isLt
  have hbytes := mode.bytes_lt
  have hscaled := mode.scaledBytes_lt
  have hzero : mode.bytes = 0 → mode.scaledBytes = 0 := mode.scaledBytes_eq_zero
  rw [hroot, hgranted, mode.frames_eq, framesFrom_eq_iff, GopMode.grantCount, GopMode.frameCount,
    GopMode.GrantFits]
  -- the scaled length fits the address space, or nothing is granted
  · split
    next hfits =>
      split
      next hnone => simp [hnone, hzero hnone]
      next hsome => rw [or_iff_right hsome, and_iff_right hfits.1, and_iff_right hfits.2]
    next hfits =>
      split
      next hnone => simp [hnone]
      next hsome =>
        have hpages : (mode.frameBufferBase.toNat % 4096 + mode.bytes + 4095) / 4096 ≠ 0 := by omega
        constructor
        · intro hcount
          exact absurd hcount.symm hpages
        · rintro (hnone | ⟨hbase, hend, -⟩)
          · exact absurd hnone hsome
          · exact absurd ⟨hbase, hend⟩ hfits
  · rw [GopMode.grantCount]
    split <;> omega
  · rw [GopMode.frameCount]
    split <;> omega

/-- `threeSpaces` with four gigabytes of memory. -/
def fourGigabytes : Kernel Unit := { threeSpaces with frames := 0x100000#64 }

/-- The loop over a framebuffer below four gigabytes returns, by induction on the pages left. -/
theorem fourGigabytes_returns (n : ℕ) (pa paEnd : Addr)
    (hpfn : ∀ k < n, physToPfn (pa + BitVec.ofNat 64 (4096 * k)) < 0x100000#64)
    (hend : ¬ pa + BitVec.ofNat 64 (4096 * n) < paEnd) :
    ∃ s', grantFramebuffer paEnd (n + 1) pa fourGigabytes = some s' :=
  grantFramebuffer_returns n (by decide) rfl hpfn hend

/-- Two scan lines of 128 pixels are in one page, and so is the scaled framebuffer. -/
theorem framebufferGrants_exact_iff_onePage : ∃ s',
    fourGigabytes.bootFramebuffer (initGop ⟨0x80000000#64, 128#32, 2#32, 128#32⟩).handOver 2 =
      some s' ∧
    s'.grantedFrames s'.rootPmap = GopMode.frames ⟨0x80000000#64, 128#32, 2#32, 128#32⟩ := by
  obtain ⟨s', h⟩ := fourGigabytes_returns 1 0x80000000#64 0x80001000#64 (by decide) (by decide)
  have hrun : fourGigabytes.bootFramebuffer
      (initGop ⟨0x80000000#64, 128#32, 2#32, 128#32⟩).handOver 2 = some s' := h
  exact ⟨s', hrun, (framebufferGrants_exact_iff rfl hrun).mpr (by decide)⟩

/-- 1024 times 768 pixels, with 1024 pixels per scan line: the framebuffer has 768 frames, and the
root server gets 3072. -/
theorem framebufferGrants_scaled : ∃ s',
    fourGigabytes.bootFramebuffer (initGop ⟨0x80000000#64, 1024#32, 768#32, 1024#32⟩).handOver
      3073 =
      some s' ∧
    s'.grantedFrames s'.rootPmap ≠ GopMode.frames ⟨0x80000000#64, 1024#32, 768#32, 1024#32⟩ := by
  -- the machine has 2^20 frames, so that no `grant_add` fails
  have hpfn : ∀ k < 3072, physToPfn (0x80000000#64 + BitVec.ofNat 64 (4096 * k)) < 0x100000#64 := by
    intro k hk
    rw [BitVec.lt_def, physToPfn, BitVec.toNat_ushiftRight, toNat_pageAfter,
      Nat.shiftRight_eq_div_pow]
    have hbase : (0x80000000#64).toNat = 0x80000000 := rfl
    have hframes : (0x100000#64).toNat = 0x100000 := rfl
    omega
  obtain ⟨s', h⟩ := fourGigabytes_returns 3072 0x80000000#64 0x80c00000#64 hpfn (by decide)
  have hphys : (initGop ⟨0x80000000#64, 1024#32, 768#32, 1024#32⟩).handOver.phys =
    0x80000000#64 := by
    decide
  have hbytes : (initGop ⟨0x80000000#64, 1024#32, 768#32, 1024#32⟩).handOver.bytes =
    0xc00000#64 := by
    decide
  have hrun : fourGigabytes.bootFramebuffer
      (initGop ⟨0x80000000#64, 1024#32, 768#32, 1024#32⟩).handOver 3073 = some s' := by
    rw [bootFramebuffer, if_neg (by decide), hphys, hbytes]
    exact h
  obtain ⟨hroot, hgranted⟩ := grantedFrames_of_bootFramebuffer rfl hrun
  refine ⟨s', hrun, ?_⟩
  -- 3072 frames are granted, while the screen has 768
  rw [hroot, hgranted, GopMode.frames_eq, Ne, framesFrom_eq_iff (by decide) (by decide)]
  decide

end Kernel

end Koharu
