import OptimistOS.Paging.FrameRuns

/-!
# What a call of `allocateFrame` reserves

The rounding to whole pages works modulo `2 ^ 64`, and the only test compares
the rounded size. A request within a page of `2 ^ 64` is rounded to no bytes at
all: the call returns and reserves nothing.
-/

namespace OptimistOS

open ByteMemory Transition

/-- A call has reserved `n` bytes from the physical address `f` on: they lie in
the usable region, apart from the frames handed out before and from the block
that is free now, and the allocator counts them. -/
structure Reserves {τ : Type} (R : UsableRegion) (frames : List Frame)
    (s s' : FrameMachine τ) (f : Word) (n : ℕ) : Prop where
  inside : region f n ⊆ region R.start R.length.toNat
  apart : ∀ g ∈ frames, Disjoint (g.bytes R.hhdmOffset)
    (region (f + R.hhdmOffset) n)
  taken : Disjoint (region (f + R.hhdmOffset) n) (region s'.globals.head
    (fBlock.get s'.mem s'.globals.head .size).toNat)
  counted : s'.globals.usedMemory.toNat = s.globals.usedMemory.toNat + n

/-- `allocateFrame` halts or reserves at least the bytes asked for. -/
def HaltsOrReserves {τ : Type} (T : SizeTable τ) (fuel : ℕ) (R : UsableRegion)
    (s : FrameMachine τ × List Frame) (requestSize : Word) : Prop :=
  (∃ s', (allocateFrame T fuel requestSize).run s.1 = .error .halt s') ∨
    ∃ f s', (allocateFrame T fuel requestSize).run s.1 = .ok f s' ∧
      ∃ n, requestSize.toNat ≤ n ∧ Reserves R s.2 s.1 s' f n

theorem le_roundUpToPageBoundary {size : Word}
    (h : size.toNat ≤ 2 ^ 64 - 4096) :
    size.toNat ≤ (roundUpToPageBoundary size).toNat := by
  rw [toNat_roundUpToPageBoundary h]
  omega

section

variable {τ : Type} {T : SizeTable τ} {fuel : ℕ} {R : UsableRegion} {mem : Bytes}
  {table : τ} {s s' : FrameMachine τ} {used : ℕ}

theorem AllocState.usedMemory (h : AllocState R mem table s used) :
    s.globals.usedMemory.toNat = used := by
  rcases h with ⟨rfl, rfl⟩ | h
  · rfl
  · have hle := h.used_le
    have hlt := R.length.isLt
    rw [h.usedMemory, BitVec.toNat_ofNat, Nat.mod_eq_of_lt (by omega)]

theorem Granted.reserves {n : Word} {frames : List Frame}
    (hs : AllocState R mem table s used) (hframes : FramesBelow R frames used)
    (hg : Granted R T s s' used n) :
    Reserves R frames s s' (R.start + BitVec.ofNat 64 used) n.toNat := by
  have hle := hg.state.used_le
  have hlt := R.length.isLt
  have hregion : region (R.start + BitVec.ofNat 64 used + R.hhdmOffset) n.toNat =
      region (R.addr used) n.toNat := R.bytes_eq used n
  refine ⟨region_subset_of_le R.start hle (by omega), fun g hmem => ?_, ?_, ?_⟩
  · rw [hregion]
    exact hframes.disjoint_region hmem (by omega)
  · rw [hregion, hg.state.head, hg.state.size, BitVec.toNat_ofNat,
      Nat.mod_eq_of_lt (by omega)]
    exact R.disjoint_region le_rfl (by omega)
  · rw [hs.usedMemory, hg.state.usedMemory, BitVec.toNat_ofNat,
      Nat.mod_eq_of_lt (by omega)]

theorem roundUpToPageBoundary_eq_zero {size : Word}
    (h : 2 ^ 64 - 4096 < size.toNat) : roundUpToPageBoundary size = 0 := by
  have hlt := size.isLt
  have hmod : (size % 4096).toNat = size.toNat % 4096 := by
    simp [BitVec.toNat_umod]
  have hne : size % 4096 ≠ 0 := by
    intro h0
    rw [h0] at hmod
    change 0 = _ at hmod
    omega
  have hmask := toNat_and_not_mask (size + 4096 - 1) 12
  rw [roundUpToPageBoundary, if_neg hne]
  refine BitVec.eq_of_toNat_eq (hmask.trans ?_)
  have hadd : (size + 4096 - 1).toNat = size.toNat + 4095 - 2 ^ 64 := by
    bv_omega
  rw [hadd]
  change _ = 0
  omega

theorem AllocState.not_haltsOrReserves {frames : List Frame}
    (hs : AllocState R mem table s used) {requestSize : Word}
    (h : 2 ^ 64 - 4096 < requestSize.toNat) :
    ¬ HaltsOrReserves T fuel R (s, frames) requestSize := by
  have hzero := roundUpToPageBoundary_eq_zero h
  obtain ⟨s', hrun, hg⟩ := allocateFrame_granted T fuel requestSize hs (by
    rw [hzero]
    exact hs.used_le)
  rintro (⟨t, ht⟩ | ⟨f, t, ht, n, hn, hres⟩)
  · exact absurd (hrun.symm.trans ht) (by simp)
  · have ht' := hrun.symm.trans ht
    simp only [EStateM.Result.ok.injEq] at ht'
    obtain ⟨-, rfl⟩ := ht'
    have hcount := hres.counted
    rw [hs.usedMemory, (show AllocState R mem table s' _ from
      Or.inr hg.state).usedMemory, hzero] at hcount
    change used + 0 = used + n at hcount
    omega

end

/-- After any run of calls, a call halts or reserves the bytes asked for
exactly when the rounding to whole pages does not wrap. -/
theorem haltsOrReserves_iff {τ : Type} (R : UsableRegion) (mem : Bytes)
    (T : SizeTable τ) (table : τ) (fuel : ℕ) {rs : List Word}
    {s : FrameMachine τ × List Frame}
    (hrun : Run (allocateStep T fuel) (bootMachine R mem table, []) rs s)
    (requestSize : Word) :
    HaltsOrReserves T fuel R s requestSize ↔
      requestSize.toNat ≤ 2 ^ 64 - 4096 := by
  obtain ⟨hs, hframes⟩ := allocState_of_run T hrun
  constructor
  · intro h
    by_contra hlarge
    exact hs.not_haltsOrReserves (by omega) h
  · intro hle
    by_cases hfit : totalRounded rs +
        (roundUpToPageBoundary requestSize).toNat ≤ R.length.toNat
    · obtain ⟨s', hcall, hg⟩ := allocateFrame_granted T fuel requestSize hs hfit
      exact Or.inr ⟨_, s', hcall, _, le_roundUpToPageBoundary hle,
        hg.reserves hs hframes⟩
    · exact Or.inl (hs.refused T fuel requestSize (by omega))

/-- A request that fits and one that does not, after two others. -/
theorem haltsOrReserves_iff_smallRegion :
    ∃ s, Run (allocateStep addressSizeTable 0)
        (bootMachine smallRegion (fun _ => 0) HashTable.zero, []) [1, 4097] s ∧
      HaltsOrReserves addressSizeTable 0 smallRegion s 8192 ∧
      HaltsOrReserves addressSizeTable 0 smallRegion s 0x10000 := by
  obtain ⟨s, hrun⟩ := exists_run_of_fits smallRegion (fun _ => 0)
    addressSizeTable HashTable.zero 0 [1, 4097] (by decide)
  exact ⟨s, hrun, (haltsOrReserves_iff smallRegion (fun _ => 0)
    addressSizeTable HashTable.zero 0 hrun 8192).2 (by decide),
    (haltsOrReserves_iff smallRegion (fun _ => 0)
    addressSizeTable HashTable.zero 0 hrun 0x10000).2 (by decide)⟩

/-- The first call, for a request of `2 ^ 64 - 1` bytes. -/
theorem exists_not_haltsOrReserves :
    ∃ s', (allocateFrame addressSizeTable 0 (-1)).run
        (bootMachine smallRegion (fun _ => 0) HashTable.zero) =
          .ok 0x100000 s' ∧
      ¬ HaltsOrReserves addressSizeTable 0 smallRegion
        (bootMachine smallRegion (fun _ => 0) HashTable.zero, []) (-1) := by
  obtain ⟨s', hrun, -⟩ := allocateFrame_first smallRegion (fun _ => 0)
    HashTable.zero addressSizeTable 0 (-1) (by decide)
  exact ⟨s', hrun, AllocState.not_haltsOrReserves (Or.inl ⟨rfl, rfl⟩)
    (by decide)⟩

end OptimistOS
