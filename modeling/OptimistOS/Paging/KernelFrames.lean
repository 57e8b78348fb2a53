import OptimistOS.Paging.FrameRuns
import OptimistOS.Paging.PageTables

/-!
# The frame allocator under the page tables

`pageFrameAllocator.cpp` is what the paging code relies on, as long as no frame
is freed and the usable region lies below 2^52 (`kernelSource`): the frames of a
run without frees are whole pages of the region that the allocator does not
touch again.
-/

namespace OptimistOS

open ByteMemory ByteMemory.Code

def kernelAllocator {τ : Type} (T : SizeTable τ) (fuel : ℕ) :
    FrameAllocator (FrameGlobals τ) where
  allocateFrame := allocateFrame T fuel
  toVirtualAddr := toVirtualAddr

namespace UsableRegion

theorem isTableFrame (R : UsableRegion)
    (hlow : R.start.toNat + R.length.toNat ≤ 2 ^ 52) {o : ℕ}
    (ho : o + 4096 ≤ R.length.toNat) (hmod : o % 4096 = 0) :
    IsTableFrame R.hhdmOffset (R.start + BitVec.ofNat 64 o) := by
  have hne := R.start_ne
  have hmodStart := R.start_aligned
  have hnat : (R.start + BitVec.ofNat 64 o).toNat = R.start.toNat + o := by
    rw [BitVec.toNat_add, BitVec.toNat_ofNat]
    omega
  have hpos : R.start.toNat ≠ 0 := fun h => hne (BitVec.eq_of_toNat_eq h)
  refine ⟨by omega, fun h => ?_, by omega, fun h => ?_⟩
  · rw [h] at hnat
    have hzero : (0 : Word).toNat = 0 := rfl
    omega
  · have hbytes := R.bytes_eq o 4096
    rw [Frame.bytes] at hbytes
    change 0 ∈ region (R.start + BitVec.ofNat 64 o + R.hhdmOffset)
      (4096 : Word).toNat at h
    rw [hbytes, mem_region_iff_exists _ _ (by decide)] at h
    obtain ⟨i, hi, hzero⟩ := h
    change i < 4096 at hi
    rw [UsableRegion.addr, add_ofNat_add_ofNat] at hzero
    exact R.addr_ne_zero (by omega : o + i ≤ R.length.toNat) hzero.symm

theorem start_add (R : UsableRegion) (i : ℕ) :
    R.start + BitVec.ofNat 64 i + R.hhdmOffset = R.addr i := by
  rw [addr, base, BitVec.add_assoc, BitVec.add_assoc,
    BitVec.add_comm R.hhdmOffset]

theorem start_add_ne (R : UsableRegion) {i : ℕ}
    (hi : i % 4096 = 0) (hle : i ≤ R.length.toNat) :
    R.start + BitVec.ofNat 64 i ≠ -1 := by
  intro h
  have hlen := R.length_le
  have hnat := congrArg BitVec.toNat h
  rw [BitVec.toNat_add, BitVec.toNat_ofNat,
    Nat.mod_eq_of_lt (show i < 2 ^ 64 by omega)] at hnat
  have hmod := R.start_aligned
  have hone : (-1 : Word).toNat = 2 ^ 64 - 1 := by decide
  omega

end UsableRegion

def PagesBelow (R : UsableRegion) (frames : List Word) (used : ℕ) : Prop :=
  ∀ f ∈ frames, ∃ o, f = R.start + BitVec.ofNat 64 o ∧ o % 4096 = 0 ∧
    o + 4096 ≤ used

/-- `used` bytes are handed out, among them the frames, and `n` more pages are
left. -/
def FramesReady {τ : Type} (R : UsableRegion) (n : ℕ)
    (s : FrameMachine τ) (frames : List Word) : Prop :=
  ∃ mem table used, AllocState R mem table s used ∧ used % 4096 = 0 ∧
    used + 4096 * n ≤ R.length.toNat ∧ PagesBelow R frames used

theorem PagesBelow.disjoint {R : UsableRegion} {frames : List Word} {used k : ℕ}
    (h : PagesBelow R frames used) (hk : used + k ≤ 2 ^ 64) :
    Disjoint (region (R.addr used) k) (frameBytes R.hhdmOffset frames) := by
  rw [Set.disjoint_right]
  rintro x ⟨f, hf, hx⟩
  obtain ⟨o, rfl, -, hle⟩ := h f hf
  have hbytes := R.bytes_eq o 4096
  rw [Frame.bytes] at hbytes
  change x ∈ region (R.start + BitVec.ofNat 64 o + R.hhdmOffset)
    (4096 : Word).toNat at hx
  rw [hbytes] at hx
  exact Set.disjoint_left.1 (R.disjoint_region hle hk) hx

theorem AllocState.write {τ : Type} {R : UsableRegion} {mem m' : Bytes}
    {table : τ} {s : FrameMachine τ} {used : ℕ} {frames : List Word}
    (h : AllocState R mem table s used) (hpages : PagesBelow R frames used)
    (hm : AgreeOff (frameBytes R.hhdmOffset frames) s.mem m') :
    ∃ mem', AllocState R mem' table { s with mem := m' } used := by
  rcases h with ⟨rfl, rfl⟩ | h
  · exact ⟨m', Or.inl ⟨rfl, rfl⟩⟩
  · have hle := h.used_le
    have hlen := R.length_le
    have hkeep : ∀ f, fBlock.get m' (R.addr used) f =
        fBlock.get s.mem (R.addr used) f := fun f =>
      fBlock.get_congr hm _ f (hpages.disjoint (k := 40) (by omega))
    exact ⟨mem, Or.inr ⟨hle, h.head, h.freeBlock, (hkeep .next).trans h.next,
      (hkeep .size).trans h.size, h.info, h.copy, h.usedMemory⟩⟩

def UsableRegion.pages (R : UsableRegion) (o k : ℕ) : List Word :=
  (List.range k).map fun j => R.start + BitVec.ofNat 64 (o + 4096 * j)

/-- `f` is the first of `k` pages that a request from `s` is answered with: they
were cleared, and the bytes of `frames` have not changed. -/
structure FreshPages {τ : Type} (R : UsableRegion) (k : ℕ) (s : FrameMachine τ)
    (frames : List Word) (f : Word) (s' : FrameMachine τ) (o : ℕ) : Prop where
  aligned : o % 4096 = 0
  room : o + 4096 * k ≤ R.length.toNat
  eq : f = R.start + BitVec.ofNat 64 o
  notMem : ∀ g ∈ R.pages o k, g ∉ frames
  zero : ∀ x ∈ region (R.addr o) (4096 * k), s'.mem x = 0
  kept : ∀ x ∈ frameBytes R.hhdmOffset frames, s'.mem x = s.mem x

/-- A request for `k` pages at once is answered with pages behind the frames. -/
theorem FramesReady.allocatePages {τ : Type} {R : UsableRegion} {n k : ℕ}
    {s : FrameMachine τ} {frames : List Word} (T : SizeTable τ) (fuel : ℕ)
    {size : Word} (h : FramesReady R n s frames)
    (hk : (roundUpToPageBoundary size).toNat = 4096 * k) :
    (OptimistOS.allocateFrame T fuel size).Returns s (n < k) fun f s' =>
      ∃ o, FreshPages R k s frames f s' o ∧
        FramesReady R (n - k) s' (R.pages o k ++ frames) := by
  obtain ⟨mem, table, used, hs, hmod, hroom, hpages⟩ := h
  have hlen := R.length_le
  have hlt := R.length.isLt
  by_cases hfit : used + 4096 * k ≤ R.length.toNat
  · obtain ⟨s', hrun, hg⟩ := allocateFrame_granted T fuel size hs
      (by rw [hk]; exact hfit)
    have hstate := hg.state
    have hframe := hg.frame
    have hzero := hg.zero
    rw [hk] at hstate hframe hzero
    refine .of_ok hrun ⟨used, ⟨hmod, hfit, rfl, fun g hg hold => ?_, hzero,
      fun x hx => ?_⟩, mem, table, used + 4096 * k, Or.inr hstate, by omega,
      by omega, fun g hg => ?_⟩
    · obtain ⟨j, hj, rfl⟩ := List.mem_map.1 hg
      obtain ⟨o, ho, -, hle⟩ := hpages _ hold
      have hj' := List.mem_range.1 hj
      have heq := add_ofNat_inj R.start (by omega) (by omega) ho
      omega
    · exact (hframe x fun hx' => Set.disjoint_left.1
        (hpages.disjoint (by omega)) hx' hx).symm
    · rcases List.mem_append.1 hg with hg | hg
      · obtain ⟨j, hj, rfl⟩ := List.mem_map.1 hg
        have hj' := List.mem_range.1 hj
        exact ⟨used + 4096 * j, rfl, by omega, by omega⟩
      · obtain ⟨o, ho, ho', hle⟩ := hpages g hg
        exact ⟨o, ho, ho', by omega⟩
  · obtain ⟨s', hrun⟩ := hs.refused T fuel size (by rw [hk]; omega)
    exact Or.inr ⟨by omega, .halt, s', hrun⟩

theorem FramesReady.subset {τ : Type} {R : UsableRegion} {n : ℕ}
    {s : FrameMachine τ} {frames frames' : List Word}
    (h : FramesReady R n s frames) (hsub : frames' ⊆ frames) :
    FramesReady R n s frames' := by
  obtain ⟨mem, table, used, hs, hmod, hroom, hpages⟩ := h
  exact ⟨mem, table, used, hs, hmod, hroom, fun f hf => hpages f (hsub hf)⟩

theorem FramesReady.allocateFrame {τ : Type} {R : UsableRegion} {n k : ℕ}
    {s : FrameMachine τ} {frames : List Word} (T : SizeTable τ) (fuel : ℕ)
    {size : Word} (h : FramesReady R n s frames)
    (hk : (roundUpToPageBoundary size).toNat = 4096 * k) :
    (OptimistOS.allocateFrame T fuel size).Returns s (n < k) fun f s' =>
      f ≠ -1 ∧
        (∃ o ≤ R.length.toNat, o % 4096 = 0 ∧ f + R.hhdmOffset = R.addr o) ∧
        FramesReady R (n - k) s' frames ∧
        ∀ x ∈ frameBytes R.hhdmOffset frames, s'.mem x = s.mem x := by
  refine (h.allocatePages T fuel hk).mono id ?_
  rintro f s' ⟨o, hfresh, hready⟩
  have hroom := hfresh.room
  refine ⟨?_, ⟨o, by omega, hfresh.aligned, ?_⟩,
    hready.subset (List.subset_append_right _ _), hfresh.kept⟩
  · exact hfresh.eq ▸ R.start_add_ne hfresh.aligned (by omega)
  · exact hfresh.eq ▸ R.start_add o

section

variable {τ : Type} {R : UsableRegion} {n : ℕ} {s : FrameMachine τ}
  {frames : List Word}

/-- A call for one page. -/
theorem FramesReady.allocatePage (T : SizeTable τ) (fuel : ℕ)
    (hlow : R.start.toNat + R.length.toNat ≤ 2 ^ 52)
    (h : FramesReady R n s frames) :
    (∃ f s', (OptimistOS.allocateFrame T fuel 0x1000).run s = .ok f s' ∧
        FreshFrame R.hhdmOffset frames s.mem f s'.mem ∧
        FramesReady R (n - 1) s' (f :: frames)) ∨
      n = 0 ∧ ∃ e s',
        (OptimistOS.allocateFrame T fuel 0x1000).run s = .error e s' := by
  obtain ⟨mem, table, used, hs, hmod, hroom, hpages⟩ := h
  have hround : (roundUpToPageBoundary 0x1000).toNat = 4096 := by decide
  have hlen := R.length_le
  have hle := hs.used_le
  by_cases hfit : used + 4096 ≤ R.length.toNat
  · left
    obtain ⟨s', hrun, hg⟩ := allocateFrame_granted T fuel 0x1000 hs
      (by rw [hround]; exact hfit)
    have hstate := hg.state
    have hzero := hg.zero
    have hframe := hg.frame
    rw [hround] at hstate hzero hframe
    have hbytes := R.bytes_eq used 4096
    have hnew := R.isTableFrame hlow hfit hmod
    refine ⟨_, s', hrun, ⟨hnew, fun hmem => ?_, ?_, fun x hx => ?_⟩,
      mem, table, used + 4096, Or.inr hstate, by omega, by omega, ?_⟩
    · obtain ⟨o, ho, -, hle'⟩ := hpages _ hmem
      have hlt := R.length.isLt
      have := add_ofNat_inj R.start (by omega) (by omega) ho
      omega
    · rw [Frame.bytes] at hbytes
      intro x hx
      refine hzero x ?_
      have hx' : x ∈ region (R.start + BitVec.ofNat 64 used + R.hhdmOffset)
        (4096 : Word).toNat := hx
      rwa [hbytes] at hx'
    · exact (hframe x fun hx' => Set.disjoint_left.1
        (hpages.disjoint (by omega)) hx' hx).symm
    · intro f hf
      rcases List.mem_cons.1 hf with rfl | hf
      · exact ⟨used, rfl, hmod, le_rfl⟩
      · obtain ⟨o, ho, ho', hle'⟩ := hpages f hf
        exact ⟨o, ho, ho', by omega⟩
  · right
    obtain ⟨s', hrun⟩ := hs.refused T fuel 0x1000 (by rw [hround]; omega)
    exact ⟨by omega, .halt, s', hrun⟩

theorem FramesReady.run_toVirtualAddr (h : FramesReady R n s frames)
    (hne : frames ≠ []) {a : Word} (ha : a ≠ -1) :
    (OptimistOS.toVirtualAddr a).run s = .ok (a + R.hhdmOffset) s := by
  obtain ⟨mem, table, used, hs, -, -, hpages⟩ := h
  obtain ⟨f, hf⟩ := List.exists_mem_of_ne_nil _ hne
  obtain ⟨o, -, -, hle⟩ := hpages f hf
  rcases hs with ⟨rfl, -⟩ | hs
  · omega
  · exact run_toVirtualAddr_bump hs ha

theorem FramesReady.write {m' : Bytes} (h : FramesReady R n s frames)
    (hm : AgreeOff (frameBytes R.hhdmOffset frames) s.mem m') :
    FramesReady R n { s with mem := m' } frames := by
  obtain ⟨mem, table, used, hs, hmod, hroom, hpages⟩ := h
  obtain ⟨mem', hs'⟩ := hs.write hpages hm
  exact ⟨mem', table, used, hs', hmod, hroom, hpages⟩

theorem FramesReady.mono {k : ℕ} (h : FramesReady R n s frames) (hk : k ≤ n) :
    FramesReady R k s frames := by
  obtain ⟨mem, table, used, hs, hmod, hroom, hpages⟩ := h
  exact ⟨mem, table, used, hs, hmod, by omega, hpages⟩

theorem FramesReady.isTableFrame (h : FramesReady R n s frames)
    (hlow : R.start.toNat + R.length.toNat ≤ 2 ^ 52) :
    ∀ f ∈ frames, IsTableFrame R.hhdmOffset f := by
  intro f hf
  obtain ⟨mem, table, used, hs, -, -, hpages⟩ := h
  have hle := hs.used_le
  obtain ⟨o, rfl, hmod, ho⟩ := hpages f hf
  exact R.isTableFrame hlow (by omega) hmod

end

def kernelSource {τ : Type} (T : SizeTable τ) (fuel : ℕ) (R : UsableRegion)
    (hlow : R.start.toNat + R.length.toNat ≤ 2 ^ 52) :
    FrameSource (kernelAllocator T fuel) R.hhdmOffset where
  Ready := FramesReady R
  allocateFrame _ _ _ h := h.allocatePage T fuel hlow
  toVirtualAddr _ _ _ h hne _ ha := h.run_toVirtualAddr hne ha
  write _ _ _ _ h hm := h.write hm
  mono _ _ _ _ h hk := h.mono hk
  frame _ _ _ h := h.isTableFrame hlow

end OptimistOS
