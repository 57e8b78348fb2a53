import OptimistOS.Foundation.Run
import OptimistOS.Paging.FrameRegion

/-!
# Runs of `allocateFrame`

A run of calls without `freeFrame` keeps the free list a single block. The state
of a run is the machine together with the frames handed out so far, in the order
of the calls. `allocateStep` is one call that returns; a call that ends in `hlt`
ends the run. `AllocState` is the invariant of the machine and `FramesBelow`
that of the frames.
-/

namespace OptimistOS

open ByteMemory Transition

/-- A frame handed out: its physical address and its rounded size. -/
structure Frame where
  address : Word
  size : Word
  deriving DecidableEq, Repr

def Frame.bytes (hhdmOffset : Word) (f : Frame) : Set Addr :=
  region (f.address + hhdmOffset) f.size.toNat

def allocateStep {τ : Type} (T : SizeTable τ) (fuel : ℕ) :
    FrameMachine τ × List Frame → Word → FrameMachine τ × List Frame → Prop :=
  fun s requestSize s' =>
    ∃ f, (allocateFrame T fuel requestSize).run s.1 = .ok f s'.1 ∧
      s'.2 = s.2 ++ [⟨f, roundUpToPageBoundary requestSize⟩]

/-- Before the first call, or `used` bytes into the region. -/
def AllocState {τ : Type} (R : UsableRegion) (mem : Bytes) (table : τ)
    (s : FrameMachine τ) (used : ℕ) : Prop :=
  (used = 0 ∧ s = bootMachine R mem table) ∨ BumpState R s used

theorem AllocState.used_le {τ : Type} {R : UsableRegion} {mem : Bytes}
    {table : τ} {s : FrameMachine τ} {used : ℕ}
    (h : AllocState R mem table s used) : used ≤ R.length.toNat := by
  rcases h with ⟨rfl, -⟩ | h
  · exact Nat.zero_le _
  · exact h.used_le

theorem allocateFrame_boot {τ : Type} (R : UsableRegion) (mem : Bytes)
    (table : τ) (T : SizeTable τ) (fuel : ℕ) (requestSize : Word) :
    ∃ s, BumpState R s 0 ∧ AgreeOff (region R.base 40) mem s.mem ∧
      s.globals.addressSizeHT = table ∧
      (allocateFrame T fuel requestSize).run (bootMachine R mem table) =
        (allocateFrame T fuel requestSize).run s := by
  obtain ⟨s, hrun, hs, hmem, htable⟩ := run_ensureFreeList_boot R mem table
  have hne : s.globals.head ≠ 0 := by
    rw [hs.head]
    exact R.addr_ne_zero hs.used_le
  refine ⟨s, hs, hmem, htable, ?_⟩
  rw [allocateFrame, Code.run_bind_of_ok hrun,
    Code.run_bind_of_ok (run_ensureFreeList_of_ne hne)]

theorem allocateFrame_granted {τ : Type} {R : UsableRegion} {mem : Bytes}
    {table : τ} (T : SizeTable τ) (fuel : ℕ) (requestSize : Word)
    {s : FrameMachine τ} {used : ℕ} (hs : AllocState R mem table s used)
    (hfit : used + (roundUpToPageBoundary requestSize).toNat ≤
      R.length.toNat) :
    ∃ s', (allocateFrame T fuel requestSize).run s =
        .ok (R.start + BitVec.ofNat 64 used) s' ∧
      Granted R T s s' used (roundUpToPageBoundary requestSize) := by
  rcases hs with ⟨rfl, rfl⟩ | hs
  · obtain ⟨s₀, hs₀, hmem, htable, heq⟩ :=
      allocateFrame_boot R mem table T fuel requestSize
    obtain ⟨s', hrun, hg⟩ := allocateFrame_bump T fuel requestSize hs₀ hfit
    refine ⟨s', heq.trans hrun, hg.state, hg.zero, ?_, ?_⟩
    · have hmono := hmem.mono (region_mono R.base
        (by omega : 40 ≤ (roundUpToPageBoundary requestSize).toNat + 40))
      have htrans := hmono.trans hg.frame
      rw [R.addr_zero, Set.union_self] at htrans
      rwa [R.addr_zero]
    · rw [hg.table, htable]
      rfl
  · exact allocateFrame_bump T fuel requestSize hs hfit

theorem allocateFrame_first {τ : Type} (R : UsableRegion) (mem : Bytes)
    (table : τ) (T : SizeTable τ) (fuel : ℕ) (requestSize : Word)
    (hfit : (roundUpToPageBoundary requestSize).toNat ≤ R.length.toNat) :
    ∃ s', (allocateFrame T fuel requestSize).run (bootMachine R mem table) =
        .ok R.start s' ∧
      Granted R T (bootMachine R mem table) s' 0
        (roundUpToPageBoundary requestSize) := by
  have hboot : AllocState R mem table (bootMachine R mem table) 0 :=
    Or.inl ⟨rfl, rfl⟩
  obtain ⟨s', hrun, hg⟩ := allocateFrame_granted T fuel requestSize hboot
    (by rwa [Nat.zero_add])
  refine ⟨s', ?_, hg⟩
  rw [hrun, show BitVec.ofNat 64 0 = 0#64 from rfl, BitVec.add_zero]

theorem AllocState.refused {τ : Type} {R : UsableRegion} {mem : Bytes}
    {table : τ} {s : FrameMachine τ} {used : ℕ} (T : SizeTable τ) (fuel : ℕ)
    (requestSize : Word) (h : AllocState R mem table s used)
    (hfit : R.length.toNat <
      used + (roundUpToPageBoundary requestSize).toNat) :
    ∃ s', (allocateFrame T fuel requestSize).run s = .error .halt s' := by
  rcases h with ⟨rfl, rfl⟩ | h
  · obtain ⟨s₀, hs₀, -, -, heq⟩ :=
      allocateFrame_boot R mem table T fuel requestSize
    rw [heq]
    exact allocateFrame_refused T fuel requestSize hs₀ hfit
  · exact allocateFrame_refused T fuel requestSize h hfit

theorem granted_of_allocateFrame {τ : Type} {R : UsableRegion} {mem : Bytes}
    {table : τ} (T : SizeTable τ) {fuel : ℕ} {requestSize : Word}
    {s s' : FrameMachine τ} {used : ℕ} {f : Word}
    (hs : AllocState R mem table s used)
    (hcall : (allocateFrame T fuel requestSize).run s = .ok f s') :
    used + (roundUpToPageBoundary requestSize).toNat ≤ R.length.toNat ∧
      f = R.start + BitVec.ofNat 64 used ∧
      Granted R T s s' used (roundUpToPageBoundary requestSize) := by
  have hfit : used + (roundUpToPageBoundary requestSize).toNat ≤
      R.length.toNat := by
    by_contra hlt
    obtain ⟨t, ht⟩ := hs.refused T fuel requestSize (by omega)
    rw [hcall] at ht
    exact absurd ht (by simp)
  obtain ⟨t, hrun, hg⟩ := allocateFrame_granted T fuel requestSize hs hfit
  rw [hcall] at hrun
  simp only [EStateM.Result.ok.injEq] at hrun
  obtain ⟨rfl, rfl⟩ := hrun
  exact ⟨hfit, rfl, hg⟩

structure FramesBelow (R : UsableRegion) (frames : List Frame) (used : ℕ) :
    Prop where
  disjoint : frames.Pairwise fun g h =>
    Disjoint (g.bytes R.hhdmOffset) (h.bytes R.hhdmOffset)
  below : ∀ g ∈ frames, ∃ o, g.address = R.start + BitVec.ofNat 64 o ∧
    o + g.size.toNat ≤ used

theorem UsableRegion.bytes_eq (R : UsableRegion) (o : ℕ) (n : Word) :
    Frame.bytes R.hhdmOffset ⟨R.start + BitVec.ofNat 64 o, n⟩ =
      region (R.addr o) n.toNat := by
  rw [Frame.bytes, UsableRegion.addr, UsableRegion.base, BitVec.add_assoc,
    BitVec.add_comm (BitVec.ofNat 64 o), ← BitVec.add_assoc]

theorem FramesBelow.disjoint_region {R : UsableRegion} {frames : List Frame}
    {used : ℕ} (h : FramesBelow R frames used) {g : Frame} (hg : g ∈ frames)
    {n : ℕ} (hn : used + n ≤ 2 ^ 64) :
    Disjoint (g.bytes R.hhdmOffset) (region (R.addr used) n) := by
  obtain ⟨o, ho, hle⟩ := h.below g hg
  have hg' : g = ⟨R.start + BitVec.ofNat 64 o, g.size⟩ := by rw [← ho]
  rw [hg', R.bytes_eq]
  exact R.disjoint_region hle hn

theorem FramesBelow.snoc {R : UsableRegion} {frames : List Frame} {used : ℕ}
    (h : FramesBelow R frames used) {n : Word}
    (hn : used + n.toNat ≤ R.length.toNat) :
    FramesBelow R (frames ++ [⟨R.start + BitVec.ofNat 64 used, n⟩])
      (used + n.toNat) := by
  have hlen := R.length.isLt
  refine ⟨?_, ?_⟩
  · rw [List.pairwise_append]
    refine ⟨h.disjoint, List.pairwise_singleton _ _, ?_⟩
    intro g hg f hf
    rw [List.mem_singleton.1 hf, R.bytes_eq]
    exact h.disjoint_region hg (by omega)
  · intro g hg
    rcases List.mem_append.1 hg with hg | hg
    · obtain ⟨o, ho, hle⟩ := h.below g hg
      exact ⟨o, ho, by omega⟩
    · rw [List.mem_singleton.1 hg]
      exact ⟨used, rfl, le_rfl⟩

def totalRounded (rs : List Word) : ℕ :=
  (rs.map fun r => (roundUpToPageBoundary r).toNat).sum

theorem allocState_of_run {τ : Type} {R : UsableRegion} {mem : Bytes}
    {table : τ} (T : SizeTable τ) {fuel : ℕ} {rs : List Word}
    {s : FrameMachine τ × List Frame}
    (h : Run (allocateStep T fuel) (bootMachine R mem table, []) rs s) :
    AllocState R mem table s.1 (totalRounded rs) ∧
      FramesBelow R s.2 (totalRounded rs) := by
  refine h.invariant_labels (fun rs s =>
    AllocState R mem table s.1 (totalRounded rs) ∧
      FramesBelow R s.2 (totalRounded rs))
    ⟨Or.inl ⟨rfl, rfl⟩, List.Pairwise.nil, by simp⟩ ?_
  rintro rs ⟨s, frames⟩ r ⟨s', frames'⟩ ⟨hs, hframes⟩ ⟨f, hcall, rfl⟩
  obtain ⟨hfit, rfl, hg⟩ := granted_of_allocateFrame T hs hcall
  have htotal : totalRounded (rs ++ [r]) =
      totalRounded rs + (roundUpToPageBoundary r).toNat := by
    simp [totalRounded]
  rw [htotal]
  exact ⟨Or.inr hg.state, hframes.snoc hfit⟩

def roundedSize (requestSize : Word) : ℕ :=
  (requestSize.toNat + 4095) / 4096 * 4096

theorem totalRounded_eq {rs : List Word}
    (h : ∀ q ∈ rs, q.toNat ≤ 2 ^ 64 - 4096) :
    totalRounded rs = (rs.map roundedSize).sum := by
  rw [totalRounded, List.map_congr_left fun q hq =>
    toNat_roundUpToPageBoundary (h q hq)]
  rfl

/-- The next call after a run of requests `rs`: where its frame lies, what the
frame and the earlier frames hold, and what the free list and the counters
say. -/
theorem allocateFrame_after_run {τ : Type} (R : UsableRegion) (mem : Bytes)
    (T : SizeTable τ) (table : τ) (fuel : ℕ) {rs : List Word} {r : Word}
    {s s' : FrameMachine τ} {frames : List Frame} {f : Word}
    (hsize : ∀ q ∈ rs ++ [r], 1 ≤ q.toNat ∧ q.toNat ≤ 2 ^ 64 - 4096)
    (hrun : Run (allocateStep T fuel) (bootMachine R mem table, []) rs
      (s, frames))
    (hcall : (allocateFrame T fuel r).run s = .ok f s') :
    f.toNat = R.start.toNat + (rs.map roundedSize).sum ∧
      f.toNat % 4096 = 0 ∧
      f.toNat + roundedSize r ≤ R.start.toNat + R.length.toNat ∧
      List.Pairwise (fun g h : Frame =>
          Disjoint (g.bytes R.hhdmOffset) (h.bytes R.hhdmOffset))
        (frames ++ [⟨f, roundUpToPageBoundary r⟩]) ∧
      (∀ x ∈ region (f + R.hhdmOffset) (roundedSize r), s'.mem x = 0) ∧
      (∀ g ∈ frames, ∀ x ∈ g.bytes R.hhdmOffset, s'.mem x = s.mem x) ∧
      (BlockList s'.mem s'.globals.head [s'.globals.head] ∧
        s'.globals.freeBlock = s'.globals.head ∧
        fBlock.get s'.mem s'.globals.head .size =
          s'.globals.globalBootInfo.memory.freeMemSize) ∧
      s'.globals.usedMemory.toNat +
        s'.globals.globalBootInfo.memory.freeMemSize.toNat =
          R.length.toNat := by
  have hround : ∀ q ∈ rs ++ [r],
      (roundUpToPageBoundary q).toNat = roundedSize q := fun q hq =>
    toNat_roundUpToPageBoundary (hsize q hq).2
  obtain ⟨hs, hframes⟩ := allocState_of_run T hrun
  obtain ⟨hfit, rfl, hg⟩ := granted_of_allocateFrame T hs hcall
  have htotal : totalRounded rs = (rs.map roundedSize).sum :=
    totalRounded_eq fun q hq => (hsize q (List.mem_append_left _ hq)).2
  have hlast := hround r (by simp)
  have hphys := R.physical
  have hlen := R.length.isLt
  have hlen' := R.length_le
  have hpos : 1 ≤ roundedSize r := by
    have h1 := (hsize r (by simp)).1
    rw [roundedSize]
    omega
  have haligned : ∀ rs' : List Word, totalRounded rs' % 4096 = 0 := by
    intro rs'
    induction rs' with
    | nil => rfl
    | cons q qs ih =>
        have hq := roundUpToPageBoundary_mod q
        simp only [totalRounded, List.map_cons, List.sum_cons] at ih ⊢
        omega
  have hf : (R.start + BitVec.ofNat 64 (totalRounded rs)).toNat =
      R.start.toNat + totalRounded rs := by
    rw [BitVec.toNat_add, BitVec.toNat_ofNat]
    omega
  have hmod : (R.start.toNat + totalRounded rs) % 4096 = 0 := by
    have h1 := haligned rs
    have h2 := R.start_aligned
    omega
  have hbytes : region (R.start + BitVec.ofNat 64 (totalRounded rs) +
      R.hhdmOffset) (roundedSize r) =
        region (R.addr (totalRounded rs)) (roundedSize r) := by
    rw [← hlast]
    exact R.bytes_eq (totalRounded rs) (roundUpToPageBoundary r)
  have hst := hg.state
  refine ⟨by rw [hf, htotal], by rw [hf, hmod], by rw [hf]; omega,
    (hframes.snoc hfit).disjoint, ?_, ?_, ⟨?_, ?_, ?_⟩, ?_⟩
  · rw [hbytes, ← hlast]
    exact hg.zero
  · intro g hg' x hx
    exact (hg.frame x (Set.disjoint_left.1
      (hframes.disjoint_region hg' (by omega)) hx)).symm
  · rw [hst.head]
    exact blockList_singleton (R.addr_ne_zero hst.used_le) hst.next
  · rw [hst.head, hst.freeBlock]
  · rw [hst.head, hst.size, hst.info]
  · have hle := hst.used_le
    rw [hst.usedMemory, hst.info, BitVec.toNat_ofNat, BitVec.toNat_ofNat]
    omega

/-- A usable region of sixteen pages at 1 MB, reached through the usual direct
map. -/
def smallRegion : UsableRegion where
  start := 0x100000
  length := 0x10000
  hhdmOffset := 0xffff800000000000
  start_ne := by decide
  start_aligned := by decide
  length_aligned := by decide
  physical := by decide
  base_ne := by decide
  window := by decide

theorem allocateFrame_smallRegion (mem : Bytes) :
    ∃ s', (allocateFrame addressSizeTable 0 1).run
        (bootMachine smallRegion mem HashTable.zero) = .ok 0x100000 s' := by
  obtain ⟨s', hrun, -⟩ := allocateFrame_first smallRegion mem HashTable.zero
    addressSizeTable 0 1 (by decide)
  exact ⟨s', hrun⟩

theorem exists_run_of_fits {τ : Type} (R : UsableRegion) (mem : Bytes)
    (T : SizeTable τ) (table : τ) (fuel : ℕ) (rs : List Word)
    (hfit : totalRounded rs ≤ R.length.toNat) :
    ∃ s, Run (allocateStep T fuel) (bootMachine R mem table, []) rs s := by
  induction rs using List.reverseRecOn with
  | nil => exact ⟨_, .nil⟩
  | append_singleton rs r ih =>
      have htotal : totalRounded (rs ++ [r]) =
          totalRounded rs + (roundUpToPageBoundary r).toNat := by
        simp [totalRounded]
      rw [htotal] at hfit
      obtain ⟨s, hrun⟩ := ih (by omega)
      obtain ⟨hs, -⟩ := allocState_of_run T hrun
      obtain ⟨s', hcall, -⟩ := allocateFrame_granted T fuel r hs hfit
      have hstep : allocateStep T fuel s r (s', s.2 ++
          [⟨R.start + BitVec.ofNat 64 (totalRounded rs),
            roundUpToPageBoundary r⟩]) := ⟨_, hcall, rfl⟩
      exact ⟨_, hrun.snoc hstep⟩

/-- A request of two pages after one of a byte and one of a page and a byte. -/
theorem allocateFrame_after_run_smallRegion :
    ∃ s s' frames f, Run (allocateStep addressSizeTable 0)
        (bootMachine smallRegion (fun _ => 0) HashTable.zero, []) [1, 4097]
        (s, frames) ∧
      (allocateFrame addressSizeTable 0 8192).run s = .ok f s' ∧
      frames.length = 2 ∧ f.toNat = 0x103000 ∧
      List.Pairwise (fun g h : Frame =>
          Disjoint (g.bytes smallRegion.hhdmOffset)
            (h.bytes smallRegion.hhdmOffset))
        (frames ++ [⟨f, roundUpToPageBoundary 8192⟩]) ∧
      (∀ x ∈ region (f + smallRegion.hhdmOffset) 8192, s'.mem x = 0) ∧
      (∀ g ∈ frames, ∀ x ∈ g.bytes smallRegion.hhdmOffset,
        s'.mem x = s.mem x) ∧
      s'.globals.usedMemory.toNat +
        s'.globals.globalBootInfo.memory.freeMemSize.toNat = 0x10000 := by
  obtain ⟨⟨s, frames⟩, hrun⟩ := exists_run_of_fits smallRegion (fun _ => 0)
    addressSizeTable HashTable.zero 0 [1, 4097] (by decide)
  obtain ⟨hs, -⟩ := allocState_of_run addressSizeTable hrun
  obtain ⟨s', hcall, -⟩ := allocateFrame_granted addressSizeTable 0 8192 hs
    (by decide)
  have hlength : frames.length = [1, (4097 : Word)].length :=
    hrun.invariant_labels (fun rs s => s.2.length = rs.length) rfl
      fun rs u r v hu ⟨f, _, hframes⟩ => by simp [hframes, hu]
  have hsize : ∀ q ∈ [1, 4097] ++ [(8192 : Word)], 1 ≤ q.toNat ∧
      q.toNat ≤ 2 ^ 64 - 4096 := by simp
  obtain ⟨haddress, -, -, hdisjoint, hzero, hkept, -, hbalance⟩ :=
    allocateFrame_after_run smallRegion (fun _ => 0) addressSizeTable
      HashTable.zero 0 hsize hrun hcall
  exact ⟨s, s', frames, _, hrun, hcall, hlength, haddress, hdisjoint, hzero,
    hkept, hbalance⟩

end OptimistOS
