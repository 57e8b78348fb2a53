import OptimistOS.Foundation.Masks
import OptimistOS.Paging.PageFrameAllocator

/-!
# Allocation from one block

Until a frame is freed, the free list is a single block that shrinks from below:
the frames handed out fill the usable region from its start, and the header of
the rest lies right behind them. `BumpState R s used` says so for the first
`used` bytes of the region `R`; `allocateFrame_bump` is the effect of one call.
-/

namespace OptimistOS

open ByteMemory ByteMemory.Code

theorem toNat_roundUpToPageBoundary {size : Word}
    (h : size.toNat ≤ 2 ^ 64 - 4096) :
    (roundUpToPageBoundary size).toNat = (size.toNat + 4095) / 4096 * 4096 := by
  have hmod : (size % 4096).toNat = size.toNat % 4096 := by
    simp [BitVec.toNat_umod]
  rw [roundUpToPageBoundary]
  split_ifs with h0
  · have hzero : size.toNat % 4096 = 0 := hmod.symm.trans (by rw [h0]; rfl)
    omega
  · have hne : size.toNat % 4096 ≠ 0 := by
      rw [← hmod]
      exact fun he => h0 (BitVec.eq_of_toNat_eq (by simpa using he))
    have hadd : (size + 4096 - 1).toNat = size.toNat + 4095 := by
      have hadd' : (size + 4096).toNat = size.toNat + 4096 - 2 ^ 64 ∨
          (size + 4096).toNat = size.toNat + 4096 := by
        bv_omega
      bv_omega
    have hmask := toNat_and_not_mask (size + 4096 - 1) 12
    rw [hadd] at hmask
    exact hmask

/-- Every rounded size is a number of whole pages, also when the rounding
wraps. -/
theorem roundUpToPageBoundary_mod (size : Word) :
    (roundUpToPageBoundary size).toNat % 4096 = 0 := by
  rw [roundUpToPageBoundary]
  split_ifs with h0
  · have hmod := congrArg BitVec.toNat h0
    simpa [BitVec.toNat_umod] using hmod
  · have hmask := toNat_and_not_mask (size + 4096 - 1) 12
    rw [show BitVec.ofNat 64 (2 ^ 12 - 1) = (4096 - 1 : Word) from rfl] at hmask
    rw [hmask]
    exact Nat.mul_mod_left _ _

/-- The usable region chosen at boot and the direct map it is reached through.
`boot.cpp` refuses a region that starts at 0. The direct map is one window of
non-null pointers that ends below the kernel image at the top of the address
space. -/
structure UsableRegion where
  start : Word
  length : Word
  hhdmOffset : Word
  start_ne : start ≠ 0
  start_aligned : start.toNat % 4096 = 0
  length_aligned : length.toNat % 4096 = 0
  physical : start.toNat + length.toNat ≤ 2 ^ 64
  base_ne : start + hhdmOffset ≠ 0
  window : (start + hhdmOffset).toNat + length.toNat < 2 ^ 64

namespace UsableRegion

def base (R : UsableRegion) : Addr := R.start + R.hhdmOffset

def addr (R : UsableRegion) (i : ℕ) : Addr := R.base + BitVec.ofNat 64 i

theorem length_le (R : UsableRegion) : R.length.toNat + 4096 ≤ 2 ^ 64 := by
  have hlt := R.length.isLt
  have hmod := R.length_aligned
  omega

theorem toNat_addr (R : UsableRegion) {i : ℕ} (hi : i ≤ R.length.toNat) :
    (R.addr i).toNat = R.base.toNat + i := by
  have hwin := R.window
  have hlt := R.length.isLt
  rw [UsableRegion.addr, BitVec.toNat_add, BitVec.toNat_ofNat,
    Nat.mod_eq_of_lt (by omega : i < 2 ^ 64)]
  exact Nat.mod_eq_of_lt (by rw [base]; omega)

theorem base_pos (R : UsableRegion) : 0 < R.base.toNat :=
  Nat.pos_of_ne_zero fun h => R.base_ne (BitVec.eq_of_toNat_eq h)

theorem addr_ne_zero (R : UsableRegion) {i : ℕ} (hi : i ≤ R.length.toNat) :
    R.addr i ≠ 0 := by
  intro h
  have hnat := R.toNat_addr hi
  rw [h] at hnat
  have hpos := R.base_pos
  have hzero : (0 : Addr).toNat = 0 := rfl
  omega

theorem addr_zero (R : UsableRegion) : R.addr 0 = R.base := by
  simp [addr]

theorem addr_inj (R : UsableRegion) {i j : ℕ} (hi : i ≤ R.length.toNat)
    (hj : j ≤ R.length.toNat) (h : R.addr i = R.addr j) : i = j := by
  have hlt := R.length.isLt
  exact add_ofNat_inj R.base (by omega) (by omega) h

theorem addr_mem_region (R : UsableRegion) {i o n : ℕ}
    (hi : i < R.length.toNat) (ho : o + n ≤ R.length.toNat) :
    R.addr i ∈ region (R.addr o) n ↔ o ≤ i ∧ i < o + n := by
  have hlt := R.length.isLt
  rw [mem_region_iff_exists _ _ (by omega)]
  constructor
  · rintro ⟨j, hj, h⟩
    rw [addr, addr, add_ofNat_add_ofNat] at h
    have hij := add_ofNat_inj R.base (by omega) (by omega) h
    omega
  · rintro ⟨hle, hlt'⟩
    refine ⟨i - o, by omega, ?_⟩
    rw [addr, addr, add_ofNat_add_ofNat, show o + (i - o) = i by omega]

theorem disjoint_region (R : UsableRegion) {o n o' n' : ℕ} (h : o + n ≤ o')
    (h' : o' + n' ≤ 2 ^ 64) :
    Disjoint (region (R.addr o) n) (region (R.addr o') n') :=
  disjoint_region_of_le R.base h h'

theorem addr_add (R : UsableRegion) (i : ℕ) (n : Word) :
    R.addr i + n = R.addr (i + n.toNat) := by
  rw [UsableRegion.addr, UsableRegion.addr, ← add_ofNat_add_ofNat,
    BitVec.ofNat_toNat, BitVec.setWidth_eq]

theorem addr_sub (R : UsableRegion) (i : ℕ) :
    R.addr i - R.hhdmOffset = R.start + BitVec.ofNat 64 i := by
  rw [UsableRegion.addr, base, BitVec.add_assoc,
    BitVec.add_comm R.hhdmOffset, ← BitVec.add_assoc, BitVec.add_sub_cancel]

end UsableRegion

/-- The machine before the first call: nothing is built yet, and the boot
information describes the region `R`. -/
def bootMachine {τ : Type} (R : UsableRegion) (mem : Bytes) (table : τ) :
    FrameMachine τ where
  mem := mem
  globals :=
    { globalBootInfo := ⟨⟨R.start, R.length, R.hhdmOffset⟩⟩
      head := 0
      freeBlock := 0
      totalMemory := 0
      usedMemory := 0
      bootInformation := BootInfo.zero
      addressSizeHT := table }

/-- The first `used` bytes of the region are handed out; the rest is the one
block of the free list. -/
structure BumpState {τ : Type} (R : UsableRegion) (s : FrameMachine τ)
    (used : ℕ) : Prop where
  used_le : used ≤ R.length.toNat
  head : s.globals.head = R.addr used
  freeBlock : s.globals.freeBlock = R.addr used
  next : fBlock.get s.mem (R.addr used) .next = 0
  size : fBlock.get s.mem (R.addr used) .size =
    BitVec.ofNat 64 (R.length.toNat - used)
  info : s.globals.globalBootInfo =
    ⟨⟨R.start, BitVec.ofNat 64 (R.length.toNat - used), R.hhdmOffset⟩⟩
  copy : s.globals.bootInformation = s.globals.globalBootInfo
  usedMemory : s.globals.usedMemory = BitVec.ofNat 64 used

def takenMachine {τ : Type} (T : SizeTable τ) (p : Addr) (n : Word)
    (s : FrameMachine τ) : FrameMachine τ where
  mem := memoryset (splitBlock s.mem p n) p 0 n.toNat
  globals :=
    { s.globals with
      head := p + n
      freeBlock := p + n
      bootInformation.memory.freeMemSize :=
        s.globals.bootInformation.memory.freeMemSize - n
      globalBootInfo :=
        { s.globals.bootInformation with
          memory.freeMemSize :=
            s.globals.bootInformation.memory.freeMemSize - n }
      usedMemory := s.globals.usedMemory + n
      addressSizeHT := T.insert s.globals.addressSizeHT p n }

theorem run_takeBlock {τ : Type} (T : SizeTable τ) (p : Addr) (n : Word)
    (s : FrameMachine τ) :
    (takeBlock T p n).run s =
      .ok (p - s.globals.bootInformation.memory.hhdmOffset)
        (takenMachine T p n s) := by
  simp only [takeBlock, toPhysicalAddr, loadBootInfo, takenMachine,
    EStateM.run_bind, EStateM.run_get, EStateM.run_pure, run_modifyGlobals,
    run_modifyMem, ite_self]

theorem agreeOff_splitBlock (m : Bytes) (p : Addr) (n : Word) :
    AgreeOff (region p 40 ∪ region (p + n) 40) m (splitBlock m p n) := by
  intro x hx
  simp only [Set.mem_union, not_or] at hx
  have hp : ∀ (m : Bytes) (f : FBlock) (v : Word),
      fBlock.set m p f v x = m x := fun m f v =>
    (fBlock.agreeOff_set m p f v x hx.1).symm
  have hq : ∀ (m : Bytes) (f : FBlock) (v : Word),
      fBlock.set m (p + n) f v x = m x := fun m f v =>
    (fBlock.agreeOff_set m (p + n) f v x hx.2).symm
  rw [splitBlock, hq, hq, hq, hq, hp]

/-- The header of the rest, for a request of no bytes (the rest is the block
itself) and for one that clears the header of the block. -/
theorem splitBlock_rest (m : Bytes) (p : Addr) (n : Word)
    (hn : n = 0 ∨ 40 ≤ n.toNat ∧ n.toNat + 40 ≤ 2 ^ 64) :
    fBlock.get (splitBlock m p n) (p + n) .size = fBlock.get m p .size - n ∧
      fBlock.get (splitBlock m p n) (p + n) .next = fBlock.get m p .next := by
  rcases hn with rfl | ⟨hlow, hhigh⟩
  · have hp : p + 0 = p := by simp
    rw [splitBlock, hp]
    constructor <;> simp [fBlock.get_set_of_ne]
  · have hdisj : Disjoint (fBlock.recordRegion p)
        (fBlock.recordRegion (p + n)) := by
      have h := disjoint_region_of_le p (i := 0) (n := 40) (j := n.toNat)
        (k := 40) (by omega) hhigh
      simpa [Layout.recordRegion, fBlock] using h
    have hother : ∀ (m : Bytes) (f g : FBlock) (v : Word),
        fBlock.get (fBlock.set m (p + n) g v) p f = fBlock.get m p f :=
      fun m f g v => fBlock.get_set_of_disjoint fBlock m f g v hdisj
    rw [splitBlock]
    constructor <;> simp [fBlock.get_set_of_ne, hother]

theorem eq_zero_or_of_mod {n : Word} (hn : n.toNat % 4096 = 0) :
    n = 0 ∨ 40 ≤ n.toNat ∧ n.toNat + 40 ≤ 2 ^ 64 := by
  by_cases h : n.toNat = 0
  · exact Or.inl (BitVec.eq_of_toNat_eq h)
  · have hlt := n.isLt
    exact Or.inr ⟨by omega, by omega⟩

theorem takenMachine_mem {τ : Type} (T : SizeTable τ) (p : Addr) (n : Word)
    (s : FrameMachine τ) :
    (takenMachine T p n s).mem = fill (splitBlock s.mem p n) p n.toNat 0 :=
  memoryset_eq_fill _ p 0 n.isLt.le

theorem takenMachine_zero {τ : Type} (T : SizeTable τ) (p : Addr) (n : Word)
    (s : FrameMachine τ) {x : Addr} (hx : x ∈ region p n.toNat) :
    (takenMachine T p n s).mem x = 0 := by
  rw [takenMachine_mem, fill_of_mem _ _ hx]

theorem agreeOff_takenMachine {τ : Type} (T : SizeTable τ) (p : Addr)
    (n : Word) (s : FrameMachine τ) (hn : n.toNat % 4096 = 0) :
    AgreeOff (region p (n.toNat + 40)) s.mem (takenMachine T p n s).mem := by
  have hlt := n.isLt
  have hrest : region (p + n) 40 ⊆ region p (n.toNat + 40) := by
    have h := region_subset_of_le p (i := n.toNat) (n := 40)
      (k := n.toNat + 40) le_rfl (by omega)
    rwa [BitVec.ofNat_toNat, BitVec.setWidth_eq] at h
  have hsplit := (agreeOff_splitBlock s.mem p n).mono
    (Set.union_subset (region_mono p (by omega)) hrest)
  have hfill := (agreeOff_fill (splitBlock s.mem p n) p n.toNat 0).mono
    (region_mono p (by omega : n.toNat ≤ n.toNat + 40))
  rw [takenMachine_mem]
  simpa using hsplit.trans hfill

theorem takenMachine_rest {τ : Type} (T : SizeTable τ) (p : Addr) (n : Word)
    (s : FrameMachine τ) (hn : n.toNat % 4096 = 0) :
    fBlock.get (takenMachine T p n s).mem (p + n) .size =
        fBlock.get s.mem p .size - n ∧
      fBlock.get (takenMachine T p n s).mem (p + n) .next =
        fBlock.get s.mem p .next := by
  have hlt := n.isLt
  have hdisj : Disjoint (fBlock.recordRegion (p + n)) (region p n.toNat) := by
    have h := disjoint_region_of_le p (i := 0) (n := n.toNat) (j := n.toNat)
      (k := 40) (by omega) (by omega)
    rw [BitVec.ofNat_toNat, BitVec.setWidth_eq] at h
    simpa [Layout.recordRegion, fBlock] using h.symm
  have hkeep : ∀ f, fBlock.get (takenMachine T p n s).mem (p + n) f =
      fBlock.get (splitBlock s.mem p n) (p + n) f := by
    intro f
    rw [takenMachine_mem]
    exact fBlock.get_congr (agreeOff_fill _ p n.toNat 0) (p + n) f hdisj
  rw [hkeep, hkeep]
  exact splitBlock_rest s.mem p n (eq_zero_or_of_mod hn)

/-- What a granted request of `n` rounded bytes does when `used` bytes are
handed out already. -/
structure Granted {τ : Type} (R : UsableRegion) (T : SizeTable τ)
    (s s' : FrameMachine τ) (used : ℕ) (n : Word) : Prop where
  state : BumpState R s' (used + n.toNat)
  zero : ∀ x ∈ region (R.addr used) n.toNat, s'.mem x = 0
  frame : AgreeOff (region (R.addr used) (n.toNat + 40)) s.mem s'.mem
  table : s'.globals.addressSizeHT =
    T.insert s.globals.addressSizeHT (R.addr used) n

theorem granted_takenMachine {τ : Type} {R : UsableRegion} (T : SizeTable τ)
    {s : FrameMachine τ} {used : ℕ} {n : Word} (hs : BumpState R s used)
    (hn : n.toNat % 4096 = 0) (hfit : used + n.toNat ≤ R.length.toNat) :
    Granted R T s (takenMachine T (R.addr used) n s) used n := by
  have hsub : BitVec.ofNat 64 (R.length.toNat - used) - n =
      BitVec.ofNat 64 (R.length.toNat - (used + n.toNat)) := by
    have hlt := R.length.isLt
    apply BitVec.eq_of_toNat_eq
    rw [BitVec.toNat_sub, BitVec.toNat_ofNat, BitVec.toNat_ofNat]
    omega
  obtain ⟨hsize, hnext⟩ := takenMachine_rest T (R.addr used) n s hn
  rw [R.addr_add] at hsize hnext
  refine ⟨⟨hfit, ?_, ?_, hnext.trans hs.next, ?_, ?_, ?_, ?_⟩,
    fun x hx => takenMachine_zero T _ n s hx,
    agreeOff_takenMachine T _ n s hn, rfl⟩
  · exact R.addr_add used n
  · exact R.addr_add used n
  · rw [hsize, hs.size, hsub]
  · simp only [takenMachine, hs.copy, hs.info, hsub]
  · rfl
  · simp only [takenMachine, hs.usedMemory]
    rw [BitVec.ofNat_add, BitVec.ofNat_toNat, BitVec.setWidth_eq]

theorem run_ensureFreeList_of_ne {τ : Type} {s : FrameMachine τ}
    (h : s.globals.head ≠ 0) : ensureFreeList.run s = .ok () s := by
  rw [ensureFreeList, EStateM.run_bind, EStateM.run_get]
  simp only [if_neg h, EStateM.run_pure]

theorem run_toVirtualAddr {τ : Type} {addr : Word} (h : addr ≠ -1)
    (s : FrameMachine τ) :
    (toVirtualAddr addr).run s =
      .ok (addr + (if s.globals.bootInformation.memory.hhdmOffset = 0 then
            s.globals.globalBootInfo
          else s.globals.bootInformation).memory.hhdmOffset)
        { s with globals :=
            if s.globals.bootInformation.memory.hhdmOffset = 0 then
              { s.globals with bootInformation := s.globals.globalBootInfo }
            else s.globals } := by
  rw [toVirtualAddr, if_neg h, loadBootInfo, EStateM.run_bind,
    run_modifyGlobals]
  split_ifs <;> rfl

theorem run_toVirtualAddr_bump {τ : Type} {R : UsableRegion}
    {s : FrameMachine τ} {used : ℕ} (hs : BumpState R s used) {addr : Word}
    (h : addr ≠ -1) :
    (toVirtualAddr addr).run s = .ok (addr + R.hhdmOffset) s := by
  have hload : (if s.globals.bootInformation.memory.hhdmOffset = 0 then
      { s.globals with bootInformation := s.globals.globalBootInfo }
      else s.globals) = s.globals := by
    rw [← hs.copy]
    exact ite_self _
  rw [run_toVirtualAddr h, hload, hs.copy, hs.info]
  simp only [ite_self]

theorem run_ensureFreeList_boot {τ : Type} (R : UsableRegion) (mem : Bytes)
    (table : τ) :
    ∃ s, ensureFreeList.run (bootMachine R mem table) = .ok () s ∧
      BumpState R s 0 ∧ AgreeOff (region R.base 40) mem s.mem ∧
      s.globals.addressSizeHT = table := by
  have hne : R.start ≠ -1 := by
    intro h
    have hmod := R.start_aligned
    rw [h] at hmod
    exact absurd hmod (by decide)
  refine ⟨_, by
    simp only [ensureFreeList, initFreeList, bootMachine, BootInfo.zero,
      EStateM.run_bind, EStateM.run_get, if_pos, run_toVirtualAddr hne,
      run_modifyMem, EStateM.run_pure, run_modifyGlobals]
    rfl, ⟨Nat.zero_le _, ?_, ?_, ?_, ?_, ?_, rfl, rfl⟩, ?_, rfl⟩
  · rw [R.addr_zero, UsableRegion.base]
  · rw [R.addr_zero, UsableRegion.base]
  · rw [R.addr_zero]
    simp [fBlock.get_set_of_ne, UsableRegion.base]
  · rw [R.addr_zero]
    simp [fBlock.get_set_of_ne, UsableRegion.base]
  · simp
  · intro x hx
    have hset : ∀ (m : Bytes) (f : FBlock) (v : Word),
        fBlock.set m R.base f v x = m x := fun m f v =>
      (fBlock.agreeOff_set m R.base f v x hx).symm
    simp only [UsableRegion.base] at hset
    simp only [hset]

/-- One call while the free list is the single block behind `used` bytes. -/
theorem allocateFrame_bump {τ : Type} {R : UsableRegion} (T : SizeTable τ)
    (fuel : ℕ) (requestSize : Word) {s : FrameMachine τ} {used : ℕ}
    (hs : BumpState R s used)
    (hfit : used + (roundUpToPageBoundary requestSize).toNat ≤
      R.length.toNat) :
    ∃ s', (allocateFrame T fuel requestSize).run s =
        .ok (R.start + BitVec.ofNat 64 used) s' ∧
      Granted R T s s' used (roundUpToPageBoundary requestSize) := by
  set n := roundUpToPageBoundary requestSize with hn
  have hlt := R.length.isLt
  have hhead := R.addr_ne_zero hs.used_le
  have hne : s.globals.head ≠ 0 := by rwa [hs.head]
  have hsize : n ≤ BitVec.ofNat 64 (R.length.toNat - used) := by
    rw [BitVec.le_def, BitVec.toNat_ofNat]
    omega
  have hroom : ¬ BitVec.ofNat 64 (R.length.toNat - used) < n :=
    BitVec.not_lt.2 hsize
  -- the machine `takeBlock` starts from differs from `s` in `totalMemory` only
  let s₁ : FrameMachine τ :=
    { s with globals := { s.globals with
        totalMemory := BitVec.ofNat 64 (R.length.toNat - used) } }
  have hs₁ : BumpState R s₁ used :=
    ⟨hs.used_le, hs.head, hs.freeBlock, hs.next, hs.size, hs.info, hs.copy,
      hs.usedMemory⟩
  have hg := granted_takenMachine T hs₁ (roundUpToPageBoundary_mod requestSize)
    hfit
  refine ⟨takenMachine T (R.addr used) n s₁, ?_, hg.state, hg.zero, hg.frame,
    hg.table⟩
  have hfit' : fitSearch s.mem n fuel (R.addr used) = some (R.addr used) := by
    rw [fitSearch, if_pos ⟨hs.next, by rwa [hs.size]⟩]
  rw [allocateFrame, run_bind_of_ok (run_ensureFreeList_of_ne hne)]
  simp only [EStateM.run_bind, run_modifyGlobals, EStateM.run_get, ← hn,
    hs.info, if_neg hroom, hs.freeBlock, hfit', if_neg hhead, run_takeBlock]
  simp only [s₁, hs.head, hs.copy, hs.info, hs.freeBlock, R.addr_sub]

theorem allocateFrame_refused {τ : Type} {R : UsableRegion} (T : SizeTable τ)
    (fuel : ℕ) (requestSize : Word) {s : FrameMachine τ} {used : ℕ}
    (hs : BumpState R s used)
    (hfit : R.length.toNat <
      used + (roundUpToPageBoundary requestSize).toNat) :
    ∃ s', (allocateFrame T fuel requestSize).run s = .error .halt s' := by
  have hlt := R.length.isLt
  have hle := hs.used_le
  have hne : s.globals.head ≠ 0 := by
    rw [hs.head]
    exact R.addr_ne_zero hle
  have hroom : BitVec.ofNat 64 (R.length.toNat - used) <
      roundUpToPageBoundary requestSize := by
    rw [BitVec.lt_def, BitVec.toNat_ofNat]
    omega
  exact ⟨_, by
    rw [allocateFrame, run_bind_of_ok (run_ensureFreeList_of_ne hne)]
    simp only [EStateM.run_bind, run_modifyGlobals, EStateM.run_get, hs.info,
      if_pos hroom, run_throw]
    rfl⟩

end OptimistOS
