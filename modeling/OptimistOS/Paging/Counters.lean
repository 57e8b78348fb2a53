import OptimistOS.Paging.AllocationStores
import OptimistOS.Paging.FrameFree
import Mathlib.Algebra.BigOperators.Group.Finset.Basic
import Mathlib.Algebra.Order.BigOperators.Group.Finset

/-!
# The counters of the frame allocator

`usedMemory` and the `freeMemSize` of the boot information are changed by every
call of `allocateFrame` and `freeFrame`. A granted request moves its rounded
size from one to the other. A freed frame moves the size back that the table
remembers, an `int`; but `freeFrame` only adds it to `freeMemSize` when that
counter is not zero.
-/

namespace OptimistOS

open ByteMemory ByteMemory.Code Transition

/-- A correct map from the frames to the `int` values that were inserted. -/
def intSizeTable : SizeTable (Addr → Option (BitVec 32)) where
  insert t key size := Function.update t key (some (size.truncate 32))
  search t key :=
    if t key = some (-1) then none else (t key).map (BitVec.signExtend 64)
  deleteKey t key := Function.update t key none

abbrev IntMachine := FrameMachine (Addr → Option (BitVec 32))

section

variable {τ : Type} {T : SizeTable τ} {fuel : ℕ} {s s' : FrameMachine τ}

theorem run_ensureFreeList_counters (s : FrameMachine τ) :
    ∃ t, ensureFreeList.run s = .ok () t ∧
      t.globals.globalBootInfo = s.globals.globalBootInfo ∧
      t.globals.usedMemory = s.globals.usedMemory ∧
      t.globals.addressSizeHT = s.globals.addressSizeHT := by
  by_cases hhead : s.globals.head = 0
  · obtain ⟨a, b, hrun⟩ := run_toVirtualAddr_frame
      s.globals.globalBootInfo.memory.freeMemStart s
    have hbuilt : ∃ m, ensureFreeList.run s = .ok () ⟨m, { s.globals with
        head := a, freeBlock := a, bootInformation := b }⟩ := ⟨_, by
      simp only [ensureFreeList, initFreeList, EStateM.run_bind, EStateM.run_get,
        if_pos hhead, hrun, run_modifyMem, EStateM.run_pure, run_modifyGlobals]
      rfl⟩
    obtain ⟨m, hbuilt⟩ := hbuilt
    exact ⟨_, hbuilt, rfl, rfl, rfl⟩
  · exact ⟨s, run_ensureFreeList_of_ne hhead, rfl, rfl, rfl⟩

/-- What a granted request of `n` rounded bytes does to the counters and the
table. -/
structure Counted (T : SizeTable τ) (s s' : FrameMachine τ) (n : Word) : Prop where
  room : n ≤ s.globals.globalBootInfo.memory.freeMemSize
  usedMemory : s'.globals.usedMemory = s.globals.usedMemory + n
  freeMemSize : s'.globals.globalBootInfo.memory.freeMemSize =
    s.globals.globalBootInfo.memory.freeMemSize - n
  copy : s'.globals.bootInformation = s'.globals.globalBootInfo
  table : ∃ p, s'.globals.addressSizeHT = T.insert s.globals.addressSizeHT p n

theorem counted_takenMachine {p : Addr} {n : Word} {t : FrameMachine τ}
    (hroom : n ≤ s.globals.globalBootInfo.memory.freeMemSize)
    (hcopy : t.globals.bootInformation = s.globals.globalBootInfo)
    (hused : t.globals.usedMemory = s.globals.usedMemory)
    (htable : t.globals.addressSizeHT = s.globals.addressSizeHT) :
    Counted T s (takenMachine T p n t) n :=
  ⟨hroom, congrArg (· + n) hused, by rw [← hcopy]; rfl, rfl,
    ⟨p, by rw [← htable]; rfl⟩⟩

theorem counted_of_allocateFrame {requestSize frame : Word}
    (hrun : (allocateFrame T fuel requestSize).run s = .ok frame s') :
    Counted T s s' (roundUpToPageBoundary requestSize) := by
  obtain ⟨u, hensure, hinfo, hused, htable⟩ := run_ensureFreeList_counters s
  rw [allocateFrame, run_bind_of_ok hensure] at hrun
  simp only [EStateM.run_bind, run_modifyGlobals, EStateM.run_get] at hrun
  by_cases hroom : u.globals.globalBootInfo.memory.freeMemSize <
      roundUpToPageBoundary requestSize
  · simp only [if_pos hroom, run_throw] at hrun
    exact absurd hrun (by simp)
  · rw [if_neg hroom] at hrun
    have hle := hinfo ▸ BitVec.not_lt.1 hroom
    cases hfit : fitSearch u.mem (roundUpToPageBoundary requestSize) fuel
        u.globals.freeBlock with
    | none =>
        simp only [hfit, run_throw] at hrun
        exact absurd hrun (by simp)
    | some c =>
        simp only [hfit, EStateM.run_bind, run_modifyGlobals] at hrun
        by_cases hc : c = 0
        · rw [if_pos hc] at hrun
          obtain ⟨prevBlock, t, hcoalesce, htake⟩ := run_bind_eq_ok.1 hrun
          obtain ⟨d, -, -, -, rfl⟩ := run_coalesce_eq_ok hcoalesce
          rw [run_takeBlock] at htake
          obtain ⟨-, rfl⟩ := EStateM.Result.ok.inj htake
          exact counted_takenMachine hle hinfo hused htable
        · rw [if_neg hc, run_takeBlock] at hrun
          obtain ⟨-, rfl⟩ := EStateM.Result.ok.inj hrun
          exact counted_takenMachine hle hinfo hused htable

def freedInfo (g : FrameGlobals τ) (frame : Word) : BootInfo :=
  if frame ≠ -1 ∧ g.bootInformation.memory.hhdmOffset = 0 then g.globalBootInfo
  else g.bootInformation

def freedPointer (g : FrameGlobals τ) (frame : Word) : Addr :=
  if frame = -1 then 0
  else frame + (freedInfo g frame).memory.hhdmOffset

theorem run_toVirtualAddr_freed (frame : Word) (s : FrameMachine τ) :
    (toVirtualAddr frame).run s = .ok (freedPointer s.globals frame)
      { s with globals := { s.globals with
          bootInformation := freedInfo s.globals frame } } := by
  by_cases h : frame = -1
  · rw [toVirtualAddr, if_pos h, freedPointer, if_pos h, freedInfo,
      if_neg fun hc => hc.1 h]
    rfl
  · rw [run_toVirtualAddr h, freedPointer, if_neg h, freedInfo]
    by_cases h0 : s.globals.bootInformation.memory.hhdmOffset = 0
    · rw [if_pos h0, if_pos h0, if_pos ⟨h, h0⟩]
    · rw [if_neg h0, if_neg h0, if_neg fun hc => h0 hc.2]

/-- What `freeFrame` does to the counters and the table when the table remembers
`n` bytes. -/
structure Credited (T : SizeTable τ) (s s' : FrameMachine τ) (frame n : Word) :
    Prop where
  search : T.search s.globals.addressSizeHT (freedPointer s.globals frame) =
    some n
  table : s'.globals.addressSizeHT =
    T.deleteKey s.globals.addressSizeHT (freedPointer s.globals frame)
  usedMemory : s'.globals.usedMemory = s.globals.usedMemory - n
  stays : (freedInfo s.globals frame).memory.freeMemSize = 0 →
    s'.globals.bootInformation = freedInfo s.globals frame ∧
      s'.globals.globalBootInfo = s.globals.globalBootInfo
  grows : (freedInfo s.globals frame).memory.freeMemSize ≠ 0 →
    s'.globals.bootInformation = s'.globals.globalBootInfo ∧
      s'.globals.globalBootInfo.memory.freeMemSize =
        (freedInfo s.globals frame).memory.freeMemSize + n

theorem credited_of_freeFrame {frame : Word}
    (hrun : (freeFrame T frame).run s = .ok () s') :
    ∃ n, Credited T s s' frame n := by
  rw [freeFrame, run_bind_of_ok (run_toVirtualAddr_freed frame s)] at hrun
  simp only [EStateM.run_bind, EStateM.run_get] at hrun
  cases hsearch : T.search s.globals.addressSizeHT
      (freedPointer s.globals frame) with
  | none =>
      simp only [hsearch, run_throw] at hrun
      exact absurd hrun (by simp)
  | some n =>
      refine ⟨n, ?_⟩
      simp only [hsearch, EStateM.run_bind, EStateM.run_get,
        run_modifyMem] at hrun
      by_cases hhead : freedPointer s.globals frame = s.globals.head
      · simp only [if_pos hhead, EStateM.run_bind, EStateM.run_get,
          run_modifyGlobals] at hrun
        by_cases h0 : (freedInfo s.globals frame).memory.freeMemSize = 0
        · rw [if_neg (not_not.2 h0)] at hrun
          obtain ⟨-, rfl⟩ := EStateM.Result.ok.inj hrun
          exact ⟨hsearch, rfl, rfl, fun _ => ⟨rfl, rfl⟩, fun h => absurd h0 h⟩
        · rw [if_pos h0] at hrun
          obtain ⟨-, rfl⟩ := EStateM.Result.ok.inj hrun
          exact ⟨hsearch, rfl, rfl, fun h => absurd h h0, fun _ => ⟨rfl, rfl⟩⟩
      · simp only [if_neg hhead, EStateM.run_bind, EStateM.run_get,
          run_modifyMem, run_modifyGlobals] at hrun
        by_cases h0 : (freedInfo s.globals frame).memory.freeMemSize = 0
        · rw [if_neg (not_not.2 h0)] at hrun
          obtain ⟨-, rfl⟩ := EStateM.Result.ok.inj hrun
          exact ⟨hsearch, rfl, rfl, fun _ => ⟨rfl, rfl⟩, fun h => absurd h0 h⟩
        · rw [if_pos h0] at hrun
          obtain ⟨-, rfl⟩ := EStateM.Result.ok.inj hrun
          exact ⟨hsearch, rfl, rfl, fun h => absurd h h0, fun _ => ⟨rfl, rfl⟩⟩

end

/-- The counters add up to the memory that was free at boot, as `size_t`. -/
def CountersAgree (R : UsableRegion) (s : IntMachine) : Prop :=
  s.globals.usedMemory + s.globals.globalBootInfo.memory.freeMemSize = R.length

/-- The counters add up to the memory that was free at boot, as integers. -/
def CountersBalance (R : UsableRegion) (s : IntMachine) : Prop :=
  s.globals.usedMemory.toNat +
    s.globals.globalBootInfo.memory.freeMemSize.toNat = R.length.toNat

def FindsFreeMemory (s : IntMachine) : FrameOp → Prop
  | .allocateFrame _ => True
  | .freeFrame frame => ∀ v,
      s.globals.addressSizeHT (freedPointer s.globals frame) = some v →
        v = 0 ∨ s.globals.globalBootInfo.memory.freeMemSize ≠ 0

/-- A freed frame whose recorded size is negative does not take `freeMemSize`
below 0. -/
def StaysNonnegative (s : IntMachine) : FrameOp → Prop
  | .allocateFrame _ => True
  | .freeFrame frame => ∀ v,
      s.globals.addressSizeHT (freedPointer s.globals frame) = some v →
        0 ≤ (s.globals.globalBootInfo.memory.freeMemSize.toNat : ℤ) + v.toInt

/-- `getBootInfo` and the copy agree, once a frame was handed out. -/
def CopyAgrees (s : IntMachine) : Prop :=
  s.globals.bootInformation = s.globals.globalBootInfo ∨
    ∀ p, s.globals.addressSizeHT p = none

theorem intSizeTable_search_eq_some {t : Addr → Option (BitVec 32)} {p : Addr}
    {n : Word} (h : intSizeTable.search t p = some n) :
    ∃ v, t p = some v ∧ n = v.signExtend 64 := by
  change (if t p = some (-1) then none else (t p).map (BitVec.signExtend 64)) =
    some n at h
  split_ifs at h
  obtain ⟨v, hv, rfl⟩ := Option.map_eq_some_iff.1 h
  exact ⟨v, hv, rfl⟩

theorem intSizeTable_search_of_ne {t : Addr → Option (BitVec 32)} {p : Addr}
    {v : BitVec 32} (hv : t p = some v) (hne : v ≠ -1) :
    intSizeTable.search t p = some (v.signExtend 64) := by
  change (if t p = some (-1) then none else (t p).map (BitVec.signExtend 64)) = _
  rw [hv, if_neg fun h => hne (Option.some.inj h)]
  rfl

theorem CopyAgrees.freeFrame {s s' : IntMachine} {frame : Word}
    (h : CopyAgrees s) (hrun : (freeFrame intSizeTable frame).run s = .ok () s') :
    ∃ v, s.globals.addressSizeHT (freedPointer s.globals frame) = some v ∧
      s'.globals.addressSizeHT = Function.update s.globals.addressSizeHT
        (freedPointer s.globals frame) none ∧
      s'.globals.bootInformation = s'.globals.globalBootInfo ∧
      s'.globals.usedMemory = s.globals.usedMemory - v.signExtend 64 ∧
      s'.globals.globalBootInfo.memory.freeMemSize =
        if s.globals.globalBootInfo.memory.freeMemSize = 0 then 0
        else s.globals.globalBootInfo.memory.freeMemSize + v.signExtend 64 := by
  obtain ⟨n, hcredit⟩ := credited_of_freeFrame hrun
  obtain ⟨v, hv, rfl⟩ := intSizeTable_search_eq_some hcredit.search
  have hinfo : freedInfo s.globals frame = s.globals.globalBootInfo := by
    rcases h with hcopy | hnone
    · rw [freedInfo, hcopy, ite_self]
    · exact absurd (hnone _) (by rw [hv]; simp)
  refine ⟨v, hv, hcredit.table, ?_⟩
  by_cases h0 : s.globals.globalBootInfo.memory.freeMemSize = 0
  · obtain ⟨hboot, hglobal⟩ := hcredit.stays (hinfo ▸ h0)
    exact ⟨by rw [hboot, hglobal, hinfo], hcredit.usedMemory,
      by rw [hglobal, if_pos h0, h0]⟩
  · obtain ⟨hboot, hglobal⟩ := hcredit.grows (hinfo.symm ▸ h0)
    exact ⟨hboot, hcredit.usedMemory, by rw [hglobal, if_neg h0, hinfo]⟩

theorem copyAgrees_step {s s' : IntMachine} {op : FrameOp} {fuel : ℕ}
    (h : CopyAgrees s) (hstep : frameStep intSizeTable fuel s op s') :
    CopyAgrees s' := by
  cases op with
  | allocateFrame requestSize =>
      obtain ⟨f, hrun⟩ := hstep
      exact Or.inl (counted_of_allocateFrame hrun).copy
  | freeFrame frame =>
      obtain ⟨v, -, -, hcopy, -⟩ := h.freeFrame hstep
      exact Or.inl hcopy

theorem CountersAgree.step {R : UsableRegion} {s s' : IntMachine} {op : FrameOp}
    {fuel : ℕ} (h : CountersAgree R s) (hcopy : CopyAgrees s)
    (hfinds : FindsFreeMemory s op)
    (hstep : frameStep intSizeTable fuel s op s') : CountersAgree R s' := by
  rw [CountersAgree] at h ⊢
  cases op with
  | allocateFrame requestSize =>
      obtain ⟨f, hrun⟩ := hstep
      have hcount := counted_of_allocateFrame hrun
      rw [hcount.usedMemory, hcount.freeMemSize]
      bv_omega
  | freeFrame frame =>
      obtain ⟨v, hv, -, -, hused, hfree⟩ := hcopy.freeFrame hstep
      rw [hused, hfree]
      split_ifs with h0
      · rcases hfinds v hv with rfl | hne
        · rw [← h, h0]
          simp
        · exact absurd h0 hne
      · rw [← h]
        bv_omega

theorem toNat_add_signExtend {a : Word} {v : BitVec 32}
    (hlow : 0 ≤ (a.toNat : ℤ) + v.toInt) (hhigh : (a.toNat : ℤ) + v.toInt < 2 ^ 64) :
    ((a + v.signExtend 64).toNat : ℤ) = a.toNat + v.toInt := by
  rw [BitVec.toNat_add, BitVec.signExtend, BitVec.toNat_ofInt]
  omega

theorem toNat_sub_signExtend {a : Word} {v : BitVec 32}
    (hlow : 0 ≤ (a.toNat : ℤ) - v.toInt) (hhigh : (a.toNat : ℤ) - v.toInt < 2 ^ 64) :
    ((a - v.signExtend 64).toNat : ℤ) = a.toNat - v.toInt := by
  rw [BitVec.toNat_sub, BitVec.signExtend, BitVec.toNat_ofInt]
  omega

/-- The recorded sizes are at most the sizes that were counted, and those are at
most `used` together. -/
def SizesBelow (t : Addr → Option (BitVec 32)) (used : ℤ) : Prop :=
  ∃ (frames : Finset Addr) (size : Addr → ℕ),
    (∀ p v, t p = some v → p ∈ frames ∧ v.toInt ≤ size p) ∧
      ∑ p ∈ frames, (size p : ℤ) ≤ used

theorem sizesBelow_empty : SizesBelow (fun _ => none) 0 :=
  ⟨∅, fun _ => 0, by simp, by simp⟩

theorem SizesBelow.le {t : Addr → Option (BitVec 32)} {used : ℤ}
    (h : SizesBelow t used) {p : Addr} {v : BitVec 32} (hv : t p = some v) :
    v.toInt ≤ used := by
  obtain ⟨frames, size, hsize, hsum⟩ := h
  obtain ⟨hp, hle⟩ := hsize p v hv
  have hone := Finset.single_le_sum (f := fun p => (size p : ℤ))
    (fun q _ => Int.natCast_nonneg _) hp
  exact hle.trans (hone.trans hsum)

theorem SizesBelow.insert {t : Addr → Option (BitVec 32)} {used : ℤ}
    (h : SizesBelow t used) (p : Addr) (n : Word) :
    SizesBelow (Function.update t p (some (n.truncate 32))) (used + n.toNat) := by
  obtain ⟨frames, size, hsize, hsum⟩ := h
  refine ⟨Insert.insert p (frames.erase p), Function.update size p n.toNat,
    fun q v hq => ?_, ?_⟩
  · by_cases hqp : q = p
    · subst hqp
      rw [Function.update_self] at hq ⊢
      obtain rfl := Option.some.inj hq
      refine ⟨Finset.mem_insert_self _ _, ?_⟩
      have htrunc : (n.truncate 32).toNat = n.toNat % 2 ^ 32 :=
        BitVec.toNat_setWidth 32 n
      have hint := BitVec.toInt_eq_toNat_cond (n.truncate 32)
      split_ifs at hint <;> omega
    · rw [Function.update_of_ne hqp] at hq ⊢
      obtain ⟨hmem, hle⟩ := hsize q v hq
      exact ⟨Finset.mem_insert_of_mem (Finset.mem_erase.2 ⟨hqp, hmem⟩), hle⟩
  · have hrest : ∑ q ∈ frames.erase p, (Function.update size p n.toNat q : ℤ) =
        ∑ q ∈ frames.erase p, (size q : ℤ) :=
      Finset.sum_congr rfl fun q hq => by
        rw [Function.update_of_ne (Finset.ne_of_mem_erase hq)]
    have hle : ∑ q ∈ frames.erase p, (size q : ℤ) ≤ ∑ q ∈ frames, (size q : ℤ) :=
      Finset.sum_le_sum_of_subset_of_nonneg (Finset.erase_subset _ _)
        fun q _ _ => Int.natCast_nonneg _
    rw [Finset.sum_insert (Finset.notMem_erase _ _), hrest, Function.update_self]
    omega

theorem SizesBelow.erase {t : Addr → Option (BitVec 32)} {used : ℤ}
    (h : SizesBelow t used) {p : Addr} {v : BitVec 32} (hv : t p = some v) :
    SizesBelow (Function.update t p none) (used - v.toInt) := by
  obtain ⟨frames, size, hsize, hsum⟩ := h
  obtain ⟨hp, hle⟩ := hsize p v hv
  refine ⟨frames.erase p, size, fun q w hq => ?_, ?_⟩
  · by_cases hqp : q = p
    · rw [hqp, Function.update_self] at hq
      exact absurd hq (by simp)
    · rw [Function.update_of_ne hqp] at hq
      obtain ⟨hmem, hw⟩ := hsize q w hq
      exact ⟨Finset.mem_erase.2 ⟨hqp, hmem⟩, hw⟩
  · have hsplit := Finset.add_sum_erase frames (fun q => (size q : ℤ)) hp
    omega

/-- One call keeps the sum of the counters, as integers. -/
theorem CountersBalance.step {R : UsableRegion} {s s' : IntMachine}
    {op : FrameOp} {fuel : ℕ} (h : CountersBalance R s) (hcopy : CopyAgrees s)
    (hsizes : SizesBelow s.globals.addressSizeHT s.globals.usedMemory.toNat)
    (hfinds : FindsFreeMemory s op) (hstays : StaysNonnegative s op)
    (hstep : frameStep intSizeTable fuel s op s') :
    CountersBalance R s' ∧
      SizesBelow s'.globals.addressSizeHT s'.globals.usedMemory.toNat := by
  rw [CountersBalance] at h ⊢
  have hlen := R.length.isLt
  cases op with
  | allocateFrame requestSize =>
      obtain ⟨f, hrun⟩ := hstep
      have hcount := counted_of_allocateFrame hrun
      have hroom := BitVec.le_def.1 hcount.room
      have hused : s'.globals.usedMemory.toNat = s.globals.usedMemory.toNat +
          (roundUpToPageBoundary requestSize).toNat := by
        rw [hcount.usedMemory, BitVec.toNat_add]
        exact Nat.mod_eq_of_lt (by omega)
      have hfree := congrArg BitVec.toNat hcount.freeMemSize
      rw [BitVec.toNat_sub_of_le hcount.room] at hfree
      obtain ⟨p, htable⟩ := hcount.table
      refine ⟨by omega, ?_⟩
      rw [htable, hused]
      exact_mod_cast hsizes.insert p (roundUpToPageBoundary requestSize)
  | freeFrame frame =>
      obtain ⟨v, hv, htable, -, hused, hfree⟩ := hcopy.freeFrame hstep
      have hle := hsizes.le hv
      have hlow := hstays v hv
      have hused' : (s'.globals.usedMemory.toNat : ℤ) =
          s.globals.usedMemory.toNat - v.toInt := by
        rw [hused]
        exact toNat_sub_signExtend (by omega) (by omega)
      refine ⟨?_, ?_⟩
      · by_cases h0 : s.globals.globalBootInfo.memory.freeMemSize = 0
        · rw [if_pos h0] at hfree
          rw [hfree, ← h, h0]
          rcases hfinds v hv with rfl | hne
          · rw [show (0 : BitVec 32).toInt = 0 by decide] at hused'
            omega
          · exact absurd h0 hne
        · rw [if_neg h0] at hfree
          have hfree' := toNat_add_signExtend hlow (by omega)
          rw [← hfree] at hfree'
          omega
      · rw [htable, hused']
        exact hsizes.erase hv

/-- The calls that keep the counters in balance as integers. -/
def KeepsBalance (s : IntMachine) (op : FrameOp) : Prop :=
  FindsFreeMemory s op ∧ StaysNonnegative s op

/-- In every run whose freed frames find free memory left, the counters add up
as `size_t`; if also no recorded negative size takes `freeMemSize` below 0, they
add up as integers. -/
theorem countersAgree_and_balance (R : UsableRegion) (mem : Bytes) (fuel : ℕ)
    (ops : List FrameOp) (s : IntMachine) :
    (Run (Guarded FindsFreeMemory (frameStep intSizeTable fuel))
        (bootMachine R mem fun _ => none) ops s → CountersAgree R s) ∧
      (Run (Guarded KeepsBalance (frameStep intSizeTable fuel))
        (bootMachine R mem fun _ => none) ops s → CountersBalance R s) := by
  constructor
  · intro hrun
    have hboot : CountersAgree R (bootMachine R mem fun _ => none) :=
      BitVec.zero_add _
    refine (hrun.invariant (fun s => CopyAgrees s ∧ CountersAgree R s)
      ⟨Or.inr fun _ => rfl, hboot⟩ ?_).2
    rintro s op s' ⟨hcopy, h⟩ ⟨hguard, hstep⟩
    exact ⟨copyAgrees_step hcopy hstep, h.step hcopy hguard hstep⟩
  · intro hrun
    have hboot : CountersBalance R (bootMachine R mem fun _ => none) :=
      Nat.zero_add _
    refine (hrun.invariant (fun s => CopyAgrees s ∧ CountersBalance R s ∧
        SizesBelow s.globals.addressSizeHT s.globals.usedMemory.toNat)
      ⟨Or.inr fun _ => rfl, hboot, sizesBelow_empty⟩ ?_).2.1
    rintro s op s' ⟨hcopy, h, hsizes⟩ ⟨⟨hfinds, hstays⟩, hstep⟩
    exact ⟨copyAgrees_step hcopy hstep,
      h.step hcopy hsizes hfinds hstays hstep⟩

/-- A frame handed out and given back in `smallRegion`. -/
theorem exists_freed_smallRegion {n : Word} (hn : roundUpToPageBoundary n = n)
    (hne : n ≠ 0) (hint : n.truncate 32 ≠ (-1 : BitVec 32))
    (hfit : n.toNat ≤ 0x10000) :
    ∃ s s' : IntMachine,
      frameStep intSizeTable 0 (bootMachine smallRegion (fun _ => 0) fun _ => none)
          (.allocateFrame n) s ∧
        frameStep intSizeTable 0 s (.freeFrame 0x100000) s' ∧
        BumpState smallRegion s n.toNat ∧
        s.globals.addressSizeHT (freedPointer s.globals 0x100000) =
          some (n.truncate 32) := by
  obtain ⟨s, hrun, hg⟩ := allocateFrame_first smallRegion (fun _ => 0)
    (fun _ => none) intSizeTable 0 n (by rw [hn]; exact hfit)
  have hstate : BumpState smallRegion s n.toNat := by
    have h := hg.state
    rwa [hn, Nat.zero_add] at h
  have htable : s.globals.addressSizeHT (smallRegion.addr 0) =
      some (n.truncate 32) := by
    rw [hg.table, hn]
    exact Function.update_self (smallRegion.addr 0) (some (n.truncate 32))
      (fun _ : Addr => none)
  have hbase : (0x100000 : Word) + smallRegion.hhdmOffset = smallRegion.addr 0 := by
    decide
  have hother : (0x100000 : Word) + smallRegion.hhdmOffset ≠
      smallRegion.addr n.toNat := by
    rw [hbase]
    intro heq
    have hzero := smallRegion.addr_inj (Nat.zero_le _) hfit heq
    exact hne (BitVec.eq_of_toNat_eq hzero.symm)
  have hsearch := intSizeTable_search_of_ne (hbase ▸ htable) hint
  obtain ⟨s', hfree, -⟩ := run_freeFrame_other intSizeTable hstate (by decide)
    hother hsearch
  refine ⟨s, s', ⟨_, hrun⟩, hfree, hstate, ?_⟩
  rw [freedPointer, if_neg (by decide), freedInfo, hstate.copy, ite_self,
    hstate.info]
  exact hbase ▸ htable

/-- One page is handed out and given back. -/
theorem countersAgree_and_balance_smallRegion :
    ∃ ops s, ops ≠ [] ∧ Run (frameStep intSizeTable 0)
        (bootMachine smallRegion (fun _ => 0) fun _ => none) ops s ∧
      CountersAgree smallRegion s ∧ CountersBalance smallRegion s := by
  obtain ⟨s, s', halloc, hfree, hstate, htable⟩ :=
    exists_freed_smallRegion (n := 4096) (by decide) (by decide) (by decide)
      (by decide)
  have hfinds : FindsFreeMemory s (.freeFrame 0x100000) := fun v _ => by
    rw [hstate.info]
    exact Or.inr (by decide)
  have hstays : StaysNonnegative s (.freeFrame 0x100000) := fun v hv => by
    obtain rfl := Option.some.inj (htable.symm.trans hv)
    rw [show (BitVec.truncate 32 (4096 : Word)).toInt = 4096 by decide]
    omega
  have htrue : ∀ t : IntMachine, KeepsBalance t (.allocateFrame 4096) :=
    fun _ => ⟨trivial, trivial⟩
  have hboth := countersAgree_and_balance smallRegion (fun _ => 0) 0
    [.allocateFrame 4096, .freeFrame 0x100000] s'
  exact ⟨_, s', by simp, .snoc (.single halloc) hfree,
    hboth.1 (.snoc (.single ⟨trivial, halloc⟩) ⟨hfinds, hfree⟩),
    hboth.2 (.snoc (.single ⟨htrue _, halloc⟩) ⟨⟨hfinds, hstays⟩, hfree⟩)⟩

/-- The whole region is handed out and given back: both counters are 0. -/
theorem exists_not_countersAgree :
    ∃ ops s, Run (frameStep intSizeTable 0)
        (bootMachine smallRegion (fun _ => 0) fun _ => none) ops s ∧
      ¬ CountersAgree smallRegion s ∧ ¬ CountersBalance smallRegion s := by
  obtain ⟨s, s', halloc, hfree, hstate, htable⟩ :=
    exists_freed_smallRegion (n := 0x10000) (by decide) (by decide) (by decide)
      (by decide)
  obtain ⟨v, hv, -, -, hused, hsize⟩ :=
    (show CopyAgrees s from Or.inl hstate.copy).freeFrame hfree
  obtain rfl := Option.some.inj (htable.symm.trans hv)
  have hnone : s.globals.globalBootInfo.memory.freeMemSize = 0 := by
    rw [hstate.info]
    decide
  rw [if_pos hnone] at hsize
  rw [hstate.usedMemory] at hused
  refine ⟨_, s', .snoc (.single halloc) hfree, ?_, ?_⟩
  · rw [CountersAgree, hused, hsize]
    decide
  · rw [CountersBalance, hused, hsize]
    decide

end OptimistOS
