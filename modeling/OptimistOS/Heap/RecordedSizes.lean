import OptimistOS.Foundation.Smear
import OptimistOS.Heap.FirstPage
import Mathlib.Tactic.IntervalCases

/-!
# The size in the header of a block

The search of `mallocx` looks for the size of the request, header included,
rounded up to a power of two. The sum wraps at `2 ^ 64`, and the rounding, which
smears 32 bits only, can wrap as well: it then looks for a block of no bytes. In
both cases the block that is handed out records less than what was asked for;
in all others it records at least that.
-/

namespace OptimistOS

open ByteMemory ByteMemory.Code Transition

/-- The header in front of `p` records a block that has room for `size` bytes
and the header. -/
def RecordsRequest {α : Type} (s : Machine 64 (HeapGlobals α)) (p : Addr)
    (size : Word) : Prop :=
  size.toNat + sizeofHead.toNat ≤
    (head.get s.mem (p - sizeofHead) .size).toNat

theorem smears_roundUpToNextPower2 (size : Word) :
    Smears (size - 1) (roundUpToNextPower2 size - 1) 32 := by
  have hround : roundUpToNextPower2 size - 1 = _ := BitVec.add_sub_cancel _ 1
  rw [hround]
  exact (smears_self (size - 1)).or_shift.or_shift.or_shift.or_shift.or_shift

theorem le_roundUpToNextPower2 {size : Word}
    (hround : roundUpToNextPower2 size ≠ 0) :
    size.toNat ≤ (roundUpToNextPower2 size).toNat := by
  have hle := BitVec.le_def.1
    ((smears_roundUpToNextPower2 size).le (by decide))
  bv_omega

theorem roundUpToNextPower2_eq_zero_iff (size : Word) :
    roundUpToNextPower2 size = 0 ↔
      ∀ i < 64, ∃ j < 32, (size - 1).getLsbD (i + j) = true := by
  have hsmear := smears_roundUpToNextPower2 size
  have hones : roundUpToNextPower2 size = 0 ↔
      roundUpToNextPower2 size - 1 = BitVec.allOnes 64 := by
    generalize roundUpToNextPower2 size = r
    rw [show BitVec.allOnes 64 = (0 : Word) - 1 by decide]
    exact ⟨fun h => h ▸ rfl, fun h => by bv_omega⟩
  rw [hones]
  constructor
  · intro h i hi
    rw [← hsmear i, h, BitVec.getLsbD_allOnes, decide_eq_true hi]
  · intro hall
    refine BitVec.eq_of_getLsbD_eq fun i hi => ?_
    rw [(hsmear i).2 (hall i hi), BitVec.getLsbD_allOnes, decide_eq_true hi]

/-- A block size of more than one page and at most the limit is a whole number
of pages. -/
theorem roundUpToNextPower2_pages {size : Word}
    (hpage : PAGE_SIZE < roundUpToNextPower2 size)
    (hblocks : roundUpToNextPower2 size / PAGE_SIZE ≤ MAXIMUM_COALESCE_BLOCKS) :
    (PAGE_SIZE * (roundUpToNextPower2 size / PAGE_SIZE)).toNat =
      (roundUpToNextPower2 size).toNat := by
  set r := roundUpToNextPower2 size with hr
  have hpageNat : (PAGE_SIZE : Word).toNat = 4096 := rfl
  have hmaxNat : (MAXIMUM_COALESCE_BLOCKS : Word).toNat = 4 := rfl
  rw [BitVec.lt_def, hpageNat] at hpage
  rw [BitVec.le_def, BitVec.toNat_udiv, hpageNat, hmaxNat] at hblocks
  have hsmear := smears_roundUpToNextPower2 size
  rw [← hr] at hsmear
  have hle := BitVec.le_def.1 (hsmear.le (by decide))
  have hpred : (r - 1).toNat = r.toNat - 1 := by bv_omega
  have hmod : r.toNat % 4096 = 0 := by
    rcases hsmear.toNat_eq_of_lt (by omega) with ⟨hzero, -⟩ | ⟨k, -, hlow, hv⟩
    · omega
    · have hk : k < 15 := (Nat.pow_lt_pow_iff_right (a := 2) (by omega)).1
        (by omega)
      interval_cases k <;> omega
  rw [BitVec.toNat_mul, BitVec.toNat_udiv, hpageNat]
  omega

section

variable {α : Type} {A : FrameAllocator α} {fuel : ℕ} {size : Word}
  {s s' : Machine 64 (HeapGlobals α)} {p : Addr}

theorem size_of_mallocStep {m : Bytes} {q : Addr}
    (h : mallocStep m size q = .ok (.done (.node p))) :
    head.get m p .size = size := by
  rw [mallocStep] at h
  split_ifs at h with hnull
  cases hmulti : multiPage m size q with
  | error e =>
      rw [hmulti] at h
      exact absurd h (by simp [bind, Except.bind])
  | ok found =>
      rw [hmulti] at h
      cases found with
      | some result =>
          obtain rfl := MallocStep.done.inj (Except.ok.inj h)
          rcases multiPage_eq_some hmulti with hrefused | ⟨hblocks, -⟩
          · exact absurd hrefused (by simp)
          · exact absurd hblocks (by simp)
      | none =>
          change takeOrSplit m size (skipAllocated m q) = _ at h
          rw [takeOrSplit] at h
          split_ifs at h with hskip hsize
          · obtain ⟨rfl⟩ := MallocResult.node.inj (MallocStep.done.inj
              (Except.ok.inj h))
            exact hsize
          all_goals exact absurd h (by simp)

theorem size_of_coalesceBlocks {node : Addr} {n : Word}
    (h : (coalesceBlocks node n).run s = .ok p s') :
    head.get s'.mem (p - sizeofHead) .size = PAGE_SIZE * n := by
  rw [coalesceBlocks] at h
  obtain ⟨_, s₀, hlock, h⟩ := run_bind_eq_ok.1 h
  rw [EStateM.run_bind, EStateM.run_get] at h
  dsimp only at h
  cases hlast : nodeAfter s₀.mem (n - 1).toNat node with
  | error e =>
      rw [hlast] at h
      exact absurd h (by simp)
  | ok last =>
      rw [hlast] at h
      by_cases hzero : last = 0
      · simp only [if_pos hzero, run_throw] at h
        exact absurd h (by simp)
      · simp only [if_neg hzero] at h
        obtain ⟨rfl, rfl⟩ := EStateM.Result.ok.inj h
        rw [BitVec.add_sub_cancel]
        change head.get (head.set (head.set _ node .size _) node .status _) node
          .size = _
        rw [head.get_set_of_ne _ _ _ (by decide : Head.size ≠ .status),
          head_get_set_self _ _ _ _ rfl]

theorem size_of_mallocx (h : (mallocx A fuel size).run s = .ok p s')
    (hp : p ≠ 0) :
    (head.get s'.mem (p - sizeofHead) .size).toNat = (blockSize size).toNat := by
  obtain ⟨s₁, result, m, -, hloop, hserve⟩ := mallocx_eq_ok h
  obtain ⟨q, -, hlast⟩ := exists_lastIteration hloop
  cases result with
  | refused =>
      obtain ⟨rfl, rfl⟩ := EStateM.Result.ok.inj
        ((run_serveRequest_refused m s₁).symm.trans hserve)
      exact absurd rfl hp
  | node q' =>
      obtain ⟨rfl, rfl⟩ := EStateM.Result.ok.inj
        ((run_serveRequest_node m q' s₁).symm.trans hserve)
      rw [BitVec.add_sub_cancel,
        head.get_set_of_ne _ _ _ (by decide : Head.size ≠ .status),
        size_of_mallocStep hlast]
  | blocks q' n =>
      have hmulti := multiPage_of_mallocStep hlast
      rcases multiPage_eq_some hmulti with hrefused | ⟨hq, hpage, -, hblocks, -⟩
      · exact absurd hrefused (by simp)
      · obtain ⟨rfl, rfl⟩ := MallocResult.blocks.inj hq
        rw [size_of_coalesceBlocks (s := ⟨m, { s₁.globals with mutex := 0 }⟩)
          hserve]
        exact roundUpToNextPower2_pages hpage hblocks

end

theorem blockSize_of_lt {size : Word}
    (h : size.toNat + sizeofHead.toNat < 2 ^ 64) :
    blockSize size = roundUpToNextPower2 (size + sizeofHead) ∧
      (size + sizeofHead).toNat = size.toNat + sizeofHead.toNat := by
  have hsum : (size + sizeofHead).toNat = size.toNat + sizeofHead.toNat := by
    rw [BitVec.toNat_add, Nat.mod_eq_of_lt h]
  have hhead : sizeofHead.toNat = 64 := rfl
  have hmin : (MINIMUM_ALLOCATION_SIZE : Word).toNat = 32 := rfl
  refine ⟨?_, hsum⟩
  rw [blockSize, if_neg]
  rw [BitVec.lt_def, hsum, hhead, hmin]
  omega

theorem blockSize_le_of_wraps {size : Word}
    (h : 2 ^ 64 ≤ size.toNat + sizeofHead.toNat) :
    (blockSize size).toNat ≤ 64 := by
  have hhead : sizeofHead.toNat = 64 := rfl
  have hmin : (MINIMUM_ALLOCATION_SIZE : Word).toNat = 32 := rfl
  have hlt := size.isLt
  obtain ⟨x, hx, hsmall⟩ : ∃ x : Word, blockSize size = roundUpToNextPower2 x ∧
      1 ≤ x.toNat ∧ x.toNat ≤ 64 := by
    refine ⟨_, rfl, ?_⟩
    have hsum : (size + sizeofHead).toNat < 64 := by
      rw [BitVec.toNat_add]
      omega
    split_ifs with hclamp
    · exact ⟨by decide, by decide⟩
    · rw [BitVec.lt_def, hmin] at hclamp
      exact ⟨by omega, by omega⟩
  have hpred : (x - 1).toNat = x.toNat - 1 := by bv_omega
  rw [hx]
  rcases (smears_roundUpToNextPower2 x).toNat_eq_of_lt (by omega) with
    ⟨hzero, -⟩ | ⟨k, -, hlow, hv⟩
  · bv_omega
  · have hk : k < 6 := (Nat.pow_lt_pow_iff_right (a := 2) (by omega)).1
      (by omega)
    interval_cases k <;> bv_omega

/-- A block records what was asked for exactly when neither the size with the
header nor its rounding wraps. -/
theorem recordsRequest_iff {α : Type} {A : FrameAllocator α} {fuel : ℕ}
    {size : Word} {s s' : Machine 64 (HeapGlobals α)} {p : Addr}
    (h : (mallocx A fuel size).run s = .ok p s') (hp : p ≠ 0) :
    RecordsRequest s' p size ↔
      size.toNat + sizeofHead.toNat < 2 ^ 64 ∧
        roundUpToNextPower2 (size + sizeofHead) ≠ 0 := by
  have hhead : sizeofHead.toNat = 64 := rfl
  have hlt := size.isLt
  rw [RecordsRequest, size_of_mallocx h hp]
  by_cases hwrap : size.toNat + sizeofHead.toNat < 2 ^ 64
  · obtain ⟨hblock, hsum⟩ := blockSize_of_lt hwrap
    rw [hblock]
    constructor
    · intro hle
      refine ⟨hwrap, fun hzero => ?_⟩
      rw [hzero, hhead] at hle
      exact absurd hle (by simp)
    · rintro ⟨-, hround⟩
      rw [← hsum]
      exact le_roundUpToNextPower2 hround
  · have hle := blockSize_le_of_wraps (not_lt.1 hwrap)
    exact iff_of_false (by omega) fun hc => hwrap hc.1

theorem PoolAt.exists_loop_halves {b : Addr} {rest : List Segment}
    {lastLive liveRight : Bool} {size : Word} (hsize : 0 < size.toNat) {n : ℕ} :
    ∀ {m : Bytes} {left right : Word},
      PoolAt m b (.halves left right false liveRight :: rest) lastLive →
      left.toNat = size.toNat * 2 ^ n →
        ∃ m', mallocLoop size (n + 1) m b = .ok (.node b, m') := by
  induction n with
  | zero =>
      intro m left right h hleft
      obtain rfl : left = size := BitVec.eq_of_toNat_eq (by omega)
      exact ⟨m, mallocLoop_of_done h.step_takeLeft 0⟩
  | succ n ih =>
      intro m left right h hleft
      have hpow : size.toNat * 2 ^ (n + 1) = size.toNat * 2 ^ n * 2 := by ring
      have hpos : 0 < size.toNat * 2 ^ n := by positivity
      have hle : size.toNat ≤ size.toNat * 2 ^ n :=
        Nat.le_mul_of_pos_right _ (by positivity)
      have hlt : size < left := BitVec.lt_def.2 (by omega)
      obtain ⟨hloop, hpool⟩ := h.loop_splitLeft hlt (n + 1)
      rw [hloop]
      exact ih hpool (by
        rw [BitVec.toNat_udiv, show (2 : Word).toNat = 2 from rfl]
        omega)

theorem PoolAt.exists_loop_page {m : Bytes} {b : Addr} {rest : List Segment}
    {lastLive : Bool} (h : PoolAt m b (.page false :: rest) lastLive)
    {size : Word} {n : ℕ} (hsize : 0 < size.toNat)
    (hpage : size.toNat * 2 ^ n = 2048) :
    ∃ m', mallocLoop size (n + 2) m b = .ok (.node b, m') := by
  have hle : size.toNat ≤ size.toNat * 2 ^ n :=
    Nat.le_mul_of_pos_right _ (by positivity)
  have hlt : size < PAGE_SIZE := by
    rw [BitVec.lt_def, show (PAGE_SIZE : Word).toNat = 4096 from rfl]
    omega
  obtain ⟨hloop, hpool⟩ := h.loop_splitPage hlt (n + 1)
  rw [hloop]
  exact PoolAt.exists_loop_halves hsize hpool hpage.symm

/-- A request of 1000 bytes after the pool was set up. -/
theorem recordsRequest_iff_halfPage :
    ∃ s p s', (mallocx (heapAllocator addressSizeTable 0) 2 1000).run s =
      .ok p s' ∧ RecordsRequest s' p 1000 := by
  obtain ⟨-, s, -, -, -, hpool⟩ := exists_setUp
  obtain ⟨s', hrun, -, -⟩ := hpool.takesLeft
    (A := heapAllocator addressSizeTable 0)
    (show blockSize 1000 = 2048 by decide)
  have hne := slot_add_header_ne_zero hpool.pool.base (Nat.zero_le 6142)
  rw [slot_zero] at hne
  exact ⟨s.machine, _, s', hrun, (recordsRequest_iff hrun hne).2
    ⟨by decide, by decide⟩⟩

/-- A request of `2 ^ 64 - 1` bytes after the pool was set up is served with a
block of 64 bytes. -/
theorem exists_not_recordsRequest :
    ∃ s p s', HeapStep addressSizeTable 0 bootedHeap (.malloc 20000) s ∧
      (mallocx (heapAllocator addressSizeTable 0) 7 (-1)).run s.machine =
          .ok p s' ∧ p ≠ 0 ∧ ¬ RecordsRequest s' p (-1) := by
  obtain ⟨-, s, hstep, -, -, hpool⟩ := exists_setUp
  have hblock : blockSize (-1) = 64 := by decide
  obtain ⟨m', hloop⟩ := hpool.pool.exists_loop_page (n := 5)
    (show 0 < (blockSize (-1)).toNat by rw [hblock]; decide)
    (by rw [hblock]; decide)
  have hrun := run_mallocx_node (A := heapAllocator addressSizeTable 0)
    hpool.mutex hpool.pool.base.ne_zero hloop
  have hne := slot_add_header_ne_zero hpool.pool.base (Nat.zero_le 6142)
  rw [slot_zero] at hne
  refine ⟨s, _, _, hstep, hrun, hne, fun hrecords => ?_⟩
  rw [RecordsRequest, size_of_mallocx hrun hne, hblock] at hrecords
  exact absurd hrecords (by decide)

end OptimistOS
