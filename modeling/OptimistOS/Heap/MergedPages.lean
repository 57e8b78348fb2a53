import OptimistOS.Heap.RecordedSizes

/-!
# The pages that a block is put together of

A request for more than a page takes several pages in a row. The scan looks at
the status of every page node, which is that of the left half if the page was
split: a block in a right half is not seen. A search can also end at an
allocated block of just the size that it looks for, and hands it out again.

When the search of a request does not end at an allocated block, and pages are
only put together when none of them was split, the block that is handed out
contains no other live block (`avoidsLiveBlocks_of_wholePages`).
-/

namespace OptimistOS

open ByteMemory ByteMemory.Code Transition

def NotAllocated (m : Bytes) (node : Addr) : Prop :=
  head.get m node .status ≠ Flag.allocated

/-- The searches of a request end at nodes that are not allocated. -/
def TakesUnused {τ : Type} (T : SizeTable τ) (fuel : ℕ) (s : HeapState τ)
    (size : Word) : Prop :=
  ∀ s₁, SearchStart T fuel s.machine s₁ →
    EndsOnly NotAllocated (blockSize size) s₁.mem s₁.globals.freeList

/-- The block that a request is given, from its header to the end of the size
that this records, contains no header of a live block. -/
def AvoidsLiveBlocks {τ : Type} (T : SizeTable τ) (fuel : ℕ) (s : HeapState τ)
    (size : Word) : Prop :=
  ∀ heapFuel p s', (mallocx (heapAllocator T fuel) heapFuel size).run s.machine =
      .ok p s' → p ≠ 0 →
    ∀ block ∈ s.live, block - sizeofHead ∉ region (p - sizeofHead)
      (head.get s'.mem (p - sizeofHead) .size).toNat

theorem endsOnly_of_done {P : Bytes → Addr → Prop} {size : Word} {m : Bytes}
    {p : Addr} {result : MallocResult}
    (h : mallocStep m size p = .ok (.done result))
    (hP : ∀ q, result = .node q → P m q) : EndsOnly P size m p := by
  intro m' q r hsearch hdone
  obtain ⟨rfl, rfl⟩ := searches_of_done h hsearch
  exact hP r (MallocStep.done.inj (Except.ok.inj (h.symm.trans hdone)))

theorem EndsOnly.of_next {P : Bytes → Addr → Prop} {size : Word}
    {m m₁ : Bytes} {p p₁ : Addr} (h : EndsOnly P size m₁ p₁)
    (hstep : mallocStep m size p = .ok (.next m₁ p₁)) : EndsOnly P size m p := by
  intro m' q r hsearch hdone
  rcases hsearch.from_next hstep with ⟨rfl, rfl⟩ | hsearch
  · exact absurd (hstep.symm.trans hdone) (by simp)
  · exact h m' q r hsearch hdone

theorem EndsOnly.of_mallocLoop {P : Bytes → Addr → Prop} {size : Word}
    {fuel : ℕ} {m m' : Bytes} {p q : Addr} (h : EndsOnly P size m p)
    (hloop : mallocLoop size fuel m p = .ok (.node q, m')) : P m' q := by
  obtain ⟨r, hsearch, hlast⟩ := exists_lastIteration hloop
  exact h m' r q hsearch hlast

section

variable {m : Bytes} {b : Addr} {segs : List Segment} {lastLive : Bool}

theorem PoolAt.size_le_of_notAllocated (h : PoolAt m b segs lastLive) {k : ℕ}
    (hk : Current segs k) (hstatus : NotAllocated m (slot b k)) :
    head.get m (slot b k) .size ≤ PAGE_SIZE := by
  cases hk with
  | @page j seg hf =>
      have hseg := h.segmentAt hf
      have hnode := hseg.node
      rw [page_eq_slot] at hnode
      rw [hnode.size]
      cases seg with
      | page live => exact BitVec.le_refl _
      | halves left right liveLeft liveRight =>
          exact BitVec.le_trans hseg.rest.1 (by decide)
      | run n => exact absurd hnode.status hstatus
  | @right j left right liveLeft hf =>
      obtain ⟨-, hle, l, r, -, -, hnode⟩ := (h.segmentAt hf).rest
      rw [rightHalf_eq_slot] at hnode
      rw [hnode.size]
      exact BitVec.le_trans hle (by decide)
  | last =>
      have hlast := h.last
      rw [page_eq_slot] at hlast
      rw [hlast.size]
      exact BitVec.le_def.2 (Nat.zero_le _)

theorem slot_notMem_pages {i j n : ℕ} (hi : i ≤ 6142) (hj : j + n ≤ 3071)
    (h : i < 2 * j ∨ 2 * (j + n) ≤ i) :
    slot b i ∉ region (page b j) (4096 * n) := by
  rw [page_eq_slot, mem_region, slot, slot]
  have hsub : b + BitVec.ofNat 64 (2048 * i) - (b + BitVec.ofNat 64 (2048 * (2 * j))) =
      BitVec.ofNat 64 (2048 * i) - BitVec.ofNat 64 (2048 * (2 * j)) := by
    bv_omega
  rw [hsub, BitVec.toNat_sub, BitVec.toNat_ofNat, BitVec.toNat_ofNat]
  omega

theorem slot_notMem_of_mem_poolNodes {pre post : List Segment} {t k : ℕ}
    {w : Word}
    (h : PoolAt m b (pre ++ List.replicate (t + 1) (.page false) ++ post)
      lastLive)
    (hk : (k, w) ∈ poolNodes
      (pre ++ List.replicate (t + 1) (.page false) ++ post) lastLive) :
    slot b k ∉ region (page b (spans pre)) (4096 * (t + 1)) := by
  have hspans := h.spans_eq
  rw [spans_append, spans_append, spans_replicate_page] at hspans
  refine slot_notMem_pages (h.liveAt hk).slot_le (by omega) ?_
  rw [mem_poolNodes_mid, liveNodes_replicate, spans_replicate_page] at hk
  rcases hk with hk | hk | hk | ⟨-, hk⟩
  · exact absurd hk (by simp)
  · have hrange := liveNodes_range hk
    dsimp only at hrange
    omega
  · have hrange := liveNodes_range hk
    dsimp only at hrange
    omega
  · obtain ⟨rfl, -⟩ := Prod.mk.inj hk
    omega

theorem PoolAt.coalesces {α : Type} {s s' : Machine 64 (HeapGlobals α)}
    {pre post : List Segment} {t : ℕ} {p : Addr} (ht : t ≤ 3)
    (h : PoolAt m b (pre ++ List.replicate (t + 1) (.page false) ++ post)
      lastLive)
    (hserve : (serveRequest (.ok (.blocks (page b (spans pre))
      (BitVec.ofNat 64 (t + 1)), m))).run s = .ok p s') :
    p = page b (spans pre) + sizeofHead ∧
      (head.get s'.mem (page b (spans pre)) .size).toNat = 4096 * (t + 1) := by
  obtain ⟨last, hlast, hne, hpool⟩ := h.merge ht
  have hcoalesce := run_coalesceBlocks (s := ⟨m, { s.globals with
    mutex := 0 }⟩) (n := BitVec.ofNat 64 (t + 1)) rfl
      ((toNat_pages_pred ht).symm ▸ hlast) hne
  obtain ⟨rfl, rfl⟩ := EStateM.Result.ok.inj (hcoalesce.symm.trans hserve)
  refine ⟨rfl, ?_⟩
  rw [(hpool.segmentAt (focus_of_mid pre _ post)).node.size]
  exact toNat_pages ht

end

section

variable {τ : Type} {T : SizeTable τ} {fuel : ℕ} {R : UsableRegion} {mem : Bytes}
  {table : τ} {used : ℕ}

theorem PAGE_SIZE_lt_blockSize {size : Word}
    (hmin : 4096 < size.toNat + sizeofHead.toNat)
    (hmax : size.toNat + sizeofHead.toNat ≤ 16384) :
    PAGE_SIZE < blockSize size := by
  obtain ⟨hblock, hsum⟩ := blockSize_of_lt (show
    size.toNat + sizeofHead.toNat < 2 ^ 64 by omega)
  have hround : roundUpToNextPower2 (size + sizeofHead) ≠ 0 := by
    rw [Ne, roundUpToNextPower2_eq_zero_iff]
    intro hall
    obtain ⟨j, -, hbit⟩ := hall 32 (by decide)
    have hpred : (size + sizeofHead - 1).toNat < 2 ^ 32 := by
      rw [BitVec.toNat_sub_of_le (by rw [BitVec.le_def, hsum]; exact
        (by decide : (1 : Word).toNat ≤ 4096).trans hmin.le), hsum]
      omega
    rw [BitVec.getLsbD, Nat.testBit_lt_two_pow (hpred.trans_le
      (Nat.pow_le_pow_right (by decide) (by omega)))] at hbit
    exact absurd hbit (by decide)
  have hle := le_roundUpToNextPower2 hround
  rw [hblock, BitVec.lt_def]
  change 4096 < _
  omega

/-- In a run that only puts pages together which were never split, a request for
more than a page whose search does not end at an allocated block is given a
block with no other live block in it. -/
theorem avoidsLiveBlocks_of_wholePages {s₀ s : HeapState τ} {cs : List HeapCall}
    {size : Word} (h : HeapBooted R mem table used s₀)
    (hrun : Run (Guarded (CallMeets T fuel fun _ _ _ => True)
      (HeapStep T fuel)) s₀ cs s)
    (hmin : 4096 < size.toNat + sizeofHead.toNat)
    (hmax : size.toNat + sizeofHead.toNat ≤ 16384)
    (hmeets : CallMeets T fuel (fun _ _ _ => True) s (.malloc size))
    (hends : TakesUnused T fuel s size) : AvoidsLiveBlocks T fuel s size := by
  intro heapFuel p s' hcall hp block hblock
  obtain ⟨s₁, result, m, hs₁, hloop, hserve⟩ := mallocx_eq_ok hcall
  obtain ⟨hsplits, hmerges⟩ := hmeets s₁ hs₁
  have hinv := HeapInv.run (keptBy_true _) h hrun
  obtain ⟨segs, lastLive, -, hpool, -⟩ := hinv.searchStart trivial hs₁
  have hfirst : slot s₁.globals.freeList 0 = s₁.globals.freeList := slot_zero _
  obtain ⟨segs₁, hpool₁, hslots, hfound⟩ := hpool.pool.search
    (I := fun segs' =>
      (liveNodes 0 segs').map Prod.fst = (liveNodes 0 segs).map Prod.fst)
    hpool.pool.current_first
    (fun _ _ _ _ _ hstart _ hhalve => hhalve.slots_eq.trans hstart)
    (hfirst.symm ▸ hsplits) rfl (hfirst.symm ▸ hloop)
  cases result with
  | refused =>
      obtain ⟨rfl, -⟩ := EStateM.Result.ok.inj
        ((run_serveRequest_refused m s₁).symm.trans hserve)
      exact absurd rfl hp
  | node q =>
      -- An unused node has a page at most.
      have hunused := (hends s₁ hs₁).of_mallocLoop hloop
      obtain ⟨k, hk, rfl, hsize⟩ := hfound
      have hle := hpool₁.size_le_of_notAllocated hk hunused
      rw [hsize] at hle
      exact absurd (PAGE_SIZE_lt_blockSize hmin hmax) (BitVec.not_lt.2 hle)
  | blocks q n =>
      obtain ⟨pre, post, t, ht, rfl, rfl, rfl⟩ := hpool₁.foundPages hfound
        (hmerges.of_mallocLoop hloop q n rfl)
      obtain ⟨rfl, hsize⟩ := hpool₁.coalesces ht hserve
      obtain ⟨k, hk, rfl⟩ := (hpool.live block).1 hblock
      rw [BitVec.add_sub_cancel, BitVec.add_sub_cancel, hsize]
      have hk₁ : k ∈ poolSlots (pre ++ List.replicate (t + 1) (.page false) ++
          post) lastLive := by
        rw [poolSlots, poolNodes, List.map_append] at hk ⊢
        rwa [hslots]
      obtain ⟨w, hw⟩ := mem_poolSlots.1 hk₁
      exact slot_notMem_of_mem_poolNodes hpool₁ hw

end

/-- A request for several pages passes a block of two pages and the page behind it,
and puts the next ones together. -/
theorem PoolState.passesRun {α : Type} {A : FrameAllocator α}
    {s : Machine 64 (HeapGlobals α)} {live : Set Addr} {post : List Segment}
    {lastLive : Bool} {size : Word} {t : ℕ}
    (h : PoolState s live ([.run 1, .page false] ++
      List.replicate (t + 1) (.page false) ++ post) lastLive)
    (ht : t ≤ 3) (hlarge : PAGE_SIZE < blockSize size)
    (hsize : blockSize size / PAGE_SIZE = BitVec.ofNat 64 (t + 1)) :
    (∃ p s', (OptimistOS.mallocx A 2 size).run s = .ok p s' ∧ p ≠ 0) ∧
      (∀ P : Bytes → Addr → Prop,
        SplitsOnly P (blockSize size) s.mem s.globals.freeList) ∧
      MergesOnly WholePages (blockSize size) s.mem s.globals.freeList ∧
      EndsOnly NotAllocated (blockSize size) s.mem s.globals.freeList := by
  have hpages : PoolAt s.mem s.globals.freeList
      ([] ++ .run 1 :: .page false :: (List.replicate (t + 1) (.page false) ++ post))
      lastLive := h.pool
  obtain ⟨hnext, hsplits⟩ := hpages.step_passesRun hlarge
  rw [spans_nil, page_zero] at hnext hsplits
  have hdone := h.pool.step_takesRun ht hlarge hsize
  have hloop : mallocLoop (blockSize size) 2 s.mem s.globals.freeList = _ :=
    (mallocLoop_of_next hnext 1).trans (mallocLoop_of_done hdone 0)
  obtain ⟨s', hrun, -, -⟩ := h.mergesPages (A := A) ht hloop
  have hne := slot_add_header_ne_zero h.pool.base
    (show 2 * spans [.run 1, .page false] ≤ 6142 by decide)
  rw [← page_eq_slot] at hne
  refine ⟨⟨_, s', hrun, hne⟩,
    fun P => (splitsOnly_of_done hdone).of_next hnext hsplits,
    (mergesOnly_of_done hdone fun n hn => ?_).of_next hnext,
    (endsOnly_of_done hdone (by simp)).of_next hnext⟩
  obtain ⟨-, rfl⟩ := MallocResult.blocks.inj hn
  apply h.pool.wholePages
  rw [BitVec.toNat_ofNat, Nat.mod_eq_of_lt (by omega)]

/-- A second block of two pages is taken behind the first one, which is live. -/
theorem avoidsLiveBlocks_secondPages :
    ∃ s p s', Run (HeapStep addressSizeTable 0) bootedHeap
        [.malloc 20000, .malloc 8000] s ∧
      s.live = {bootedBlock} ∧
      (mallocx (heapAllocator addressSizeTable 0) 2 8000).run s.machine =
        .ok p s' ∧
      p ≠ 0 ∧ AvoidsLiveBlocks addressSizeTable 0 s 8000 := by
  obtain ⟨s₁, s, hstep₁, hstep₂, hmeets, -, hlive, hpool⟩ := exists_pagesRequest
  have hpair : PoolState s.machine s.live ([.run 1, .page false] ++
      List.replicate 2 (.page false) ++ List.replicate 3066 (.page false))
      false := hpool
  obtain ⟨⟨p, t, hrun, hne⟩, hsplits, hmerges, hends⟩ := hpair.passesRun
    (A := heapAllocator addressSizeTable 0) (t := 1) (by decide)
    (by decide : PAGE_SIZE < blockSize 8000) (by decide)
  refine ⟨s, p, t, .snoc (.single hstep₁) hstep₂, hlive, hrun, hne,
    avoidsLiveBlocks_of_wholePages heapBooted_bootedHeap
      (.snoc (.single ⟨(hmeets _).1, hstep₁⟩) ⟨(hmeets _).2, hstep₂⟩) (by decide)
      (by decide) (fun u hu => ?_) fun u hu => ?_⟩
  · obtain rfl := hu.eq hpool.pool.base.ne_zero
    exact ⟨hsplits _, hmerges⟩
  · obtain rfl := hu.eq hpool.pool.base.ne_zero
    exact hends

/-- Two requests for half a page; the left half is given back, and a request for
two pages is given the page with the block in the right half. -/
theorem exists_not_avoidsLiveBlocks :
    ∃ s, Run (HeapStep addressSizeTable 0) bootedHeap
        [.malloc 20000, .malloc 1000, .malloc 1000, .free bootedBlock] s ∧
      ¬ AvoidsLiveBlocks addressSizeTable 0 s 5000 := by
  obtain ⟨s, hrun, hpool⟩ := exists_rightHalfLive
  refine ⟨s, hrun, fun havoids => ?_⟩
  have hloop := mallocLoop_of_done (hpool.pool.step_takePages rfl rfl) 0
  rw [show (8192 : Word) = blockSize 5000 by decide] at hloop
  have hnext : head.get s.machine.mem s.machine.globals.freeList .next =
      page s.machine.globals.freeList 1 := hpool.pool.nodeAt_first.next
  have hlast : nodeAfter s.machine.mem ((2 : Word) - 1).toNat
      s.machine.globals.freeList = .ok (page s.machine.globals.freeList 1) := by
    rw [show ((2 : Word) - 1).toNat = 1 by decide, nodeAfter,
      if_neg hpool.pool.base.ne_zero, hnext]
    rfl
  have hserve : (mallocx (heapAllocator addressSizeTable 0) 1 5000).run
      s.machine = _ :=
    run_mallocx hpool.mutex (run_ensurePool_of_ne hpool.pool.base.ne_zero)
  rw [hloop] at hserve
  have hcall := hserve.trans (run_coalesceBlocks
    (s := ⟨s.machine.mem, { s.machine.globals with mutex := 0 }⟩) rfl hlast
    (hpool.pool.page_ne_zero (by decide)))
  have hne := slot_add_header_ne_zero hpool.pool.base (Nat.zero_le 6142)
  rw [slot_zero] at hne
  have hlive := (hpool.live _).2 ⟨1, mem_poolSlots.2 ⟨_, mem_poolNodes_right 2048
    2048 false (.page false :: List.replicate 3069 (.page false)) false⟩, rfl⟩
  refine havoids 1 _ _ hcall hne _ hlive ?_
  rw [size_of_mallocx hcall hne, BitVec.add_sub_cancel, BitVec.add_sub_cancel,
    show blockSize 5000 = 8192 by decide, slot]
  exact add_ofNat_mem_region _ (by decide : 2048 * 1 < 8192) (by decide)

end OptimistOS
