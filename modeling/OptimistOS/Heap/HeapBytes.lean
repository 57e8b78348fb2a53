import Mathlib.Algebra.BigOperators.Finprod
import OptimistOS.Heap.FirstPage
import OptimistOS.Heap.Reachable
import OptimistOS.Heap.Rooms

/-!
# The bytes of the heap

Every byte of the heap belongs to a block that is handed out or to a free one
that the search can still find. A split of a page keeps it so. A split of a half
does not: the new right half does not lie in the middle of the old one, and its
second half is lost. As long as only whole pages are split and put together,
calls keep the sum of all these sizes (`keepsBytes_of_pageSplits`).
-/

namespace OptimistOS

open ByteMemory ByteMemory.Code Transition

/-- The nodes of the blocks that are handed out and of the free ones that are
reachable. -/
def blockNodes {τ : Type} (s : HeapState τ) : Set Addr :=
  {p | p + sizeofHead ∈ s.live ∨
    Reachable s.machine.mem s.machine.globals.freeList p ∧
      head.get s.machine.mem p .status ≠ Flag.allocated}

/-- The number of bytes of these blocks, as their headers record them. -/
noncomputable def heapBytes {τ : Type} (s : HeapState τ) : ℕ :=
  ∑ᶠ p ∈ blockNodes s, (head.get s.machine.mem p .size).toNat

/-- The node is that of a page that was never split. -/
def SplitsPage (m : Bytes) (node : Addr) : Prop :=
  head.get m node .size = PAGE_SIZE

def Segment.bytes : Segment → ℕ
  | page _ => 4096
  | halves left right _ _ => left.toNat + right.toNat
  | run n => 4096 * (n + 1)

def poolBytesOf (segs : List Segment) : ℕ := (segs.map Segment.bytes).sum

theorem poolBytesOf_cons (seg : Segment) (segs : List Segment) :
    poolBytesOf (seg :: segs) = seg.bytes + poolBytesOf segs := rfl

section

variable {m : Bytes} {b : Addr} {segs : List Segment} {lastLive : Bool}

theorem Segment.shown_nodup (j : ℕ) (seg : Segment) : (seg.shown j).Nodup := by
  cases seg <;> simp [Segment.shown]

theorem shown_nodup (j : ℕ) (segs : List Segment) : (shown j segs).Nodup := by
  induction segs generalizing j with
  | nil => exact List.nodup_nil
  | cons seg segs ih =>
      refine List.nodup_append'.2 ⟨seg.shown_nodup j, ih _, fun k hk hk' => ?_⟩
      have hseg := Segment.shown_range hk
      have hrest := shown_range hk'
      omega

theorem PoolAt.poolShown_nodup (h : PoolAt m b segs lastLive) :
    (poolShown segs).Nodup := by
  refine List.nodup_append'.2 ⟨shown_nodup 0 segs, List.nodup_singleton _,
    fun k hk hk' => ?_⟩
  have hrange := shown_range hk
  have hspans := h.spans_eq
  rw [List.mem_singleton] at hk'
  omega

/-- An allocated node belongs to a block that is handed out. -/
theorem PoolAt.mem_poolSlots_of_allocated (h : PoolAt m b segs lastLive) {k : ℕ}
    (hk : k ∈ poolShown segs)
    (hstatus : head.get m (slot b k) .status = Flag.allocated) :
    k ∈ poolSlots segs lastLive := by
  have hlive : ∀ {n : HeapNode}, NodeAt m (slot b k) n → n.live = true := by
    intro n hn
    by_contra hfree
    exact hn.status_ne_allocated.2 (by simpa using hfree) hstatus
  rcases poolShown_cases hk with ⟨j, seg, hf, rfl⟩ |
    ⟨j, left, right, liveLeft, liveRight, hf, rfl⟩ | rfl
  · have hnode := (h.segmentAt hf).node
    rw [page_eq_slot] at hnode
    have hseg := hlive hnode
    obtain ⟨pre, post, rfl, rfl⟩ := focus_mid hf
    refine mem_poolSlots.2 ⟨(seg.node b (spans pre)).size,
      mem_poolNodes_mid.2 (Or.inl ?_)⟩
    rw [liveNodes_singleton]
    cases seg with
    | page live =>
        obtain rfl : live = true := hseg
        exact List.mem_singleton_self _
    | halves left right liveLeft liveRight =>
        obtain rfl : liveLeft = true := hseg
        exact List.mem_append_left _ (List.mem_singleton_self _)
    | run n => exact List.mem_singleton_self _
  · obtain ⟨-, -, l, r, -, -, hnode⟩ := (h.segmentAt hf).rest
    rw [rightHalf_eq_slot] at hnode
    obtain rfl : liveRight = true := hlive hnode
    obtain ⟨pre, post, rfl, rfl⟩ := focus_mid hf
    refine mem_poolSlots.2 ⟨right, mem_poolNodes_mid.2 (Or.inl ?_)⟩
    simp [Segment.liveNodes]
  · have hlast := h.last
    rw [page_eq_slot] at hlast
    obtain rfl : lastLive = true := hlive hlast
    exact mem_poolSlots.2 ⟨0, List.mem_append_right _ (by simp)⟩

theorem SegmentAt.sum_size {j : ℕ} {seg : Segment} (h : SegmentAt m b j seg) :
    ((seg.shown j).map fun k => (head.get m (slot b k) .size).toNat).sum =
      seg.bytes := by
  have hnode := h.node
  rw [page_eq_slot] at hnode
  cases seg with
  | page live =>
      rw [Segment.shown, List.map_singleton, List.sum_singleton, hnode.size]
      rfl
  | halves left right liveLeft liveRight =>
      obtain ⟨-, -, l, r, -, -, hright⟩ := h.rest
      rw [rightHalf_eq_slot] at hright
      simp [Segment.shown, hnode.size, hright.size, Segment.node, Segment.bytes]
  | run n =>
      have hn := toNat_pages h.rest.1
      rw [Segment.shown, List.map_singleton, List.sum_singleton, hnode.size]
      exact hn

theorem SegmentsAt.sum_size {j : ℕ} (h : SegmentsAt m b j segs) :
    ((shown j segs).map fun k => (head.get m (slot b k) .size).toNat).sum =
      poolBytesOf segs := by
  induction segs generalizing j with
  | nil => rfl
  | cons seg segs ih =>
      rw [shown, List.map_append, List.sum_append, h.1.sum_size, ih h.2]
      rfl

theorem EvenHalves.bytes_eq (h : EvenHalves segs) :
    poolBytesOf segs = 4096 * spans segs := by
  induction segs with
  | nil => rfl
  | cons seg segs ih =>
      have hrest := ih fun s hs => h s (List.mem_cons_of_mem _ hs)
      have hseg : seg.bytes = 4096 * seg.span := by
        have heven := h seg List.mem_cons_self
        cases seg with
        | page live => rfl
        | halves left right liveLeft liveRight =>
            obtain ⟨rfl, rfl⟩ := heven
            rfl
        | run n => rfl
      rw [poolBytesOf_cons, hrest, hseg, spans_cons, Nat.mul_add]

/-- The blocks of a pool and their sizes. -/
theorem PoolState.heapBytes_eq {τ : Type} {t : Machine 64 (KernelGlobals τ)}
    {live : Set Addr} (h : PoolState t live segs lastLive) :
    heapBytes ⟨t, live⟩ = poolBytesOf segs := by
  set b := t.globals.freeList with hb
  have hnodes : blockNodes ⟨t, live⟩ =
      ((poolShown segs).toFinset.image (slot b) : Finset Addr) := by
    ext p
    rw [blockNodes, Set.mem_ofPred_eq, h.live, h.pool.reachable_iff,
      Finset.coe_image, Set.mem_image]
    simp only [Finset.mem_coe, List.mem_toFinset]
    constructor
    · rintro (⟨k, hk, heq⟩ | ⟨⟨k, hk, rfl⟩, -⟩)
      · obtain ⟨w, hw⟩ := mem_poolSlots.1 hk
        exact ⟨k, mem_poolShown_of_live hw, ((BitVec.add_left_inj _).1 heq).symm⟩
      · exact ⟨k, hk, rfl⟩
    · rintro ⟨k, hk, rfl⟩
      by_cases hstatus : head.get t.mem (slot b k) .status = Flag.allocated
      · exact Or.inl ⟨k, h.pool.mem_poolSlots_of_allocated hk hstatus, rfl⟩
      · exact Or.inr ⟨⟨k, hk, rfl⟩, hstatus⟩
  have hinj : Set.InjOn (slot b) ((poolShown segs).toFinset : Finset ℕ) := by
    intro k hk l hl heq
    have hk' := h.pool.shown_le (List.mem_toFinset.1 hk)
    have hl' := h.pool.shown_le (List.mem_toFinset.1 hl)
    exact slot_inj b (by omega) (by omega) heq
  have hlast := h.pool.last.size
  rw [page_eq_slot] at hlast
  rw [heapBytes, hnodes, finsum_mem_coe_finset, Finset.sum_image hinj,
    List.sum_toFinset _ h.pool.poolShown_nodup, poolShown, List.map_append,
    List.sum_append, h.pool.segments.sum_size, List.map_singleton,
    List.sum_singleton, hlast]
  rfl

end

section

variable {τ : Type} {T : SizeTable τ} {fuel : ℕ} {R : UsableRegion} {mem : Bytes}
  {table : τ} {used : ℕ}

theorem keptBy_evenHalves : KeptBy (fun _ => SplitsPage) EvenHalves where
  fresh seg hseg := by
    obtain rfl := List.eq_of_mem_replicate hseg
    trivial
  halve hpool h hP hhalve := by
    have hhalf : ¬ (2048 : Word) = PAGE_SIZE := by decide
    cases hhalve with
    | page pre post => exact h.replace_one fun _ => ⟨rfl, rfl⟩
    | left pre post left right liveRight =>
        have hnode := (hpool.segmentAt (focus_of_mid pre _ post)).node
        rw [page_eq_slot] at hnode
        obtain ⟨rfl, -⟩ := h (.halves left right false liveRight) (by simp)
        exact absurd (hnode.size.symm.trans hP) hhalf
    | right pre post left right liveLeft =>
        obtain ⟨-, -, l, r, -, -, hnode⟩ :=
          (hpool.segmentAt (focus_of_mid pre _ post)).rest
        rw [rightHalf_eq_slot] at hnode
        obtain ⟨-, rfl⟩ := h (.halves left right liveLeft false) (by simp)
        exact absurd (hnode.size.symm.trans hP) hhalf
  mark hfrom h := hfrom.even h

/-- In a run that splits and puts together whole pages only, no call changes the
number of bytes of all blocks. -/
theorem keepsBytes_of_pageSplits {s₀ s s' : HeapState τ} {cs : List HeapCall}
    {c : HeapCall} (h : HeapBooted R mem table used s₀)
    (hrun : Run (Guarded (CallMeets T fuel fun _ => SplitsPage)
      (HeapStep T fuel)) s₀ cs s)
    (hne : s.machine.globals.freeList ≠ 0)
    (hstep : Guarded (CallMeets T fuel fun _ => SplitsPage) (HeapStep T fuel)
      s c s') : heapBytes s' = heapBytes s := by
  have hinv := HeapInv.run keptBy_evenHalves h hrun
  obtain ⟨segs', lastLive', heven', hpool'⟩ :=
    hinv.exists_pool keptBy_evenHalves hstep
  rcases hinv with hbooted | ⟨segs, lastLive, heven, hpool⟩
  · exact absurd hbooted.heap.freeList hne
  · rw [hpool.heapBytes_eq, hpool'.heapBytes_eq,
      heven.bytes_eq, heven'.bytes_eq, hpool.pool.spans_eq,
      hpool'.pool.spans_eq]

end

/-- A request for a whole page. -/
theorem keepsBytes_wholePage :
    ∃ s s', HeapStep addressSizeTable 0 bootedHeap (.malloc 20000) s ∧
      HeapStep addressSizeTable 0 s (.malloc 4000) s' ∧
      heapBytes s' = heapBytes s := by
  obtain ⟨hmeets, s, hstep, -, -, hpool⟩ := exists_setUp
  have hdone := hpool.pool.step_takePage
  rw [show PAGE_SIZE = blockSize 4000 by decide] at hdone
  have hstep' := heapStep_malloc s.live (run_mallocx_node
    (A := heapAllocator addressSizeTable 0) hpool.mutex
    hpool.pool.base.ne_zero (mallocLoop_of_done hdone 0))
  have hguard : CallMeets addressSizeTable 0 (fun _ => SplitsPage) s
      (.malloc 4000) := by
    intro u hu
    obtain rfl := hu.eq hpool.pool.base.ne_zero
    exact ⟨splitsOnly_of_done hdone, mergesOnly_of_done hdone (by simp)⟩
  exact ⟨s, _, hstep, hstep', keepsBytes_of_pageSplits heapBooted_bootedHeap
    (.single ⟨hmeets _, hstep⟩) hpool.pool.base.ne_zero ⟨hguard, hstep'⟩⟩

/-- A request for half a page, which is given back, and one for a quarter of a
page. -/
theorem exists_not_keepsBytes :
    ∃ s s', Run (HeapStep addressSizeTable 0) bootedHeap
        [.malloc 20000, .malloc 1000, .free bootedBlock] s ∧
      s.machine.globals.freeList ≠ 0 ∧
      HeapStep addressSizeTable 0 s (.malloc 900) s' ∧
      heapBytes s' ≠ heapBytes s := by
  obtain ⟨-, s₁, hstep₁, -, hfirst, hpool₁⟩ := exists_setUp
  obtain ⟨t₂, hrun₂, hglobals₂, hpool₂⟩ := hpool₁.takesLeft
    (A := heapAllocator addressSizeTable 0)
    (show blockSize 1000 = 2048 by decide)
  obtain ⟨t₃, hrun₃, -, hpool₃⟩ := hpool₂.freesLeft
  have hfirst₂ : t₂.globals.freeList + sizeofHead = bootedBlock := by
    rw [hglobals₂, hfirst]
  rw [hfirst₂] at hrun₃ hpool₃
  obtain ⟨t₄, hrun₄, -, hpool₄⟩ := hpool₃.takesQuarter
    (A := heapAllocator addressSizeTable 0)
    (show blockSize 900 = 1024 by decide)
  refine ⟨⟨t₃, _⟩, ⟨t₄, _⟩, .snoc (.snoc (.single hstep₁)
    (heapStep_malloc _ hrun₂)) (heapStep_free _ hrun₃),
    hpool₃.pool.base.ne_zero, heapStep_malloc _ hrun₄, ?_⟩
  rw [hpool₃.heapBytes_eq, hpool₄.heapBytes_eq,
    poolBytesOf_cons (.halves 1024 1024 true false),
    poolBytesOf_cons (.halves 2048 2048 false false), Ne,
    Nat.add_right_cancel_iff]
  decide

end OptimistOS
