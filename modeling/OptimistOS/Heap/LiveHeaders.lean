import OptimistOS.Heap.FirstPage

/-!
# The headers of live blocks

A split writes the size of the right half without a look at whose node it is. If
the left half of a page is given back before the right one, the next request for
less than half a page splits the left half again and changes the size of the
live block next to it. No other call changes the header of a live block, as long
as several pages are only merged when none of them was split
(`keepsHeaders_of_sparesRightHalves`).
-/

namespace OptimistOS

open ByteMemory ByteMemory.Code Transition

def blockHeader : List Head := [.size, .status, .childSize, .isBuddyCoalesced]

/-- The call `c` leaves the headers of the other live blocks as they are. -/
def KeepsHeaders {τ : Type} (s : HeapState τ) (c : HeapCall)
    (s' : HeapState τ) : Prop :=
  ∀ block ∈ s.live, c ≠ .free block → ∀ f ∈ blockHeader,
    head.get s'.machine.mem (block - sizeofHead) f =
      head.get s.machine.mem (block - sizeofHead) f

/-- The node at `node` can be split: what becomes its right half is not a live
block. -/
def SparesRightHalf (live : Set Addr) (m : Bytes) (node : Addr) : Prop :=
  node + head.get m node .childSize + sizeofHead ∉ live

section

variable {τ : Type} {T : SizeTable τ} {fuel : ℕ} {R : UsableRegion} {mem : Bytes}
  {table : τ} {used : ℕ}

theorem slot_add_half (b : Addr) (k : ℕ) :
    slot b k + 2048 = slot b (k + 1) := by
  rw [slot, slot, show (2048 : Addr) = BitVec.ofNat 64 2048 from rfl,
    add_ofNat_add_ofNat]
  congr 2

theorem Halve.childSize {m : Bytes} {b : Addr} {segs segs' : List Segment}
    {lastLive : Bool} {k : ℕ} (h : Halve segs k segs')
    (hpool : PoolAt m b segs lastLive) (hk : k % 2 = 0) :
    head.get m (slot b k) .childSize = 2048 := by
  cases h with
  | page pre post =>
      have hnode := (hpool.segmentAt (focus_of_mid pre _ post)).node
      rw [page_eq_slot] at hnode
      exact hnode.childSize
  | left pre post left right liveRight =>
      have hnode := (hpool.segmentAt (focus_of_mid pre _ post)).node
      rw [page_eq_slot] at hnode
      exact hnode.childSize
  | right pre post left right liveLeft => omega

/-- A split that spares the live blocks leaves the allocated nodes as they
are. -/
theorem Halve.liveNodes_of_spares {m : Bytes} {b : Addr}
    {segs segs' : List Segment} {lastLive : Bool} {k : ℕ} {live : Set Addr}
    (h : Halve segs k segs') (hpool : PoolAt m b segs lastLive)
    (hlive : ∀ k ∈ poolSlots segs lastLive, slot b k + sizeofHead ∈ live)
    (hspares : SparesRightHalf live m (slot b k)) :
    liveNodes 0 segs' = liveNodes 0 segs := by
  refine h.liveNodes_eq fun hk w hw => hspares ?_
  rw [h.childSize hpool hk, slot_add_half]
  exact hlive _ (mem_poolSlots.2 ⟨w, List.mem_append_left _ hw⟩)

theorem LiveAt.header_eq {m m' : Bytes} {b : Addr} {k : ℕ} {w : Word}
    (h : LiveAt m b k w) (h' : LiveAt m' b k w) {f : Head}
    (hf : f ∈ blockHeader) :
    head.get m' (slot b k) f = head.get m (slot b k) f := by
  simp only [blockHeader, List.mem_cons, List.not_mem_nil, or_false] at hf
  rcases hf with rfl | rfl | rfl | rfl
  · exact h'.size.trans h.size.symm
  · exact h'.status.trans h.status.symm
  · exact h'.childSize.trans h.childSize.symm
  · exact h'.isBuddyCoalesced.trans h.isBuddyCoalesced.symm

/-- In a run whose splits spare the right halves that are live, no call changes
the header of a live block that it does not free. -/
theorem keepsHeaders_of_sparesRightHalves {s₀ s s' : HeapState τ}
    {cs : List HeapCall} {c : HeapCall}
    (h : HeapBooted R mem table used s₀)
    (hrun : Run (Guarded (CallMeets T fuel SparesRightHalf) (HeapStep T fuel))
      s₀ cs s)
    (hstep : Guarded (CallMeets T fuel SparesRightHalf) (HeapStep T fuel)
      s c s') : KeepsHeaders s c s' := by
  intro block hblock hc f hf
  have hinv := HeapInv.run (keptBy_true _) h hrun
  have hne : s.machine.globals.freeList ≠ 0 := by
    rcases hinv with hbooted | ⟨segs, lastLive, -, hpool⟩
    · exact absurd hblock (by simp [hbooted.live])
    · exact hpool.pool.base.ne_zero
  obtain ⟨hguard, hstep⟩ := hstep
  cases c with
  | malloc size =>
      obtain ⟨heapFuel, p, hcall, hlive⟩ := hstep
      obtain ⟨s₁, result, m, hs₁, hloop, hserve⟩ := mallocx_eq_ok hcall
      obtain ⟨hsplits, hmerges⟩ := hguard s₁ hs₁
      obtain ⟨segs, lastLive, -, hpool, hsame⟩ := hinv.searchStart trivial hs₁
      obtain ⟨hbefore, hlist⟩ := hsame hne
      obtain ⟨k, w, hk, rfl⟩ := hbefore.exists_of_mem hblock
      have hspared : ∀ m segs₁ i segs',
          PoolAt m s₁.globals.freeList segs₁ lastLive →
          liveNodes 0 segs₁ = liveNodes 0 segs →
          SparesRightHalf s.live m (slot s₁.globals.freeList i) →
          Halve segs₁ i segs' → liveNodes 0 segs' = liveNodes 0 segs := by
        intro m segs₁ i segs' hpool₁ hnodes hspares hhalve
        refine (hhalve.liveNodes_of_spares hpool₁ (fun l hl => ?_)
          hspares).trans hnodes
        rw [poolSlots, poolNodes, hnodes] at hl
        exact (hpool.live _).2 ⟨l, hl, rfl⟩
      obtain ⟨segs₁, segs', lastLive', hnodes, hglobals, hhanded, -, hpool'⟩ :=
        hpool.mallocx hspared rfl hsplits hmerges hloop hserve
      have hk' : (k, w) ∈ poolNodes segs' lastLive' := by
        rw [poolNodes, ← hnodes] at hk
        rcases hhanded with ⟨-, hsame⟩ | ⟨-, hadded⟩
        · exact hsame ▸ hk
        · exact (hadded _).2 (Or.inl hk)
      have hafter := hpool'.pool.liveAt hk'
      rw [hglobals] at hafter
      rw [BitVec.add_sub_cancel]
      refine (hbefore.pool.liveAt hk).header_eq ?_ hf
      exact hlist ▸ hafter
  | free freed =>
      obtain ⟨hcall, hlive⟩ := hstep
      rcases hinv with hbooted | ⟨segs, lastLive, -, hpool⟩
      · exact absurd hbooted.heap.freeList hne
      obtain ⟨k, w, hk, rfl⟩ := hpool.exists_of_mem hblock
      obtain ⟨l, segs', lastLive', rfl, hglobals, hnodes, -, hpool'⟩ :=
        hpool.freex hguard hcall
      have hkl : k ≠ l := by
        rintro rfl
        exact hc rfl
      have hafter := hpool'.pool.liveAt ((hnodes (k, w)).2 ⟨hk, hkl⟩)
      rw [hglobals] at hafter
      rw [BitVec.add_sub_cancel]
      exact (hpool.pool.liveAt hk).header_eq hafter hf

end

/-- Two requests for half a page. -/
theorem keepsHeaders_halfRequests :
    ∃ s s', Run (Guarded (CallMeets addressSizeTable 0 SparesRightHalf)
        (HeapStep addressSizeTable 0)) bootedHeap
        [.malloc 20000, .malloc 1000] s ∧
      HeapStep addressSizeTable 0 s (.malloc 1000) s' ∧
      KeepsHeaders s (.malloc 1000) s' := by
  obtain ⟨s, s', hrun, hstep⟩ := exists_halfRequests
    (P := SparesRightHalf) fun m q => Set.notMem_empty _
  exact ⟨s, s', hrun, hstep.2, keepsHeaders_of_sparesRightHalves
    heapBooted_bootedHeap hrun hstep⟩

/-- Two requests for half a page; the left half is given back, and a request
for a quarter of a page changes the size of the block in the right half. -/
theorem exists_not_keepsHeaders :
    ∃ s s', Run (HeapStep addressSizeTable 0) bootedHeap
        [.malloc 20000, .malloc 1000, .malloc 1000, .free bootedBlock] s ∧
      HeapStep addressSizeTable 0 s (.malloc 900) s' ∧
      ¬ KeepsHeaders s (.malloc 900) s' := by
  obtain ⟨s, hrun, hpool⟩ := exists_rightHalfLive
  obtain ⟨t, hcall, hglobals, hpool'⟩ := hpool.takesQuarter
    (A := heapAllocator addressSizeTable 0)
    (show blockSize 900 = 1024 by decide)
  refine ⟨s, _, hrun, heapStep_malloc _ hcall, fun hkeeps => ?_⟩
  have hbefore := mem_poolNodes_right 2048 2048 false
    (.page false :: List.replicate 3069 (.page false)) false
  have hafter := mem_poolNodes_right 1024 1024 true
    (.page false :: List.replicate 3069 (.page false)) false
  have hblock := (hpool.live _).2 ⟨1, mem_poolSlots.2 ⟨_, hbefore⟩, rfl⟩
  have hsize := hkeeps _ hblock (by simp) .size (by simp [blockHeader])
  rw [BitVec.add_sub_cancel, (hpool.pool.liveAt hbefore).size] at hsize
  have hsize' := (hpool'.pool.liveAt hafter).size
  rw [hglobals] at hsize'
  exact absurd (hsize'.symm.trans hsize) (by decide)

end OptimistOS
