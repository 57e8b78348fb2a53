import OptimistOS.Heap.LiveNodes
import OptimistOS.Heap.PayloadSearch

/-!
# Answers from any pool

What a request gets when nothing is known of the pool but that it is one. A
request for more than four pages is refused and changes nothing: no node is as
large, so there is none to take or to split. A request for a page at most gets a
node of the pool. In both cases only bytes of the pool change.
-/

namespace OptimistOS

open ByteMemory ByteMemory.Code

section

variable {m m' : Bytes} {b : Addr} {segs : List Segment} {lastLive : Bool}
  {size : Word} {fuel i k : ℕ} {result : MallocResult}

theorem PoolAt.size_le (h : PoolAt m b segs lastLive) (hk : Current segs k) :
    (head.get m (slot b k) .size).toNat ≤ 4 * 4096 := by
  have hpage : (PAGE_SIZE : Word).toNat = 4096 := rfl
  have hhalf : ((2048 : Word)).toNat = 2048 := rfl
  cases hk with
  | @page j seg hf =>
      have hsegment := h.segmentAt hf
      rw [← page_eq_slot, hsegment.node.size]
      cases seg with
      | page live => exact hpage.trans_le (by decide)
      | halves left right liveLeft liveRight =>
          have hle := BitVec.le_def.1 hsegment.rest.1
          change left.toNat ≤ _
          omega
      | run n =>
          have hn := hsegment.rest.1
          change (PAGE_SIZE * BitVec.ofNat 64 (n + 1)).toNat ≤ _
          rw [BitVec.toNat_mul, hpage, BitVec.toNat_ofNat]
          omega
  | @right j left right liveLeft hf =>
      obtain ⟨-, hle, l, r, -, -, hnode⟩ := (h.segmentAt hf).rest
      rw [← rightHalf_eq_slot, hnode.size]
      have hle' := BitVec.le_def.1 hle
      change right.toNat ≤ _
      omega
  | last =>
      have hlast := h.last
      rw [page_eq_slot] at hlast
      rw [hlast.size]
      exact Nat.zero_le _

theorem four_pages_lt (hblocks : MAXIMUM_COALESCE_BLOCKS < size / PAGE_SIZE) :
    4 * 4096 < size.toNat := by
  have hmax : (MAXIMUM_COALESCE_BLOCKS : Word).toNat = 4 := rfl
  have hpage : (PAGE_SIZE : Word).toNat = 4096 := rfl
  rw [BitVec.lt_def, BitVec.toNat_udiv, hmax, hpage] at hblocks
  omega

theorem record_slot_subset (b : Addr) (hk : k ≤ 6143) :
    head.recordRegion (slot b k) ⊆ region b poolBytes.toNat := by
  have hpool : poolBytes.toNat = 12779520 := by decide
  exact region_subset_of_le b (n := 64) (by omega) poolBytes.isLt.le

theorem PoolAt.agreeOff_splitNode {segs' : List Segment}
    (h : PoolAt m b segs lastLive) (hk : Current segs k)
    (hhalve : Halve segs k segs') :
    AgreeOff (region b poolBytes.toNat) m (splitNode m (slot b k)) := by
  have hle := h.current_le hk
  have hright := hhalve.rightSlot h
  have hsplit := OptimistOS.agreeOff_splitNode (m := m) (p := slot b k) rfl
    (eq_or_disjoint (apart_slots b) (slot_mem_slots b (by omega))
      (hright.symm ▸ slot_mem_slots b (k := k / 2 * 2 + 1) (by omega)))
  rw [hright] at hsplit
  exact hsplit.mono (Set.union_subset (record_slot_subset b (by omega))
    (record_slot_subset b (by omega)))

theorem PoolAt.agreeOff_search (h : PoolAt m b segs lastLive)
    (hi : Current segs i)
    (hloop : mallocLoop size fuel m (slot b i) = .ok (result, m')) :
    AgreeOff (region b poolBytes.toNat) m m' := by
  induction fuel generalizing m segs i with
  | zero => exact absurd hloop (by simp [mallocLoop])
  | succ fuel ih =>
      rw [mallocLoop] at hloop
      cases hstep : mallocStep m size (slot b i) with
      | error e =>
          rw [hstep] at hloop
          exact absurd hloop (by simp [bind, Except.bind])
      | ok next =>
          rw [hstep] at hloop
          rcases h.iteration hi hstep with ⟨found, rfl, -⟩ | ⟨k, hk, rfl⟩ |
            ⟨k, segs', hk, -, -, -, hhalve, hk', hpool, rfl⟩
          · obtain ⟨-, rfl⟩ := Prod.mk.inj (Except.ok.inj hloop)
            exact AgreeOff.refl _ _
          · exact ih h hk hloop
          · have hall := (h.agreeOff_splitNode hk hhalve).trans
              (ih hpool hk' hloop)
            rwa [Set.union_self] at hall

/-- A search for more than four pages is refused, if it ends. -/
theorem PoolAt.search_tooLarge (h : PoolAt m b segs lastLive)
    (hi : Current segs i)
    (hblocks : MAXIMUM_COALESCE_BLOCKS < size / PAGE_SIZE)
    (hloop : mallocLoop size fuel m (slot b i) = .ok (result, m')) :
    result = .refused ∧ m' = m := by
  have hlarge := four_pages_lt hblocks
  induction fuel generalizing i with
  | zero => exact absurd hloop (by simp [mallocLoop])
  | succ fuel ih =>
      rw [mallocLoop] at hloop
      cases hstep : mallocStep m size (slot b i) with
      | error e =>
          rw [hstep] at hloop
          exact absurd hloop (by simp [bind, Except.bind])
      | ok next =>
          rw [hstep] at hloop
          rcases h.iteration hi hstep with ⟨found, rfl, hfound⟩ | ⟨k, hk, rfl⟩ |
            ⟨k, segs', hk, hsplit, hskip, -⟩
          · obtain ⟨rfl, rfl⟩ := Prod.mk.inj (Except.ok.inj hloop)
            refine ⟨?_, rfl⟩
            cases found with
            | refused => rfl
            | node p =>
                obtain ⟨k, hk, rfl, hsize⟩ := hfound
                have hle := h.size_le hk
                rw [hsize] at hle
                omega
            | blocks p n =>
                obtain ⟨-, -, -, -, -, rfl, hle, -⟩ := hfound
                exact absurd hblocks (BitVec.not_lt.2 hle)
          · exact ih hk hloop
          · have hle := h.size_le hk
            have hsize := BitVec.le_def.1 hsplit.2.2.2.2.2
            rw [hskip] at hsize
            omega

theorem exists_node_of_mallocLoop {p : Addr} (hsize : size ≤ PAGE_SIZE)
    (hloop : mallocLoop size fuel m p = .ok (result, m')) :
    ∃ q, result = .node q := by
  obtain ⟨q, -, hlast⟩ := exists_lastIteration hloop
  by_cases hq : q = 0
  · rw [mallocStep, if_pos hq] at hlast
    exact absurd hlast (by simp)
  · rw [mallocStep_of_le hq hsize, takeOrSplit] at hlast
    split_ifs at hlast
    · exact ⟨_, (MallocStep.done.inj (Except.ok.inj hlast)).symm⟩
    all_goals exact absurd (Except.ok.inj hlast) (by simp)

end

section

variable {α : Type} {s s' : Machine 64 (HeapGlobals α)} {m : Bytes}
  {segs : List Segment} {lastLive : Bool} {size : Word} {fuel : ℕ} {p : Addr}
  {result : MallocResult}

theorem PoolAt.serve_tooLarge
    (h : PoolAt s.mem s.globals.freeList segs lastLive)
    (hblocks : MAXIMUM_COALESCE_BLOCKS < size / PAGE_SIZE)
    (hloop : mallocLoop size fuel s.mem s.globals.freeList = .ok (result, m))
    (hserve : (serveRequest (.ok (result, m))).run s = .ok p s') :
    p = 0 ∧ s' = ⟨s.mem, { s.globals with mutex := 0 }⟩ := by
  have hfirst : slot s.globals.freeList 0 = s.globals.freeList :=
    BitVec.add_zero _
  obtain ⟨rfl, rfl⟩ := h.search_tooLarge h.current_first hblocks
    (hfirst.symm ▸ hloop)
  obtain ⟨rfl, rfl⟩ := EStateM.Result.ok.inj
    ((run_serveRequest_refused s.mem s).symm.trans hserve)
  exact ⟨rfl, rfl⟩

theorem PoolAt.serve_node (h : PoolAt s.mem s.globals.freeList segs lastLive)
    (hsize : size ≤ PAGE_SIZE)
    (hloop : mallocLoop size fuel s.mem s.globals.freeList = .ok (result, m))
    (hserve : (serveRequest (.ok (result, m))).run s = .ok p s') :
    s'.globals = { s.globals with mutex := 0 } ∧
      (∃ k ≤ 6142, p = slot s.globals.freeList k + sizeofHead) ∧
      (∃ segs' lastLive', PoolAt s'.mem s.globals.freeList segs' lastLive') ∧
      AgreeOff (region s.globals.freeList poolBytes.toNat) s.mem s'.mem := by
  have hfirst : slot s.globals.freeList 0 = s.globals.freeList :=
    BitVec.add_zero _
  rw [← hfirst] at hloop
  obtain ⟨q, rfl⟩ := exists_node_of_mallocLoop hsize hloop
  have hagree := h.agreeOff_search h.current_first hloop
  obtain ⟨segs₁, hpool, -, k, hk, rfl, -⟩ := h.search (P := fun _ _ => True)
    (I := fun _ => True) h.current_first (fun _ _ _ _ _ _ _ _ => trivial)
    (fun _ _ _ _ => trivial) trivial hloop
  have hle := hpool.current_le hk
  obtain ⟨segs', lastLive', hpool', -⟩ := hpool.grant hk
  obtain ⟨rfl, rfl⟩ := EStateM.Result.ok.inj
    ((run_serveRequest_node m _ s).symm.trans hserve)
  refine ⟨rfl, ⟨k, hle, rfl⟩, ⟨segs', lastLive', hpool'⟩, ?_⟩
  have hall := hagree.trans (head.agreeOff_set m
    (slot s.globals.freeList k) .status Flag.allocated)
  exact hall.mono (Set.union_subset (Set.Subset.refl _)
    (record_slot_subset _ (by omega)))

end

end OptimistOS
