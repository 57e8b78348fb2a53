import OptimistOS.Heap.HeapRuns

/-!
# Calls on the first page of a pool

What the calls on a small history of a page return: the page is split, its two
halves are handed out, the left half is given back and split again, or merged
with the page behind it.
-/

namespace OptimistOS

open ByteMemory ByteMemory.Code Transition

theorem slot_zero (b : Addr) : slot b 0 = b := BitVec.add_zero b

theorem slot_one (b : Addr) : slot b 1 = rightHalf b := rfl

theorem searches_of_done {size : Word} {m : Bytes} {p : Addr}
    {result : MallocResult} (h : mallocStep m size p = .ok (.done result))
    {m' : Bytes} {q : Addr} (hsearch : Searches size m p m' q) :
    m' = m ∧ q = p := by
  induction hsearch with
  | refl => exact ⟨rfl, rfl⟩
  | step _ hnext ih =>
      obtain ⟨rfl, rfl⟩ := ih
      exact absurd (h.symm.trans hnext) (by simp)

theorem not_splits_of_done {size : Word} {m : Bytes} {p : Addr}
    {result : MallocResult} (h : mallocStep m size p = .ok (.done result)) :
    ¬ Splits m size p := by
  rintro ⟨hp, hmulti, hskip, hne, hstatus, hle⟩
  rw [mallocStep, if_neg hp, hmulti] at h
  change takeOrSplit m size (skipAllocated m p) = _ at h
  rw [takeOrSplit, if_neg hskip, if_neg hne,
    if_neg (not_or.2 ⟨hstatus, BitVec.not_lt.2 hle⟩)] at h
  split_ifs at h
  all_goals exact absurd h (by simp)

theorem splitsOnly_of_done {P : Bytes → Addr → Prop} {size : Word} {m : Bytes}
    {p : Addr} {result : MallocResult}
    (h : mallocStep m size p = .ok (.done result)) : SplitsOnly P size m p := by
  intro m' q hsearch hsplits
  obtain ⟨rfl, rfl⟩ := searches_of_done h hsearch
  exact absurd hsplits (not_splits_of_done h)

theorem mergesOnly_of_done {P : Bytes → Addr → Word → Prop} {size : Word}
    {m : Bytes} {p : Addr} {result : MallocResult}
    (h : mallocStep m size p = .ok (.done result))
    (hP : ∀ n, result = .blocks p n → P m p n) : MergesOnly P size m p := by
  intro m' q n hsearch hmulti
  obtain ⟨rfl, rfl⟩ := searches_of_done h hsearch
  refine hP n ?_
  rw [mallocStep, hmulti] at h
  split_ifs at h
  exact (MallocStep.done.inj (Except.ok.inj h)).symm

theorem Searches.from_next {size : Word} {m m' m₁ : Bytes} {p q p₁ : Addr}
    (h : Searches size m p m' q) (hstep : mallocStep m size p = .ok (.next m₁ p₁)) :
    m' = m ∧ q = p ∨ Searches size m₁ p₁ m' q := by
  induction h with
  | refl => exact Or.inl ⟨rfl, rfl⟩
  | step _ hnext ih =>
      rcases ih with ⟨rfl, rfl⟩ | hsearch
      · obtain ⟨rfl, rfl⟩ := MallocStep.next.inj
          (Except.ok.inj (hstep.symm.trans hnext))
        exact Or.inr .refl
      · exact Or.inr (.step hsearch hnext)

theorem SplitsOnly.of_next {P : Bytes → Addr → Prop} {size : Word}
    {m m₁ : Bytes} {p p₁ : Addr} (h : SplitsOnly P size m₁ p₁)
    (hstep : mallocStep m size p = .ok (.next m₁ p₁))
    (hnot : ¬ Splits m size p) : SplitsOnly P size m p := by
  intro m' q hsearch hsplits
  rcases hsearch.from_next hstep with ⟨rfl, rfl⟩ | hsearch
  · exact absurd hsplits hnot
  · exact h m' q hsearch hsplits

theorem MergesOnly.of_next {P : Bytes → Addr → Word → Prop} {size : Word}
    {m m₁ : Bytes} {p p₁ : Addr} (h : MergesOnly P size m₁ p₁)
    (hstep : mallocStep m size p = .ok (.next m₁ p₁)) :
    MergesOnly P size m p := by
  intro m' q n hsearch hmulti
  rcases hsearch.from_next hstep with ⟨rfl, rfl⟩ | hsearch
  · rw [mallocStep, hmulti] at hstep
    split_ifs at hstep
    exact absurd hstep (by simp [bind, Except.bind, pure, Except.pure])
  · exact h m' q n hsearch hmulti

theorem mergesOnly_of_le {P : Bytes → Addr → Word → Prop} {size : Word}
    (h : size ≤ PAGE_SIZE) (m : Bytes) (p : Addr) : MergesOnly P size m p := by
  intro m' q n _ hmulti
  rw [multiPage_of_le m' q h] at hmulti
  exact absurd hmulti (by simp)

theorem mallocLoop_of_done {size : Word} {m : Bytes} {p : Addr}
    {result : MallocResult} (h : mallocStep m size p = .ok (.done result))
    (fuel : ℕ) : mallocLoop size (fuel + 1) m p = .ok (result, m) := by
  rw [mallocLoop, h]
  rfl

theorem mallocLoop_of_next {size : Word} {m m' : Bytes} {p q : Addr}
    (h : mallocStep m size p = .ok (.next m' q)) (fuel : ℕ) :
    mallocLoop size (fuel + 1) m p = mallocLoop size fuel m' q := by
  rw [mallocLoop, h]
  rfl

section

variable {m : Bytes} {p : Addr} {n : HeapNode} {size : Word}

theorem NodeAt.mallocStep_of_eq (h : NodeAt m p n) (hp : p ≠ 0)
    (hlive : n.live = false) (hleft : n.left = 0 ∨ n.left = p)
    (hle : size ≤ PAGE_SIZE) (hsize : n.size = size) :
    mallocStep m size p = .ok (.done (.node p)) := by
  rw [mallocStep_of_le hp hle, (h.isUnused hp hlive hleft).skipAllocated,
    takeOrSplit, if_neg hp, if_pos (h.size.trans hsize)]

theorem NodeAt.mallocLoop_of_lt (h : NodeAt m p n) (hp : p ≠ 0)
    (hright : rightHalf p ≠ 0) (hlive : n.live = false)
    (hleft : n.left = 0 ∨ n.left = p) (hchild : n.childSize = 2048)
    (hle : size ≤ PAGE_SIZE) (hlt : size < n.size) (fuel : ℕ) :
    mallocLoop size (fuel + 1) m p =
      mallocLoop size fuel (splitNode m p) p := by
  have hunused := h.isUnused hp hlive hleft
  have hc := h.childSize.trans hchild
  refine OptimistOS.mallocLoop_of_lt fuel hp hle hunused.skipAllocated hunused
    (h.size.symm ▸ hlt) ?_ ?_
  · rw [hc]
    exact hright
  · rw [hc]
    exact disjoint_halves p

end

section

variable {m : Bytes} {b : Addr} {rest : List Segment} {lastLive : Bool}
  {size : Word}

theorem PoolAt.nodeAt_first {seg : Segment}
    (h : PoolAt m b (seg :: rest) lastLive) : NodeAt m b (seg.node b 0) := by
  have hnode := (h.segmentAt (j := 0) ⟨[], rest, rfl, rfl⟩).node
  rwa [page_zero] at hnode

theorem PoolAt.at_first {seg : Segment}
    (h : PoolAt m b (seg :: rest) lastLive) :
    PoolAt m b ([] ++ [seg] ++ rest) lastLive := h

theorem PoolAt.first_ne_zero {segs : List Segment}
    (h : PoolAt m b segs lastLive) : b ≠ 0 ∧ rightHalf b ≠ 0 := by
  refine ⟨h.base.ne_zero, ?_⟩
  have hright := h.rightHalf_ne_zero (j := 0) (Nat.zero_le _)
  rwa [page_zero] at hright

theorem PoolAt.loop_splitPage
    (h : PoolAt m b (.page false :: rest) lastLive) (hsize : size < PAGE_SIZE)
    (fuel : ℕ) :
    mallocLoop size (fuel + 1) m b = mallocLoop size fuel (splitNode m b) b ∧
      PoolAt (splitNode m b) b (.halves 2048 2048 false false :: rest)
        lastLive := by
  obtain ⟨hp, hright⟩ := h.first_ne_zero
  have hpool := (PoolAt.splitPage h.at_first).1
  rw [spans_nil, page_zero] at hpool
  exact ⟨h.nodeAt_first.mallocLoop_of_lt hp hright rfl (Or.inl rfl) rfl
    (BitVec.le_of_lt hsize) hsize fuel, hpool⟩

theorem PoolAt.loop_splitLeft {left right : Word} {liveRight : Bool}
    (h : PoolAt m b (.halves left right false liveRight :: rest) lastLive)
    (hsize : size < left) (fuel : ℕ) :
    mallocLoop size (fuel + 1) m b = mallocLoop size fuel (splitNode m b) b ∧
      PoolAt (splitNode m b) b
        (.halves (left / 2) (left / 2) false liveRight :: rest) lastLive := by
  obtain ⟨hp, hright⟩ := h.first_ne_zero
  have hpool := (PoolAt.splitLeft h.at_first).1
  rw [spans_nil, page_zero] at hpool
  have hleft := (h.segmentAt (j := 0) ⟨[], rest, rfl, rfl⟩).rest.1
  have hle : size ≤ PAGE_SIZE := BitVec.le_trans (BitVec.le_of_lt hsize)
    (BitVec.le_trans hleft (by decide))
  exact ⟨h.nodeAt_first.mallocLoop_of_lt hp hright rfl
    (Or.inr (page_zero b)) rfl hle hsize fuel, hpool⟩

theorem PoolAt.step_takeLeft {right : Word} {liveRight : Bool}
    (h : PoolAt m b (.halves size right false liveRight :: rest) lastLive) :
    mallocStep m size b = .ok (.done (.node b)) := by
  have hleft := (h.segmentAt (j := 0) ⟨[], rest, rfl, rfl⟩).rest.1
  exact h.nodeAt_first.mallocStep_of_eq h.base.ne_zero rfl
    (Or.inr (page_zero b)) (BitVec.le_trans hleft (by decide)) rfl

theorem PoolAt.step_takePage
    (h : PoolAt m b (.page false :: rest) lastLive) :
    mallocStep m PAGE_SIZE b = .ok (.done (.node b)) :=
  h.nodeAt_first.mallocStep_of_eq h.base.ne_zero rfl (Or.inl rfl)
    (BitVec.le_refl _) rfl

theorem PoolAt.step_takeRight {left : Word}
    (h : PoolAt m b (.halves left size true false :: rest) lastLive) :
    mallocStep m size b = .ok (.done (.node (rightHalf b))) := by
  obtain ⟨hp, hright⟩ := h.first_ne_zero
  have hnode := h.nodeAt_first
  have hleft : head.get m b .left = b := hnode.left.trans (page_zero b)
  have hhalf : head.get m b .right = rightHalf b :=
    hnode.right.trans (congrArg rightHalf (page_zero b))
  obtain ⟨-, hle, l, r, -, -, hrest⟩ :=
    (h.segmentAt (j := 0) ⟨[], rest, rfl, rfl⟩).rest
  rw [page_zero] at hrest
  have hskip : skipAllocated m b = rightHalf b := by
    have hunused : head.get m (rightHalf b) .status = Flag.unused :=
      hrest.status
    rw [skipAllocated, hleft, hhalf, if_pos ⟨hp, hnode.status⟩, if_pos hright,
      if_pos hunused]
  rw [mallocStep_of_le hp (BitVec.le_trans hle (by decide)), hskip, takeOrSplit,
    if_neg hright, if_pos hrest.size]

theorem PoolAt.wholePages {pre post : List Segment} {n : ℕ} {w : Word}
    (h : PoolAt m b (pre ++ List.replicate n (.page false) ++ post) lastLive)
    (hw : w.toNat = n) : WholePages m (page b (spans pre)) w := by
  intro i hi
  rw [hw] at hi
  have hf : Focus (pre ++ List.replicate n (.page false) ++ post)
      (spans pre + i) (.page false) := by
    obtain ⟨k, rfl⟩ := Nat.exists_eq_add_of_lt hi
    refine ⟨pre ++ List.replicate i (.page false),
      List.replicate k (.page false) ++ post, ?_, ?_⟩
    · rw [Nat.add_assoc, List.replicate_add, List.replicate_succ]
      simp
    · rw [spans_append, spans_replicate_page]
  have hsize := (h.segmentAt hf).node.size
  rw [← page_page] at hsize
  exact hsize

/-- An iteration puts the first two pages together, whatever lies in the right
half of the first one. -/
theorem PoolAt.step_takePages {seg : Segment}
    (h : PoolAt m b (seg :: .page false :: rest) lastLive)
    (hspan : seg.span = 1) (hlive : (seg.node b 0).live = false) :
    mallocStep m 8192 b = .ok (.done (.blocks b 2)) := by
  have hfirst := h.nodeAt_first
  have hsecond := (h.segmentAt (j := seg.span) ⟨[seg], rest, rfl, rfl⟩).node
  rw [hspan] at hsecond
  have hunused : head.get m b .status ≠ Flag.allocated :=
    hfirst.status_ne_allocated.2 hlive
  have hunused' : head.get m (page b 1) .status ≠ Flag.allocated :=
    hsecond.status_ne_allocated.2 rfl
  have hnext : head.get m b .next = page b 1 := by
    rw [hfirst.next, segment_node_next, hspan]
  have hne := h.page_ne_zero (j := 1) (by decide)
  have hmulti : multiPage m 8192 b = .ok (some (.blocks b 2)) := by
    rw [multiPage, hnext, if_pos ⟨by decide, hfirst.level, hunused, hne⟩]
    have hcan : canCoalesce m 1 (page b 1) = .ok true := by
      rw [canCoalesce, if_neg hne, if_neg hunused', canCoalesce]
    rw [if_neg (by decide), show ((8192 : Word) / PAGE_SIZE - 1).toNat = 1 by
      decide, hcan]
    rfl
  rw [mallocStep, if_neg h.base.ne_zero, hmulti]
  rfl

theorem PoolAt.canCoalesce {pre post : List Segment} {n : ℕ}
    (h : PoolAt m b (pre ++ List.replicate n (.page false) ++ post) lastLive) :
    canCoalesce m n (page b (spans pre)) = .ok true := by
  induction n generalizing pre with
  | zero => rfl
  | succ n ih =>
      have hf : Focus (pre ++ List.replicate (n + 1) (.page false) ++ post)
          (spans pre) (.page false) :=
        ⟨pre, List.replicate n (.page false) ++ post,
          by simp [List.replicate_succ], rfl⟩
      have hnode := (h.segmentAt hf).node
      have hle := h.focus_le hf
      have hne := h.page_ne_zero (j := spans pre) (by omega)
      have hunused : head.get m (page b (spans pre)) .status ≠
          Flag.allocated := hnode.status_ne_allocated.2 rfl
      rw [List.replicate_succ, ← List.singleton_append, ← List.append_assoc pre]
        at h
      have hrest := ih h
      rw [spans_append, spans_cons, spans_nil] at hrest
      rw [OptimistOS.canCoalesce, if_neg hne, if_neg hunused, hnode.next,
        segment_node_next]
      exact hrest

/-- An iteration puts pages together that were never split. -/
theorem PoolAt.step_takesRun {pre post : List Segment} {t : ℕ}
    (h : PoolAt m b (pre ++ List.replicate (t + 1) (.page false) ++ post)
      lastLive) (ht : t ≤ 3) (hlarge : PAGE_SIZE < size)
    (hsize : size / PAGE_SIZE = BitVec.ofNat 64 (t + 1)) :
    mallocStep m size (page b (spans pre)) =
      .ok (.done (.blocks (page b (spans pre)) (BitVec.ofNat 64 (t + 1)))) := by
  have hf : Focus (pre ++ List.replicate (t + 1) (.page false) ++ post)
      (spans pre) (.page false) :=
    ⟨pre, List.replicate t (.page false) ++ post,
      by simp [List.replicate_succ], rfl⟩
  have hnode := (h.segmentAt hf).node
  have hle : spans pre + 1 ≤ 3071 := h.focus_le hf
  have hne := h.page_ne_zero (j := spans pre) (by omega)
  have hnext : head.get m (page b (spans pre)) .next =
      page b (spans pre + 1) := hnode.next
  have hunused : head.get m (page b (spans pre)) .status ≠ Flag.allocated :=
    hnode.status_ne_allocated.2 rfl
  rw [List.replicate_succ, ← List.singleton_append, ← List.append_assoc pre]
    at h
  have hcan : OptimistOS.canCoalesce m t (page b (spans pre + 1)) = .ok true := by
    have hscan := h.canCoalesce
    rwa [spans_append, spans_cons, spans_nil] at hscan
  have hmulti : multiPage m size (page b (spans pre)) = .ok (some
      (.blocks (page b (spans pre)) (BitVec.ofNat 64 (t + 1)))) := by
    have hmany : ¬ MAXIMUM_COALESCE_BLOCKS < size / PAGE_SIZE := by
      rw [hsize, BitVec.lt_def, BitVec.toNat_ofNat, Nat.mod_eq_of_lt (by omega)]
      exact Nat.not_lt.2 (Nat.succ_le_succ ht)
    rw [multiPage, hnext, if_pos ⟨hlarge, hnode.level, hunused,
      h.page_ne_zero hle⟩, if_neg hmany, hsize, toNat_pages_pred ht, hcan]
    rfl
  rw [mallocStep, if_neg hne, hmulti]
  rfl

theorem PoolAt.skipAllocated_run {pre post : List Segment} {t : ℕ}
    (h : PoolAt m b (pre ++ .run t :: .page false :: post) lastLive) :
    skipAllocated m (page b (spans pre)) = page b (spans pre + (t + 1)) ∧
      head.get m (page b (spans pre + (t + 1))) .size = PAGE_SIZE := by
  have hf : Focus (pre ++ .run t :: .page false :: post) (spans pre) (.run t) :=
    ⟨pre, .page false :: post, rfl, rfl⟩
  have hf' : Focus (pre ++ .run t :: .page false :: post) (spans pre + (t + 1))
      (.page false) :=
    ⟨pre ++ [.run t], post, by simp, by simp [Segment.span]⟩
  have hle : spans pre + (t + 1) + 1 ≤ 3071 := h.focus_le hf'
  have hne := h.page_ne_zero (j := spans pre + (t + 1)) (by omega)
  exact ⟨((h.segmentAt hf).node.skipAllocated_of_live rfl rfl).trans
    (if_pos hne), (h.segmentAt hf').node.size⟩

/-- An iteration for several pages passes an allocated block and the page
behind it. -/
theorem PoolAt.step_passesRun {pre post : List Segment} {t : ℕ}
    (h : PoolAt m b (pre ++ .run t :: .page false :: post) lastLive)
    (hlarge : PAGE_SIZE < size) :
    mallocStep m size (page b (spans pre)) =
        .ok (.next m (page b (spans pre + (t + 2)))) ∧
      ¬ Splits m size (page b (spans pre)) := by
  have hf : Focus (pre ++ .run t :: .page false :: post) (spans pre) (.run t) :=
    ⟨pre, .page false :: post, rfl, rfl⟩
  have hf' : Focus (pre ++ .run t :: .page false :: post) (spans pre + (t + 1))
      (.page false) :=
    ⟨pre ++ [.run t], post, by simp, by simp [Segment.span]⟩
  have hle : spans pre + (t + 1) + 1 ≤ 3071 := h.focus_le hf'
  obtain ⟨hskip, hsize⟩ := h.skipAllocated_run
  constructor
  · have hmulti : multiPage m size (page b (spans pre)) = .ok none := by
      rw [multiPage, if_neg fun hlooks =>
        hlooks.2.2.1 (h.segmentAt hf).node.status]
    have hnext : head.get m (page b (spans pre + (t + 1))) .next =
        page b (spans pre + (t + 2)) := (h.segmentAt hf').node.next
    rw [mallocStep, if_neg (h.page_ne_zero (by omega)), hmulti]
    change takeOrSplit m size (skipAllocated m _) = _
    rw [hskip, takeOrSplit, if_neg (h.page_ne_zero (by omega)), hsize,
      if_neg (BitVec.ne_of_lt hlarge), if_pos (Or.inr hlarge), hnext,
      if_pos (h.page_ne_zero (by omega))]
  · rintro ⟨-, -, -, -, -, hle⟩
    rw [hskip, hsize] at hle
    exact absurd hlarge (BitVec.not_lt.2 hle)

end

section

variable {α : Type} {A : FrameAllocator α} {s : Machine 64 (HeapGlobals α)}
  {live : Set Addr} {rest : List Segment} {lastLive : Bool} {size : Word}

theorem mem_poolNodes_left (left right : Word) (liveRight : Bool)
    (rest : List Segment) (lastLive : Bool) :
    (0, left) ∈ poolNodes (.halves left right true liveRight :: rest)
      lastLive := by
  simp [poolNodes, liveNodes, Segment.liveNodes]

theorem mem_poolNodes_right (left right : Word) (liveLeft : Bool)
    (rest : List Segment) (lastLive : Bool) :
    (1, right) ∈ poolNodes (.halves left right liveLeft true :: rest)
      lastLive := by
  simp [poolNodes, liveNodes, Segment.liveNodes]

theorem PoolState.handsOut {segs segs₁ segs' : List Segment} {m : Bytes}
    {q : Addr} {k fuel : ℕ} {w : Word} (h : PoolState s live segs lastLive)
    (hq : q = slot s.globals.freeList k)
    (hloop : mallocLoop (blockSize size) fuel s.mem s.globals.freeList =
      .ok (.node q, m))
    (hslots : poolSlots segs₁ lastLive = poolSlots segs lastLive)
    (hpool : PoolAt (head.set m q .status Flag.allocated) s.globals.freeList
      segs' lastLive)
    (hnodes : ∀ x, x ∈ poolNodes segs' lastLive ↔
      x ∈ poolNodes segs₁ lastLive ∨ x = (k, w)) :
    ∃ s', (OptimistOS.mallocx A fuel size).run s = .ok (q + sizeofHead) s' ∧
      s'.globals = s.globals ∧
      PoolState s' (liveAfter live (q + sizeofHead)) segs' lastLive :=
  ⟨_, run_mallocx_node h.mutex h.pool.base.ne_zero hloop, rfl, h.mutex, hpool,
    Served.mem_liveAfter (.block (congrArg (· + sizeofHead) hq) hnodes)
      hpool.base (fun _ hx => (hpool.liveAt hx).slot_le)
      fun p => (h.live p).trans (by rw [← hslots]; rfl)⟩

theorem PoolState.takesLeft (h : PoolState s live (.page false :: rest) lastLive)
    (hsize : blockSize size = 2048) :
    ∃ s', (OptimistOS.mallocx A 2 size).run s =
        .ok (s.globals.freeList + sizeofHead) s' ∧
      s'.globals = s.globals ∧
      PoolState s' (liveAfter live (s.globals.freeList + sizeofHead))
        (.halves 2048 2048 true false :: rest) lastLive := by
  obtain ⟨hloop, hpool⟩ := h.pool.loop_splitPage
    (show blockSize size < PAGE_SIZE by rw [hsize]; decide) 1
  obtain ⟨hgrant, hnodes⟩ := PoolAt.grantLeft hpool.at_first
  rw [spans_nil, page_zero] at hgrant
  rw [hsize, mallocLoop_of_done hpool.step_takeLeft, ← hsize] at hloop
  exact h.handsOut (slot_zero _).symm hloop rfl hgrant hnodes

theorem PoolState.takesQuarter {liveRight : Bool}
    (h : PoolState s live (.halves 2048 2048 false liveRight :: rest) lastLive)
    (hsize : blockSize size = 1024) :
    ∃ s', (OptimistOS.mallocx A 2 size).run s =
        .ok (s.globals.freeList + sizeofHead) s' ∧
      s'.globals = s.globals ∧
      PoolState s' (liveAfter live (s.globals.freeList + sizeofHead))
        (.halves 1024 1024 true liveRight :: rest) lastLive := by
  obtain ⟨hloop, hpool⟩ := h.pool.loop_splitLeft
    (show blockSize size < 2048 by rw [hsize]; decide) 1
  rw [show (2048 : Word) / 2 = 1024 by decide] at hpool
  obtain ⟨hgrant, hnodes⟩ := PoolAt.grantLeft hpool.at_first
  rw [spans_nil, page_zero] at hgrant
  rw [hsize, mallocLoop_of_done hpool.step_takeLeft, ← hsize] at hloop
  refine h.handsOut (slot_zero _).symm hloop ?_ hgrant hnodes
  cases liveRight <;> rfl

theorem PoolState.takesRight
    (h : PoolState s live (.halves 2048 2048 true false :: rest) lastLive)
    (hsize : blockSize size = 2048) :
    ∃ s', (OptimistOS.mallocx A 1 size).run s =
        .ok (rightHalf s.globals.freeList + sizeofHead) s' ∧
      s'.globals = s.globals ∧
      PoolState s' (liveAfter live (rightHalf s.globals.freeList + sizeofHead))
        (.halves 2048 2048 true true :: rest) lastLive := by
  have hloop := mallocLoop_of_done h.pool.step_takeRight 0
  obtain ⟨hgrant, hnodes⟩ := PoolAt.grantRight h.pool.at_first
  rw [spans_nil, page_zero] at hgrant
  rw [← hsize] at hloop
  exact h.handsOut (slot_one _).symm hloop rfl hgrant hnodes

theorem PoolState.mergesPages {pre post : List Segment} {t fuel : ℕ} (ht : t ≤ 3)
    (h : PoolState s live
      (pre ++ List.replicate (t + 1) (.page false) ++ post) lastLive)
    (hloop : mallocLoop (blockSize size) fuel s.mem s.globals.freeList =
      .ok (.blocks (page s.globals.freeList (spans pre))
        (BitVec.ofNat 64 (t + 1)), s.mem)) :
    ∃ s', (OptimistOS.mallocx A fuel size).run s =
        .ok (page s.globals.freeList (spans pre) + sizeofHead) s' ∧
      s'.globals = s.globals ∧
      PoolState s' (liveAfter live
          (page s.globals.freeList (spans pre) + sizeofHead))
        (pre ++ [.run t] ++ post) lastLive := by
  obtain ⟨last, hlast, hne, hmerged⟩ := h.pool.merge ht
  have hcoalesce := run_coalesceBlocks (n := BitVec.ofNat 64 (t + 1))
    (s := ⟨s.mem, { s.globals with mutex := 0 }⟩) rfl
      ((toNat_pages_pred ht).symm ▸ hlast) hne
  refine ⟨⟨mergeBlocks s.mem (page s.globals.freeList (spans pre))
    (head.get s.mem last .next) (BitVec.ofNat 64 (t + 1)), s.globals⟩, ?_, rfl,
    h.mutex, hmerged, ?_⟩
  · rw [run_mallocx h.mutex (run_ensurePool_of_ne h.pool.base.ne_zero), hloop]
    refine hcoalesce.trans ?_
    rw [← h.mutex]
  · exact Served.mem_liveAfter (.block (congrArg (· + sizeofHead)
      (page_eq_slot _ (spans pre))) mem_poolNodes_merged) hmerged.base
      (fun _ hx => (hmerged.liveAt hx).slot_le) fun p => h.live p

theorem PoolState.takesPages
    (h : PoolState s live (.page false :: .page false :: rest) lastLive)
    (hsize : blockSize size = 8192) :
    ∃ s', (OptimistOS.mallocx A 1 size).run s =
        .ok (s.globals.freeList + sizeofHead) s' ∧
      s'.globals = s.globals ∧
      PoolState s' (liveAfter live (s.globals.freeList + sizeofHead))
        (.run 1 :: rest) lastLive := by
  have hloop := mallocLoop_of_done (h.pool.step_takePages rfl rfl) 0
  have hpages : PoolState s live
      ([] ++ List.replicate 2 (.page false) ++ rest) lastLive := h
  have htakes := hpages.mergesPages (A := A)
    (by decide) (by
      rw [hsize, spans_nil, page_zero]
      exact hloop)
  rwa [spans_nil, page_zero] at htakes

theorem PoolState.freesLeft {left right : Word} {liveRight : Bool}
    (h : PoolState s live (.halves left right true liveRight :: rest)
      lastLive) :
    ∃ s', (OptimistOS.freex (s.globals.freeList + sizeofHead)).run s =
        .ok () s' ∧
      s'.globals = s.globals ∧
      PoolState s' (live \ {s.globals.freeList + sizeofHead})
        (.halves left right false liveRight :: rest) lastLive := by
  have hk := mem_poolNodes_left left right liveRight rest lastLive
  have hle := (h.pool.segmentAt (j := 0) ⟨[], rest, rfl, rfl⟩).rest.1
  obtain ⟨hpool, hnodes⟩ := PoolAt.releaseLeft h.pool.at_first
    (h.pool.liveAt hk) (BitVec.le_trans hle (by decide)) (by simp)
  rw [page_eq_slot] at hpool
  obtain ⟨hrun, hstate⟩ := h.givesBack hk hpool hnodes
  rw [slot_zero] at hrun hstate
  exact ⟨_, hrun, rfl, hstate⟩

end

section

variable {τ : Type} {T : SizeTable τ} {fuel : ℕ} {R : UsableRegion} {mem : Bytes}
  {table : τ} {used : ℕ} {s : HeapState τ}

/-- A request for more than four pages is refused, and the pool is set up. -/
theorem HeapBooted.setsUp (h : HeapBooted R mem table used s)
    (hroom : used + poolBytes.toNat ≤ R.length.toNat) {size : Word}
    (hsize : PAGE_SIZE < blockSize size)
    (hblocks : MAXIMUM_COALESCE_BLOCKS < blockSize size / PAGE_SIZE) :
    (∀ P, CallMeets T fuel P s (.malloc size)) ∧
      ∃ s', HeapStep T fuel s (.malloc size) s' ∧ s'.live = ∅ ∧
        s'.machine.globals.freeList = R.addr used ∧
        PoolState s'.machine ∅ (List.replicate 3071 (.page false)) false := by
  obtain ⟨s₁, hinit, hlist, -, hpool, -⟩ := run_initNodes T fuel
    (s := ⟨s.machine.mem, { s.machine.globals with mutex := 1 }⟩) h.frames
    h.aligned hroom
  have hstart : SearchStart T fuel s.machine s₁ := by
    rw [SearchStart, run_ensurePool_of_eq (by exact h.heap.freeList), hinit]
  have hpage : FreshPage s₁.mem s₁.globals.freeList :=
    hlist ▸ page_zero (R.addr used) ▸ hpool.page 0 (by decide)
  have hne : s₁.globals.freeList ≠ 0 := hlist ▸ hpool.ne_zero
  have hnext : s₁.globals.freeList + PAGE_SIZE ≠ 0 :=
    hlist ▸ hpool.pointers.second_ne
  have hdone : mallocStep s₁.mem (blockSize size) s₁.globals.freeList =
      .ok (.done .refused) := by
    rw [mallocStep, if_neg hne, hpage.multiPage_refused hnext hsize hblocks]
    rfl
  refine ⟨fun P s₂ hs₂ => ?_, ⟨⟨s₁.mem, { s₁.globals with mutex := 0 }⟩, ∅⟩,
    ⟨1, 0, ?_, ?_⟩, rfl, hlist, rfl, ?_, fun p => ?_⟩
  · obtain ⟨-, rfl⟩ := EStateM.Result.ok.inj (hstart.symm.trans hs₂)
    exact ⟨splitsOnly_of_done hdone, mergesOnly_of_done hdone (by simp)⟩
  · rw [run_mallocx h.heap.mutex hstart, mallocLoop_of_done hdone,
      run_serveRequest_refused]
  · rw [liveAfter, if_pos rfl, h.live]
  · exact hlist ▸ hpool.poolAt
  · rw [poolSlots, poolNodes, liveNodes_replicate]
    simp

end

/-- The kernel with 16 MB before anything was asked of its heap. -/
def bootedHeap : HeapState HashTable :=
  ⟨⟨freshKernel.mem, freshKernel.globals.memory⟩, ∅⟩

theorem heapBooted_bootedHeap :
    HeapBooted largeRegion (fun _ => 0) HashTable.zero 0 bootedHeap :=
  ⟨⟨rfl, rfl⟩, Or.inl ⟨rfl, rfl⟩, rfl, rfl⟩

def bootedBlock : Addr := 0xffff800000100040

theorem exists_setUp :
    (∀ P, CallMeets addressSizeTable 0 P bootedHeap (.malloc 20000)) ∧
      ∃ s, HeapStep addressSizeTable 0 bootedHeap (.malloc 20000) s ∧
        s.live = ∅ ∧ s.machine.globals.freeList + sizeofHead = bootedBlock ∧
        PoolState s.machine s.live
          (.page false :: .page false :: List.replicate 3069 (.page false))
          false := by
  obtain ⟨hmeets, s, hstep, hlive, hlist, hpool⟩ :=
    @HeapBooted.setsUp _ addressSizeTable 0 _ _ _ _ _ heapBooted_bootedHeap
      (by decide) 20000 (by decide) (by decide)
  have hfirst : s.machine.globals.freeList + sizeofHead = bootedBlock := by
    rw [hlist]
    decide
  rw [← hlive] at hpool
  exact ⟨hmeets, s, hstep, hlive, hfirst, hpool⟩

/-- A request for half a page that splits a page, and one that takes the other
half. -/
theorem exists_halfRequests {P : Set Addr → Bytes → Addr → Prop}
    (hP : ∀ m q, P ∅ m q) :
    ∃ s s', Run (Guarded (CallMeets addressSizeTable 0 P)
        (HeapStep addressSizeTable 0)) bootedHeap
        [.malloc 20000, .malloc 1000] s ∧
      Guarded (CallMeets addressSizeTable 0 P) (HeapStep addressSizeTable 0) s
        (.malloc 1000) s' := by
  obtain ⟨hmeets, s₁, hstep₁, hlive, -, hpool₁⟩ := exists_setUp
  obtain ⟨t₂, hrun₂, hglobals₂, hpool₂⟩ := hpool₁.takesLeft
    (A := heapAllocator addressSizeTable 0)
    (show blockSize 1000 = 2048 by decide)
  obtain ⟨t₃, hrun₃, -, -⟩ := hpool₂.takesRight
    (A := heapAllocator addressSizeTable 0)
    (show blockSize 1000 = 2048 by decide)
  have hmerges := mergesOnly_of_le (P := WholePages)
    (show blockSize 1000 ≤ PAGE_SIZE by decide)
  refine ⟨⟨t₂, _⟩, ⟨t₃, _⟩, .snoc (.single ⟨hmeets P, hstep₁⟩)
    ⟨fun u hu => ⟨fun _ _ _ _ => hlive ▸ hP _ _, hmerges _ _⟩,
      heapStep_malloc _ hrun₂⟩, fun u hu => ⟨?_, hmerges _ _⟩,
    heapStep_malloc _ hrun₃⟩
  obtain rfl := hu.eq hpool₂.pool.base.ne_zero
  exact splitsOnly_of_done hpool₂.pool.step_takeRight

theorem exists_rightHalfLive :
    ∃ s, Run (HeapStep addressSizeTable 0) bootedHeap
        [.malloc 20000, .malloc 1000, .malloc 1000, .free bootedBlock] s ∧
      PoolState s.machine s.live (.halves 2048 2048 false true :: .page false ::
        List.replicate 3069 (.page false)) false := by
  obtain ⟨-, s₁, hstep₁, -, hfirst, hpool₁⟩ := exists_setUp
  obtain ⟨t₂, hrun₂, hglobals₂, hpool₂⟩ := hpool₁.takesLeft
    (A := heapAllocator addressSizeTable 0)
    (show blockSize 1000 = 2048 by decide)
  obtain ⟨t₃, hrun₃, hglobals₃, hpool₃⟩ := hpool₂.takesRight
    (A := heapAllocator addressSizeTable 0)
    (show blockSize 1000 = 2048 by decide)
  obtain ⟨t₄, hrun₄, -, hpool₄⟩ := hpool₃.freesLeft
  have hfirst₃ : t₃.globals.freeList + sizeofHead = bootedBlock := by
    rw [hglobals₃, hglobals₂, hfirst]
  rw [hfirst₃] at hrun₄ hpool₄
  exact ⟨⟨t₄, _⟩, .snoc (.snoc (.snoc (.single hstep₁)
    (heapStep_malloc _ hrun₂)) (heapStep_malloc _ hrun₃))
      (heapStep_free _ hrun₄), hpool₄⟩

theorem exists_pagesRequest :
    ∃ s s', HeapStep addressSizeTable 0 bootedHeap (.malloc 20000) s ∧
      HeapStep addressSizeTable 0 s (.malloc 8000) s' ∧
      (∀ P, CallMeets addressSizeTable 0 P bootedHeap (.malloc 20000) ∧
        CallMeets addressSizeTable 0 P s (.malloc 8000)) ∧
      s'.machine.globals.freeList + sizeofHead = bootedBlock ∧
      s'.live = {bootedBlock} ∧
      PoolState s'.machine s'.live
        (.run 1 :: List.replicate 3069 (.page false)) false := by
  obtain ⟨hmeets, s, hstep, hlive, hfirst, hpool⟩ := exists_setUp
  obtain ⟨t, hrun, hglobals, hpool'⟩ := hpool.takesPages
    (A := heapAllocator addressSizeTable 0)
    (show blockSize 8000 = 8192 by decide)
  have hne := slot_add_header_ne_zero hpool.pool.base (Nat.zero_le 6142)
  rw [slot_zero, hfirst] at hne
  rw [hfirst] at hrun hpool'
  refine ⟨s, ⟨t, _⟩, hstep, heapStep_malloc _ hrun, fun P =>
    ⟨hmeets P, fun u hu => ?_⟩, hglobals.symm ▸ hfirst, ?_, hpool'⟩
  · obtain rfl := hu.eq hpool.pool.base.ne_zero
    have hdone := hpool.pool.step_takePages rfl rfl
    rw [show (8192 : Word) = blockSize 8000 by decide] at hdone
    refine ⟨splitsOnly_of_done hdone, mergesOnly_of_done hdone fun n hn => ?_⟩
    obtain ⟨-, rfl⟩ := MallocResult.blocks.inj hn
    have hpages : PoolAt s.machine.mem s.machine.globals.freeList
        ([] ++ List.replicate 2 (.page false) ++ List.replicate 3069 (.page false))
        false := hpool.pool
    have hwhole := hpages.wholePages (w := 2) rfl
    rwa [spans_nil, page_zero] at hwhole
  · rw [liveAfter, if_neg hne, hlive, Set.empty_union]

end OptimistOS
