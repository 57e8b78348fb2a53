import OptimistOS.Heap.Segments

/-!
# The search of `mallocx` over the segments

The loop of `mallocx` walks from segment to segment. It stands at a page node,
at a right half that is not allocated, or at the node of the last page
(`Current`), and the only change it makes to the pool is to halve a node
(`Halve`).
-/

namespace OptimistOS

open ByteMemory

/-- The slots of the nodes that the loop can stand at. -/
inductive Current (segs : List Segment) : ℕ → Prop
  | page {j : ℕ} {seg : Segment} (h : Focus segs j seg) : Current segs (2 * j)
  | right {j : ℕ} {left right : Word} {liveLeft : Bool}
      (h : Focus segs j (.halves left right liveLeft false)) :
      Current segs (2 * j + 1)
  | last : Current segs 6142

def Segment.shown (j : ℕ) : Segment → List ℕ
  | page _ => [2 * j]
  | halves _ _ _ _ => [2 * j, 2 * j + 1]
  | run _ => [2 * j]

/-- The slots of the headers that are read, from the `j`-th page on. -/
def shown : ℕ → List Segment → List ℕ
  | _, [] => []
  | j, seg :: segs => seg.shown j ++ shown (j + seg.span) segs

@[simp] theorem shown_append (j : ℕ) (xs ys : List Segment) :
    shown j (xs ++ ys) = shown j xs ++ shown (j + spans xs) ys := by
  induction xs generalizing j with
  | nil => simp [shown]
  | cons x xs ih =>
      rw [List.cons_append, shown, shown, ih, spans_cons, List.append_assoc,
        Nat.add_assoc]

@[simp] theorem shown_singleton (j : ℕ) (seg : Segment) :
    shown j [seg] = seg.shown j := by
  simp [shown]

theorem Segment.shown_range {j k : ℕ} {seg : Segment} (h : k ∈ seg.shown j) :
    2 * j ≤ k ∧ k < 2 * (j + seg.span) := by
  cases seg <;> simp [shown] at h <;> simp [span] <;> omega

theorem shown_range {j k : ℕ} {segs : List Segment} (h : k ∈ shown j segs) :
    2 * j ≤ k ∧ k < 2 * (j + spans segs) := by
  induction segs generalizing j with
  | nil => exact absurd h (by simp [shown])
  | cons seg segs ih =>
      rw [shown, List.mem_append] at h
      rw [spans_cons]
      rcases h with h | h
      · have hseg := Segment.shown_range h
        omega
      · have hrest := ih h
        omega

def poolShown (segs : List Segment) : List ℕ := shown 0 segs ++ [6142]

theorem mem_poolShown_mid {pre mid post : List Segment} {k : ℕ} :
    k ∈ poolShown (pre ++ mid ++ post) ↔
      k ∈ shown (spans pre) mid ∨ k ∈ shown 0 pre ∨
        k ∈ shown (spans pre + spans mid) post ∨ k = 6142 := by
  rw [poolShown, shown_append, shown_append, spans_append, Nat.zero_add,
    Nat.zero_add, List.mem_append, List.mem_append, List.mem_append,
    List.mem_singleton]
  tauto

theorem poolShown_subset {pre mid mid' post : List Segment}
    (hspans : spans mid' = spans mid)
    (h : ∀ k ∈ shown (spans pre) mid', k ∈ shown (spans pre) mid) {k : ℕ}
    (hk : k ∈ poolShown (pre ++ mid' ++ post)) :
    k ∈ poolShown (pre ++ mid ++ post) := by
  rw [mem_poolShown_mid] at hk ⊢
  rw [hspans] at hk
  exact hk.imp_left (h k)

section

variable {m : Bytes} {b : Addr} {segs : List Segment} {lastLive : Bool}

theorem PoolAt.page_ne_zero (h : PoolAt m b segs lastLive) {j : ℕ}
    (hj : j ≤ 3071) : page b j ≠ 0 := by
  rw [page_eq_slot]
  exact slot_ne_zero h.base (by omega)

theorem PoolAt.rightHalf_ne_zero (h : PoolAt m b segs lastLive) {j : ℕ}
    (hj : j ≤ 3071) : rightHalf (page b j) ≠ 0 := by
  rw [rightHalf_eq_slot]
  exact slot_ne_zero h.base (by omega)

theorem PoolAt.current_le (h : PoolAt m b segs lastLive) {i : ℕ}
    (hi : Current segs i) : i ≤ 6142 := by
  cases hi with
  | page hf =>
      have hle := h.focus_le hf
      omega
  | right hf =>
      have hle := h.focus_le hf
      rw [Segment.span] at hle
      omega
  | last => exact le_rfl

theorem PoolAt.current_next (h : PoolAt m b segs lastLive) {j : ℕ}
    {seg : Segment} (hf : Focus segs j seg) :
    Current segs (2 * (j + seg.span)) := by
  rcases h.focus_next hf with hlast | ⟨seg', hf'⟩
  · rw [hlast]
    exact .last
  · exact .page hf'

theorem PoolAt.current_first (h : PoolAt m b segs lastLive) :
    Current segs 0 := by
  have hspans := h.spans_eq
  cases segs with
  | nil => exact absurd hspans (by simp)
  | cons seg segs =>
      have hf : Focus (seg :: segs) 0 seg := ⟨[], segs, rfl, rfl⟩
      exact .page hf

theorem segment_node_next (b : Addr) (j : ℕ) (seg : Segment) :
    (seg.node b j).next = page b (j + seg.span) := by
  cases seg <;> rfl

/-- The header of the node that the loop stands at, and the node that follows
it. -/
theorem PoolAt.nodeAt_current (h : PoolAt m b segs lastLive) {i : ℕ}
    (hi : Current segs i) :
    ∃ n, NodeAt m (slot b i) n ∧
      ((n.next = 0 ∧ i = 6142) ∨
        ∃ k, Current segs k ∧ n.next = slot b k ∧ n.next ≠ 0) := by
  cases hi with
  | @page j seg hf =>
      refine ⟨_, page_eq_slot b j ▸ (h.segmentAt hf).node, Or.inr
        ⟨_, h.current_next hf, ?_, ?_⟩⟩
      · rw [segment_node_next, page_eq_slot]
      · rw [segment_node_next]
        exact h.page_ne_zero (h.focus_le hf)
  | @right j left right liveLeft hf =>
      obtain ⟨-, -, l, r, -, -, hnode⟩ := (h.segmentAt hf).rest
      have hle : j + 1 ≤ 3071 := h.focus_le hf
      have hnext : Current segs (2 * (j + 1)) := h.current_next hf
      rw [rightHalf_eq_slot] at hnode
      exact ⟨_, hnode, Or.inr ⟨_, hnext, page_eq_slot b (j + 1),
        h.page_ne_zero hle⟩⟩
  | last =>
      have hlast := h.last
      rw [page_eq_slot] at hlast
      exact ⟨_, hlast, Or.inl ⟨rfl, rfl⟩⟩

theorem NodeAt.isUnused {p : Addr} {n : HeapNode} (h : NodeAt m p n)
    (hp : p ≠ 0) (hlive : n.live = false) (hleft : n.left = 0 ∨ n.left = p) :
    IsUnused m p := by
  refine ⟨hp, ?_, h.left ▸ hleft⟩
  rw [h.status, hlive]
  rfl

theorem NodeAt.skipAllocated_of_live {p : Addr} {n : HeapNode}
    (h : NodeAt m p n) (hlive : n.live = true) (hleft : n.left = 0) :
    skipAllocated m p = if n.next ≠ 0 then n.next else p := by
  have hstatus : head.get m p .status = Flag.allocated := by
    rw [h.status, hlive]
    rfl
  rw [skipAllocated, if_neg fun hc => hc.1 (h.left.trans hleft),
    if_pos hstatus, h.next]

theorem PoolAt.skipAllocated_last (h : PoolAt m b segs lastLive) :
    skipAllocated m (slot b 6142) = slot b 6142 := by
  have hp := h.page_ne_zero (j := 3071) le_rfl
  have hlast := h.last
  rw [page_eq_slot] at hlast hp
  cases lastLive with
  | false => exact (hlast.isUnused hp rfl (Or.inl rfl)).skipAllocated
  | true =>
      rw [hlast.skipAllocated_of_live rfl rfl]
      exact if_neg (not_not.2 rfl)

/-- An iteration looks at a node that the loop can stand at. -/
theorem PoolAt.exists_skip (h : PoolAt m b segs lastLive) {i : ℕ}
    (hi : Current segs i) :
    ∃ k, Current segs k ∧ skipAllocated m (slot b i) = slot b k := by
  cases hi with
  | @page j seg hf =>
      have hnode := (h.segmentAt hf).node
      have hle := h.focus_le hf
      have hp := h.page_ne_zero (j := j) (by omega)
      have hnext := h.page_ne_zero hle
      have hstay : (seg.node b j).live = false →
          ((seg.node b j).left = 0 ∨ (seg.node b j).left = page b j) →
          ∃ k, Current segs k ∧
            skipAllocated m (slot b (2 * j)) = slot b k := by
        intro hlive hleft
        have hskip := (hnode.isUnused hp hlive hleft).skipAllocated
        rw [page_eq_slot] at hskip
        exact ⟨_, .page hf, hskip⟩
      have hleave : (seg.node b j).live = true → (seg.node b j).left = 0 →
          ∃ k, Current segs k ∧
            skipAllocated m (slot b (2 * j)) = slot b k := by
        intro hlive hleft
        have hskip := hnode.skipAllocated_of_live hlive hleft
        rw [segment_node_next, if_pos hnext, page_eq_slot, page_eq_slot] at hskip
        exact ⟨_, h.current_next hf, hskip⟩
      cases seg with
      | page live =>
          cases live with
          | false => exact hstay rfl (Or.inl rfl)
          | true => exact hleave rfl rfl
      | run n => exact hleave rfl rfl
      | halves left right liveLeft liveRight =>
          cases liveLeft with
          | false => exact hstay rfl (Or.inr rfl)
          | true =>
              -- the left half is allocated: on to the right one, if it is free
              obtain ⟨-, -, l, r, -, -, hright⟩ := (h.segmentAt hf).rest
              have hstatus : head.get m (page b j) .status = Flag.allocated :=
                hnode.status
              have hskip : skipAllocated m (page b j) =
                  if liveRight then page b (j + 1) else rightHalf (page b j) := by
                have hne : Flag.allocated ≠ Flag.unused := by decide
                have hleft : head.get m (page b j) .left = page b j := hnode.left
                have hhalf : head.get m (page b j) .right =
                    rightHalf (page b j) := hnode.right
                have hpage : head.get m (page b j) .next = page b (j + 1) :=
                  hnode.next
                rw [skipAllocated, hleft, hhalf, hpage,
                  if_pos ⟨hp, hstatus⟩,
                  if_pos (h.rightHalf_ne_zero (j := j) (by omega)),
                  hright.status]
                cases liveRight with
                | false => rfl
                | true => exact if_neg hne
              rw [← page_eq_slot, hskip]
              cases liveRight with
              | false => exact ⟨_, .right hf, rightHalf_eq_slot b j⟩
              | true => exact ⟨_, h.current_next hf, page_eq_slot b (j + 1)⟩
  | @right j left right liveLeft hf =>
      obtain ⟨-, -, l, r, hl, -, hnode⟩ := (h.segmentAt hf).rest
      have hle := h.focus_le hf
      have hp := h.rightHalf_ne_zero (j := j) (by omega)
      have hskip := (hnode.isUnused hp rfl hl).skipAllocated
      rw [rightHalf_eq_slot] at hskip
      exact ⟨_, .right hf, hskip⟩
  | last => exact ⟨_, .last, h.skipAllocated_last⟩

end

/-- A node that is split at the distance of half a page. -/
theorem NodeAt.split {m : Bytes} {p : Addr} {n r : HeapNode}
    (hn : NodeAt m p n) (hr : NodeAt m (rightHalf p) r)
    (hchild : n.childSize = 2048) :
    NodeAt (splitNode m p) p
        ⟨p, rightHalf p, n.next, n.size / 2, n.childSize, false⟩ ∧
      NodeAt (splitNode m p) (rightHalf p)
        ⟨r.left, r.right, n.next, n.size / 2, r.childSize, r.live⟩ ∧
      AgreeOff (head.recordRegion p ∪ head.recordRegion (rightHalf p)) m
        (splitNode m p) := by
  have hc : head.get m p .childSize = 2048 := hn.childSize.trans hchild
  obtain ⟨hsplit, hhalf⟩ := isSplit_splitNode (m := m) (p := p)
    (hc.symm ▸ disjoint_halves p)
  rw [hc] at hsplit
  have hsize : head.get (splitNode m p) p .size = n.size / 2 := by
    rw [hhalf, hn.size]
  have hkept : ∀ f, f ≠ .left → f ≠ .right → f ≠ .status → f ≠ .size →
      head.get (splitNode m p) p f = head.get m p f := hsplit.kept
  have hrightKept : ∀ f, f ≠ .size → f ≠ .next →
      head.get (splitNode m p) (rightHalf p) f =
        head.get m (rightHalf p) f := hsplit.rightKept
  refine ⟨⟨hsplit.left, hsplit.right, ?_, hsize, ?_, hsplit.status, ?_, ?_⟩,
    ⟨?_, ?_, hsplit.rightNext.trans hn.next, hsplit.rightSize.trans hsize, ?_,
      ?_, ?_, ?_⟩, hsplit.frame⟩
  · exact (hkept .next (by simp) (by simp) (by simp) (by simp)).trans hn.next
  · exact (hkept .childSize (by simp) (by simp) (by simp) (by simp)).trans
      hn.childSize
  · exact (hkept .level (by simp) (by simp) (by simp) (by simp)).trans hn.level
  · exact (hkept .isBuddyCoalesced (by simp) (by simp) (by simp)
      (by simp)).trans hn.isBuddyCoalesced
  · exact (hrightKept .left (by simp) (by simp)).trans hr.left
  · exact (hrightKept .right (by simp) (by simp)).trans hr.right
  · exact (hrightKept .childSize (by simp) (by simp)).trans hr.childSize
  · exact (hrightKept .status (by simp) (by simp)).trans hr.status
  · exact (hrightKept .level (by simp) (by simp)).trans hr.level
  · exact (hrightKept .isBuddyCoalesced (by simp) (by simp)).trans
      hr.isBuddyCoalesced

/-- A right half has no distance to its own right half: it is split onto
itself. -/
theorem NodeAt.split_self {m : Bytes} {p : Addr} {n : HeapNode}
    (hn : NodeAt m p n) (hchild : n.childSize = 0) :
    NodeAt (splitNode m p) p
        ⟨p, p, n.next, n.size / 2, n.childSize, false⟩ ∧
      AgreeOff (head.recordRegion p) m (splitNode m p) := by
  have hc : head.get m p .childSize = 0 := hn.childSize.trans hchild
  have hzero : p + (0 : Word) = p := by simp
  have hsplit := splitNode_eq hc (Or.inl hzero)
  rw [hzero, hn.size, hn.next] at hsplit
  refine ⟨⟨?_, ?_, ?_, ?_, ?_, ?_, ?_, ?_⟩, ?_⟩
  · simp (disch := decide) only [hsplit, head.get_set_of_ne, head_get_set_self]
  · simp (disch := decide) only [hsplit, head.get_set_of_ne, head_get_set_self]
  · simp (disch := decide) only [hsplit, head_get_set_self]
  · simp (disch := decide) only [hsplit, head.get_set_of_ne, head_get_set_self]
  · simp (disch := decide) only [hsplit, head.get_set_of_ne, hn.childSize]
  · simp (disch := decide) only [hsplit, head.get_set_of_ne, head_get_set_unused]
    rfl
  · simp (disch := decide) only [hsplit, head.get_set_of_ne, hn.level]
  · simp (disch := decide) only [hsplit, head.get_set_of_ne, hn.isBuddyCoalesced]
  · have hm := agreeOff_splitNode hc (Or.inl hzero)
    rwa [hzero, Set.union_self] at hm

/-- One split, at the slot of the node that is split. -/
inductive Halve : List Segment → ℕ → List Segment → Prop
  | page (pre post : List Segment) :
      Halve (pre ++ [.page false] ++ post) (2 * spans pre)
        (pre ++ [.halves (PAGE_SIZE / 2) (PAGE_SIZE / 2) false false] ++ post)
  | left (pre post : List Segment) (left right : Word) (liveRight : Bool) :
      Halve (pre ++ [.halves left right false liveRight] ++ post)
        (2 * spans pre)
        (pre ++ [.halves (left / 2) (left / 2) false liveRight] ++ post)
  | right (pre post : List Segment) (left right : Word) (liveLeft : Bool) :
      Halve (pre ++ [.halves left right liveLeft false] ++ post)
        (2 * spans pre + 1)
        (pre ++ [.halves left (right / 2) liveLeft false] ++ post)

section

variable {m : Bytes} {b : Addr} {segs : List Segment} {lastLive : Bool}

theorem focus_mid {segs : List Segment} {j : ℕ} {seg : Segment}
    (h : Focus segs j seg) :
    ∃ pre post, segs = pre ++ [seg] ++ post ∧ j = spans pre := by
  obtain ⟨pre, post, rfl, rfl⟩ := h
  exact ⟨pre, post, by simp, rfl⟩

theorem focus_of_mid (pre : List Segment) (seg : Segment)
    (post : List Segment) : Focus (pre ++ [seg] ++ post) (spans pre) seg :=
  ⟨pre, post, by simp, rfl⟩

theorem PoolAt.replace_one {m' : Bytes} {pre post : List Segment}
    {seg seg' : Segment} (h : PoolAt m b (pre ++ [seg] ++ post) lastLive)
    (hspan : seg.span = 1) (hspan' : seg'.span = 1)
    (hm : AgreeOff (head.recordRegion (page b (spans pre)) ∪
      head.recordRegion (rightHalf (page b (spans pre)))) m m')
    (hseg : SegmentAt m' b (spans pre) seg') :
    PoolAt m' b (pre ++ [seg'] ++ post) lastLive := by
  refine h.replace (hm.mono ?_) ?_ ⟨hseg, trivial⟩
  · rw [spans_cons, hspan, spans_nil]
    exact Set.union_subset (record_page_subset b le_rfl (by omega))
      (record_rightHalf_subset b le_rfl (by omega))
  · rw [spans_cons, spans_cons, hspan, hspan']

theorem half_le {a c : Word} (h : a ≤ c) : a / 2 ≤ c := by
  rw [BitVec.le_def, BitVec.toNat_udiv]
  exact (Nat.div_le_self _ _).trans (BitVec.le_def.1 h)

section

variable {pre post : List Segment}

theorem PoolAt.splitPage
    (h : PoolAt m b (pre ++ [.page false] ++ post) lastLive) :
    PoolAt (splitNode m (page b (spans pre))) b
        (pre ++ [.halves (PAGE_SIZE / 2) (PAGE_SIZE / 2) false false] ++ post)
        lastLive ∧
      head.get (splitNode m (page b (spans pre))) (page b (spans pre)) .left =
        page b (spans pre) := by
  have hsegment := h.segmentAt (focus_of_mid pre _ post)
  obtain ⟨hpage, hright, hm⟩ := hsegment.node.split hsegment.rest rfl
  exact ⟨h.replace_one rfl rfl hm ⟨hpage, by decide, by decide, 0, 0,
    Or.inl rfl, Or.inl rfl, hright⟩, hpage.left⟩

theorem PoolAt.splitLeft {left right : Word} {liveRight : Bool}
    (h : PoolAt m b (pre ++ [.halves left right false liveRight] ++ post)
      lastLive) :
    PoolAt (splitNode m (page b (spans pre))) b
        (pre ++ [.halves (left / 2) (left / 2) false liveRight] ++ post)
        lastLive ∧
      head.get (splitNode m (page b (spans pre))) (page b (spans pre)) .left =
        page b (spans pre) := by
  have hsegment := h.segmentAt (focus_of_mid pre _ post)
  obtain ⟨hleft, -, l, r, hl, hr, hnode⟩ := hsegment.rest
  obtain ⟨hpage, hright, hm⟩ := hsegment.node.split hnode rfl
  exact ⟨h.replace_one rfl rfl hm ⟨hpage, half_le hleft, half_le hleft, l, r,
    hl, hr, hright⟩, hpage.left⟩

theorem PoolAt.splitRight {left right : Word} {liveLeft : Bool}
    (h : PoolAt m b (pre ++ [.halves left right liveLeft false] ++ post)
      lastLive) :
    PoolAt (splitNode m (rightHalf (page b (spans pre)))) b
        (pre ++ [.halves left (right / 2) liveLeft false] ++ post) lastLive ∧
      head.get (splitNode m (rightHalf (page b (spans pre))))
        (rightHalf (page b (spans pre))) .left =
          rightHalf (page b (spans pre)) := by
  have hsegment := h.segmentAt (focus_of_mid pre _ post)
  obtain ⟨hleft, hle, l, r, hl, hr, hnode⟩ := hsegment.rest
  obtain ⟨hright, hm⟩ := hnode.split_self rfl
  exact ⟨h.replace_one rfl rfl (hm.mono Set.subset_union_right)
    ⟨hsegment.node.congr hm (disjoint_halves _), hleft, half_le hle, _, _,
      Or.inr rfl, Or.inr rfl, hright⟩, hright.left⟩

end

/-- The writes of a split halve a node of the pool. -/
theorem PoolAt.split (h : PoolAt m b segs lastLive) {k : ℕ}
    (hk : Current segs k) (hunused : head.get m (slot b k) .status ≠
      Flag.allocated) {size : Word} (hne : head.get m (slot b k) .size ≠ size)
    (hsize : size ≤ head.get m (slot b k) .size) :
    ∃ segs', Halve segs k segs' ∧ Current segs' k ∧
      PoolAt (splitNode m (slot b k)) b segs' lastLive ∧
      head.get (splitNode m (slot b k)) (slot b k) .left = slot b k := by
  cases hk with
  | @page j seg hf =>
      have hlive := (h.segmentAt hf).node.status_ne_allocated.1
        (page_eq_slot b j ▸ hunused)
      obtain ⟨pre, post, rfl, rfl⟩ := focus_mid hf
      rw [← page_eq_slot]
      cases seg with
      | run n => exact absurd hlive (by simp [Segment.node])
      | page live =>
          obtain rfl : live = false := hlive
          exact ⟨_, .page pre post, .page (focus_of_mid _ _ _), h.splitPage⟩
      | halves left right liveLeft liveRight =>
          obtain rfl : liveLeft = false := hlive
          exact ⟨_, .left pre post left right liveRight,
            .page (focus_of_mid _ _ _), h.splitLeft⟩
  | @right j left right liveLeft hf =>
      obtain ⟨pre, post, rfl, rfl⟩ := focus_mid hf
      rw [← rightHalf_eq_slot]
      exact ⟨_, .right pre post left right liveLeft,
        .right (focus_of_mid _ _ _), h.splitRight⟩
  | last =>
      have hlast := h.last
      rw [page_eq_slot] at hlast
      rw [hlast.size] at hsize hne
      exact absurd (BitVec.le_zero_iff.1 hsize).symm hne

theorem PoolAt.takesOrSplits (h : PoolAt m b segs lastLive) {k : ℕ}
    (hk : Current segs k) {size : Word} {next : MallocStep}
    (hstep : takeOrSplit m size (slot b k) = .ok next) :
    (next = .done (.node (slot b k)) ∧
        head.get m (slot b k) .size = size) ∨
      (∃ k', Current segs k' ∧ next = .next m (slot b k')) ∨
      (head.get m (slot b k) .size ≠ size ∧
        head.get m (slot b k) .status ≠ Flag.allocated ∧
        size ≤ head.get m (slot b k) .size ∧
        next = .next (splitNode m (slot b k))
          (head.get (splitNode m (slot b k)) (slot b k) .left)) := by
  have hk' := h.current_le hk
  rw [takeOrSplit, if_neg (slot_ne_zero h.base (by omega))] at hstep
  split_ifs at hstep with hsize hskip hnext hnull
  · exact Or.inl ⟨(Except.ok.inj hstep).symm, hsize⟩
  · obtain ⟨n, hn, hend | ⟨k', hk', heq, -⟩⟩ := h.nodeAt_current hk
    · exact absurd (hn.next.trans hend.1) hnext
    · exact Or.inr (Or.inl ⟨k', hk', by
        rw [← Except.ok.inj hstep, hn.next, heq]⟩)
  · exact Or.inr (Or.inl ⟨k, hk, (Except.ok.inj hstep).symm⟩)
  · obtain ⟨hstatus, hlt⟩ := not_or.1 hskip
    exact Or.inr (Or.inr ⟨hsize, hstatus, BitVec.not_lt.1 hlt,
      (Except.ok.inj hstep).symm⟩)

def Found (m : Bytes) (b : Addr) (segs : List Segment) (size : Word) :
    MallocResult → Prop
  | .node p => ∃ k, Current segs k ∧ p = slot b k ∧ head.get m p .size = size
  | .blocks p n => ∃ k, Current segs k ∧ p = slot b k ∧
      head.get m p .status ≠ Flag.allocated ∧ PAGE_SIZE < size ∧
      n = size / PAGE_SIZE ∧ n ≤ MAXIMUM_COALESCE_BLOCKS ∧
      canCoalesce m (n - 1).toNat (head.get m p .next) = .ok true
  | .refused => True

theorem multiPage_eq_some {size : Word} {p : Addr} {result : MallocResult}
    (h : multiPage m size p = .ok (some result)) :
    result = .refused ∨
      result = .blocks p (size / PAGE_SIZE) ∧ PAGE_SIZE < size ∧
        head.get m p .status ≠ Flag.allocated ∧
        size / PAGE_SIZE ≤ MAXIMUM_COALESCE_BLOCKS ∧
        canCoalesce m (size / PAGE_SIZE - 1).toNat (head.get m p .next) =
          .ok true := by
  rw [multiPage] at h
  split_ifs at h with hand
  swap
  · exact absurd h (by simp)
  dsimp only at h
  split_ifs at h with hblocks
  · exact Or.inl (Option.some.inj (Except.ok.inj h)).symm
  · cases hcan : canCoalesce m (size / PAGE_SIZE - 1).toNat
        (head.get m p .next) with
    | error e =>
        rw [hcan] at h
        exact absurd h (by simp [bind, Except.bind])
    | ok can =>
        rw [hcan] at h
        cases can with
        | false => exact absurd h (by simp [bind, Except.bind, pure, Except.pure])
        | true => exact Or.inr ⟨(Option.some.inj (Except.ok.inj h)).symm, hand.1,
            hand.2.2.1, BitVec.not_lt.1 hblocks, rfl⟩

/-- An iteration leaves the pool as it was, or it halves a node that is not
allocated. -/
theorem PoolAt.iteration (h : PoolAt m b segs lastLive) {i : ℕ}
    (hi : Current segs i) {size : Word} {next : MallocStep}
    (hstep : mallocStep m size (slot b i) = .ok next) :
    (∃ result, next = .done result ∧ Found m b segs size result) ∨
      (∃ k, Current segs k ∧ next = .next m (slot b k)) ∨
      ∃ k segs', Current segs k ∧ Splits m size (slot b i) ∧
        skipAllocated m (slot b i) = slot b k ∧
        head.get m (slot b k) .status ≠ Flag.allocated ∧
        Halve segs k segs' ∧ Current segs' k ∧
        PoolAt (splitNode m (slot b k)) b segs' lastLive ∧
        next = .next (splitNode m (slot b k)) (slot b k) := by
  have hle := h.current_le hi
  have hp : slot b i ≠ 0 := slot_ne_zero h.base (by omega)
  rw [mallocStep, if_neg hp] at hstep
  cases hmulti : multiPage m size (slot b i) with
  | error e =>
      rw [hmulti] at hstep
      exact absurd hstep (by simp [bind, Except.bind])
  | ok found =>
      rw [hmulti] at hstep
      cases found with
      | some result =>
          refine Or.inl ⟨result, (Except.ok.inj hstep).symm, ?_⟩
          rcases multiPage_eq_some hmulti with rfl | ⟨rfl, hsize, hstatus,
            hblocks, hcan⟩
          · trivial
          · exact ⟨i, hi, rfl, hstatus, hsize, rfl, hblocks, hcan⟩
      | none =>
          obtain ⟨k, hk, hskip⟩ := h.exists_skip hi
          change takeOrSplit m size
            (skipAllocated m (slot b i)) = .ok next at hstep
          rw [hskip] at hstep
          have hkle := h.current_le hk
          rcases h.takesOrSplits hk hstep with ⟨rfl, hsize⟩ | hgo |
            ⟨hne, hstatus, hsize, rfl⟩
          · exact Or.inl ⟨_, rfl, k, hk, rfl, hsize⟩
          · exact Or.inr (Or.inl hgo)
          · obtain ⟨segs', hhalve, hk', hpool, hleft⟩ := h.split hk hstatus hne
              hsize
            refine Or.inr (Or.inr ⟨k, segs', hk, ⟨hp, hmulti, ?_, ?_, ?_, ?_⟩,
              hskip, hstatus, hhalve, hk', hpool, by rw [hleft]⟩)
            · exact hskip ▸ slot_ne_zero h.base (by omega)
            · exact hskip ▸ hne
            · exact hskip ▸ hstatus
            · exact hskip ▸ hsize

/-- What every allowed split of the search keeps of the segments holds at its
end. -/
theorem PoolAt.search {P : Bytes → Addr → Prop} {I : List Segment → Prop}
    {size : Word} {fuel : ℕ} {i : ℕ} {result : MallocResult} {m' : Bytes}
    (h : PoolAt m b segs lastLive) (hi : Current segs i)
    (hI : ∀ m segs k segs', PoolAt m b segs lastLive → I segs →
      P m (slot b k) → Halve segs k segs' → I segs')
    (hsplits : SplitsOnly P size m (slot b i)) (hstart : I segs)
    (hloop : mallocLoop size fuel m (slot b i) = .ok (result, m')) :
    ∃ segs', PoolAt m' b segs' lastLive ∧ I segs' ∧
      Found m' b segs' size result := by
  induction fuel generalizing m segs i with
  | zero => exact absurd hloop (by simp [mallocLoop])
  | succ fuel ih =>
      rw [mallocLoop] at hloop
      cases hstep : mallocStep m size (slot b i) with
      | error e =>
          rw [hstep] at hloop
          exact absurd hloop (by simp [bind, Except.bind])
      | ok next =>
          rw [hstep] at hloop
          rcases h.iteration hi hstep with ⟨found, rfl, hfound⟩ |
            ⟨k, hk, rfl⟩ | ⟨k, segs', hk, hsplit, hskip, -, hhalve, hk', hpool,
              rfl⟩
          · obtain ⟨rfl, rfl⟩ := Prod.mk.inj (Except.ok.inj hloop)
            exact ⟨segs, h, hstart, hfound⟩
          · exact ih h hk (hsplits.next hstep) hstart hloop
          · have hP := hsplits _ _ .refl hsplit
            rw [hskip] at hP
            exact ih hpool hk' (hsplits.next hstep)
              (hI _ _ _ _ h hstart hP hhalve) hloop

end

end OptimistOS
