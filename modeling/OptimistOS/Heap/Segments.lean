import OptimistOS.Heap.Requests

/-!
# The pool as a list of segments

An abstract view of the pool. A segment is a page that was never split, a page
in two halves, or a block of several pages (`Segment`); the pool is the list of
its segments from the first page on. `SegmentsAt` says that the headers in
memory are those of such a list: the page nodes are linked from segment to
segment, a right half is blank until its page is split, and the pages inside a
block keep their headers.
-/

namespace OptimistOS

open ByteMemory

structure PoolBase (b : Addr) : Prop where
  ne_zero : b ≠ 0
  fits : b.toNat + poolBytes.toNat < 2 ^ 64

/-- Where headers can be: at the start of a page and in the middle. -/
def slot (b : Addr) (i : ℕ) : Addr := b + BitVec.ofNat 64 (2048 * i)

theorem page_eq_slot (b : Addr) (j : ℕ) : page b j = slot b (2 * j) := by
  rw [page, slot, show 2048 * (2 * j) = 4096 * j by ring]

theorem rightHalf_eq_slot (b : Addr) (j : ℕ) :
    rightHalf (page b j) = slot b (2 * j + 1) := by
  rw [rightHalf_eq, slot, show 2048 * (2 * j + 1) = 4096 * j + 2048 by ring]

theorem page_add_PAGE_SIZE (b : Addr) (j : ℕ) :
    page b j + PAGE_SIZE = page b (j + 1) := by
  rw [page, page, show (PAGE_SIZE : Word) = BitVec.ofNat 64 4096 from rfl,
    add_ofNat_add_ofNat]
  congr 2

theorem slot_ne_zero {b : Addr} (hb : PoolBase b) {i : ℕ} (hi : i ≤ 6143) :
    slot b i ≠ 0 := by
  intro h
  have hfits := hb.fits
  have hsize : poolBytes.toNat = 12779520 := by decide
  have hpos : b.toNat ≠ 0 := fun h0 => hb.ne_zero (BitVec.eq_of_toNat_eq h0)
  have hsum := congrArg BitVec.toNat h
  rw [slot, BitVec.toNat_add, BitVec.toNat_ofNat] at hsum
  have hzero : (0 : Addr).toNat = 0 := rfl
  omega

theorem slot_inj (b : Addr) {i k : ℕ} (hi : i ≤ 6143) (hk : k ≤ 6143)
    (h : slot b i = slot b k) : i = k := by
  have heq := add_ofNat_inj b (by omega) (by omega) h
  omega

theorem disjoint_slots (b : Addr) {i k : ℕ} (hi : i ≤ 6143) (hk : k ≤ 6143)
    (h : i ≠ k) :
    Disjoint (head.recordRegion (slot b i)) (head.recordRegion (slot b k)) := by
  rcases Nat.lt_or_gt_of_ne h with hlt | hlt
  · exact disjoint_header b (by omega) (by omega)
  · exact (disjoint_header b (by omega) (by omega)).symm

structure HeapNode where
  left : Addr
  right : Addr
  next : Addr
  size : Word
  childSize : Word
  live : Bool

structure NodeAt (m : Bytes) (p : Addr) (n : HeapNode) : Prop where
  left : head.get m p .left = n.left
  right : head.get m p .right = n.right
  next : head.get m p .next = n.next
  size : head.get m p .size = n.size
  childSize : head.get m p .childSize = n.childSize
  status : head.get m p .status =
    if n.live then Flag.allocated else Flag.unused
  level : head.get m p .level = 0
  isBuddyCoalesced : head.get m p .isBuddyCoalesced = 0

theorem NodeAt.congr {m m' : Bytes} {s : Set Addr} {p : Addr} {n : HeapNode}
    (h : NodeAt m p n) (hm : AgreeOff s m m')
    (hp : Disjoint (head.recordRegion p) s) : NodeAt m' p n where
  left := (head.get_congr hm p _ hp).trans h.left
  right := (head.get_congr hm p _ hp).trans h.right
  next := (head.get_congr hm p _ hp).trans h.next
  size := (head.get_congr hm p _ hp).trans h.size
  childSize := (head.get_congr hm p _ hp).trans h.childSize
  status := (head.get_congr hm p _ hp).trans h.status
  level := (head.get_congr hm p _ hp).trans h.level
  isBuddyCoalesced := (head.get_congr hm p _ hp).trans h.isBuddyCoalesced

theorem NodeAt.status_ne_allocated {m : Bytes} {p : Addr} {n : HeapNode}
    (h : NodeAt m p n) :
    head.get m p .status ≠ Flag.allocated ↔ n.live = false := by
  have hne : Flag.unused ≠ Flag.allocated := by decide
  rw [h.status]
  cases n.live <;> simp [hne]

/-- A stretch of the pool. -/
inductive Segment
  /-- A page that was never split. -/
  | page (live : Bool)
  /-- A page in two halves, of the sizes that their headers give. -/
  | halves (left right : Word) (liveLeft liveRight : Bool)
  /-- A block of `n + 1` pages. -/
  | run (n : ℕ)
  deriving DecidableEq

namespace Segment

def span : Segment → ℕ
  | page _ => 1
  | halves _ _ _ _ => 1
  | run n => n + 1

def node (b : Addr) (j : ℕ) : Segment → HeapNode
  | page live => ⟨0, 0, OptimistOS.page b (j + 1), PAGE_SIZE, 2048, live⟩
  | halves left _ liveLeft _ =>
      ⟨OptimistOS.page b j, rightHalf (OptimistOS.page b j),
        OptimistOS.page b (j + 1), left, 2048, liveLeft⟩
  | run n =>
      ⟨0, 0, OptimistOS.page b (j + (n + 1)),
        PAGE_SIZE * BitVec.ofNat 64 (n + 1), 2048, true⟩

end Segment

/-- A header that was never written. -/
def blankNode : HeapNode := ⟨0, 0, 0, 0, 0, false⟩

def RestAt (m : Bytes) (b : Addr) (j : ℕ) : Segment → Prop
  | .page _ => NodeAt m (rightHalf (page b j)) blankNode
  | .halves left right _ liveRight => left ≤ 2048 ∧ right ≤ 2048 ∧ ∃ l r,
      (l = 0 ∨ l = rightHalf (page b j)) ∧ (r = 0 ∨ r = rightHalf (page b j)) ∧
        NodeAt m (rightHalf (page b j))
          ⟨l, r, page b (j + 1), right, 0, liveRight⟩
  | .run n => n ≤ 3 ∧
      (∀ i, 0 < i → i ≤ n → NodeAt m (page b (j + i))
        ((Segment.page false).node b (j + i))) ∧
      ∀ i ≤ n, NodeAt m (rightHalf (page b (j + i))) blankNode

structure SegmentAt (m : Bytes) (b : Addr) (j : ℕ) (seg : Segment) : Prop where
  node : NodeAt m (page b j) (seg.node b j)
  rest : RestAt m b j seg

def SegmentsAt (m : Bytes) (b : Addr) : ℕ → List Segment → Prop
  | _, [] => True
  | j, seg :: segs =>
      SegmentAt m b j seg ∧ SegmentsAt m b (j + seg.span) segs

def spans (segs : List Segment) : ℕ := (segs.map Segment.span).sum

@[simp] theorem spans_nil : spans [] = 0 := rfl

@[simp] theorem spans_cons (seg : Segment) (segs : List Segment) :
    spans (seg :: segs) = seg.span + spans segs := rfl

@[simp] theorem spans_append (xs ys : List Segment) :
    spans (xs ++ ys) = spans xs + spans ys := by
  simp [spans]

theorem segmentsAt_append {m : Bytes} {b : Addr} {j : ℕ}
    {xs ys : List Segment} :
    SegmentsAt m b j (xs ++ ys) ↔
      SegmentsAt m b j xs ∧ SegmentsAt m b (j + spans xs) ys := by
  induction xs generalizing j with
  | nil => simp [SegmentsAt]
  | cons x xs ih =>
      rw [List.cons_append, SegmentsAt, SegmentsAt, ih, spans_cons, and_assoc,
        Nat.add_assoc]

def pageHeaders (b : Addr) (j n : ℕ) : Set Addr :=
  {x | ∃ i, 2 * j ≤ i ∧ i < 2 * (j + n) ∧ x ∈ head.recordRegion (slot b i)}

theorem record_page_subset (b : Addr) {j n k : ℕ} (h : j ≤ k) (h' : k < j + n) :
    head.recordRegion (page b k) ⊆ pageHeaders b j n :=
  fun _ hx => ⟨2 * k, by omega, by omega, page_eq_slot b k ▸ hx⟩

theorem record_rightHalf_subset (b : Addr) {j n k : ℕ} (h : j ≤ k)
    (h' : k < j + n) :
    head.recordRegion (rightHalf (page b k)) ⊆ pageHeaders b j n :=
  fun _ hx => ⟨2 * k + 1, by omega, by omega, rightHalf_eq_slot b k ▸ hx⟩

theorem disjoint_pageHeaders (b : Addr) {j n k l : ℕ} (h : j + n ≤ k)
    (hl : k + l ≤ 3072) :
    Disjoint (pageHeaders b j n) (pageHeaders b k l) := by
  rw [Set.disjoint_left]
  rintro x ⟨i, -, hi, hx⟩ ⟨i', hi', hlt, hx'⟩
  exact Set.disjoint_left.1
    (disjoint_slots b (by omega) (by omega) (by omega)) hx hx'

theorem SegmentAt.congr {m m' : Bytes} {b : Addr} {j : ℕ} {seg : Segment}
    {s : Set Addr} (h : SegmentAt m b j seg) (hm : AgreeOff s m m')
    (hs : Disjoint (pageHeaders b j seg.span) s) : SegmentAt m' b j seg := by
  have hpage : ∀ {k : ℕ} {n : HeapNode}, j ≤ k → k < j + seg.span →
      NodeAt m (page b k) n → NodeAt m' (page b k) n := fun hk hk' hn =>
    hn.congr hm (hs.mono_left (record_page_subset b hk hk'))
  have hright : ∀ {k : ℕ} {n : HeapNode}, j ≤ k → k < j + seg.span →
      NodeAt m (rightHalf (page b k)) n →
        NodeAt m' (rightHalf (page b k)) n := fun hk hk' hn =>
    hn.congr hm (hs.mono_left (record_rightHalf_subset b hk hk'))
  have hspan : j < j + seg.span := by
    cases seg <;> simp [Segment.span]
  refine ⟨hpage le_rfl hspan h.node, ?_⟩
  cases seg with
  | page live => exact hright le_rfl hspan h.rest
  | halves left right liveLeft liveRight =>
      obtain ⟨hleft, hle, l, r, hl, hr, hnode⟩ := h.rest
      exact ⟨hleft, hle, l, r, hl, hr, hright le_rfl hspan hnode⟩
  | run n =>
      obtain ⟨hn, hpages, hrights⟩ := h.rest
      rw [Segment.span] at hpage hright
      exact ⟨hn, fun i hi hi' => hpage (by omega) (by omega) (hpages i hi hi'),
        fun i hi => hright (by omega) (by omega) (hrights i hi)⟩

theorem SegmentsAt.congr {m m' : Bytes} {b : Addr} {j : ℕ}
    {segs : List Segment} {s : Set Addr} (h : SegmentsAt m b j segs)
    (hm : AgreeOff s m m') (hs : Disjoint (pageHeaders b j (spans segs)) s) :
    SegmentsAt m' b j segs := by
  induction segs generalizing j with
  | nil => trivial
  | cons seg segs ih =>
      refine ⟨h.1.congr hm (hs.mono_left ?_), ih h.2 (hs.mono_left ?_)⟩
      · rintro x ⟨i, hi, hlt, hx⟩
        exact ⟨i, hi, by rw [spans_cons]; omega, hx⟩
      · rintro x ⟨i, hi, hlt, hx⟩
        exact ⟨i, by omega, by rw [spans_cons]; omega, hx⟩

/-- The memory holds the pool `segs` at `b`; the page behind the last node has
a header of zeros, but for its status. -/
structure PoolAt (m : Bytes) (b : Addr) (segs : List Segment)
    (lastLive : Bool) : Prop where
  base : PoolBase b
  segments : SegmentsAt m b 0 segs
  spans_eq : spans segs = 3071
  last : NodeAt m (page b 3071) ⟨0, 0, 0, 0, 0, lastLive⟩

def Focus (segs : List Segment) (j : ℕ) (seg : Segment) : Prop :=
  ∃ pre post, segs = pre ++ seg :: post ∧ j = spans pre

section

variable {m m' : Bytes} {b : Addr} {segs : List Segment} {lastLive : Bool}
  {j : ℕ} {seg : Segment}

theorem PoolAt.segmentAt (h : PoolAt m b segs lastLive)
    (hfocus : Focus segs j seg) : SegmentAt m b j seg := by
  obtain ⟨pre, post, rfl, rfl⟩ := hfocus
  have hrest := (segmentsAt_append.1 h.segments).2.1
  rwa [Nat.zero_add] at hrest

theorem PoolAt.focus_le (h : PoolAt m b segs lastLive)
    (hfocus : Focus segs j seg) : j + seg.span ≤ 3071 := by
  obtain ⟨pre, post, rfl, rfl⟩ := hfocus
  have hspans := h.spans_eq
  rw [spans_append, spans_cons] at hspans
  omega

/-- The page node behind a segment is that of another segment, or the last
one. -/
theorem PoolAt.focus_next (h : PoolAt m b segs lastLive)
    (hfocus : Focus segs j seg) :
    j + seg.span = 3071 ∨ ∃ seg', Focus segs (j + seg.span) seg' := by
  obtain ⟨pre, post, rfl, rfl⟩ := hfocus
  have hspans := h.spans_eq
  cases post with
  | nil =>
      left
      simpa using hspans
  | cons seg' post =>
      right
      refine ⟨seg', pre ++ [seg], post, by simp, ?_⟩
      rw [spans_append, spans_cons, spans_nil, Nat.add_zero]

theorem PoolAt.replace {pre mid mid' post : List Segment}
    (h : PoolAt m b (pre ++ mid ++ post) lastLive)
    (hm : AgreeOff (pageHeaders b (spans pre) (spans mid)) m m')
    (hspans : spans mid' = spans mid)
    (hmid : SegmentsAt m' b (spans pre) mid') :
    PoolAt m' b (pre ++ mid' ++ post) lastLive := by
  have hlen := h.spans_eq
  simp only [spans_append] at hlen
  obtain ⟨hfirst, hpost⟩ := segmentsAt_append.1 h.segments
  obtain ⟨hpre, -⟩ := segmentsAt_append.1 hfirst
  rw [Nat.zero_add, spans_append] at hpost
  refine ⟨h.base, ?_, ?_, ?_⟩
  · rw [segmentsAt_append, segmentsAt_append, Nat.zero_add, Nat.zero_add,
      spans_append, hspans]
    refine ⟨⟨hpre.congr hm ?_, hmid⟩, hpost.congr hm ?_⟩
    · exact disjoint_pageHeaders b (by omega) (by omega)
    · exact (disjoint_pageHeaders b (by omega) (by omega)).symm
  · simp only [spans_append]
    omega
  · refine h.last.congr hm ((disjoint_pageHeaders b (k := 3071) (l := 1)
      (j := spans pre) (n := spans mid) (by omega) (by omega)).symm.mono_left ?_)
    exact record_page_subset b le_rfl (by omega)

end

theorem segmentsAt_replicate {m : Bytes} {b : Addr} {j n : ℕ} {seg : Segment}
    (hspan : seg.span = 1) :
    SegmentsAt m b j (List.replicate n seg) ↔
      ∀ i < n, SegmentAt m b (j + i) seg := by
  induction n generalizing j with
  | zero => simp [SegmentsAt]
  | succ n ih =>
      rw [List.replicate_succ, SegmentsAt, ih, hspan]
      constructor
      · rintro ⟨hfirst, hrest⟩ i hi
        rcases i with _ | i
        · exact hfirst
        · have hi' := hrest i (by omega)
          rwa [show j + 1 + i = j + (i + 1) by ring] at hi'
      · refine fun h => ⟨h 0 (Nat.succ_pos n), fun i hi => ?_⟩
        have hi' := h (i + 1) (by omega)
        rwa [show j + (i + 1) = j + 1 + i by ring] at hi'

theorem spans_replicate_page (n : ℕ) (live : Bool) :
    spans (List.replicate n (.page live)) = n := by
  simp [spans, Segment.span]

theorem nodeAt_blank {m : Bytes} {p : Addr}
    (h : ∀ x ∈ head.recordRegion p, m x = 0) : NodeAt m p blankNode := by
  have hzero := head.get_of_forall_zero h
  exact ⟨hzero _, hzero _, hzero _, hzero _, hzero _, hzero _, hzero _, hzero _⟩

theorem FreshPool.poolAt {m : Bytes} {b : Addr} (h : FreshPool m b) :
    PoolAt m b (List.replicate 3071 (.page false)) false := by
  have hsize : poolBytes.toNat = 12779520 := by decide
  have hblank : ∀ i ≤ 6142, (∀ j < 3071, i ≠ 2 * j) →
      NodeAt m (slot b i) blankNode := by
    refine fun i hi hne => nodeAt_blank fun x hx => h.zero x ?_ ?_
    · exact region_subset_of_le b (i := 2048 * i) (n := 64) (by omega)
        poolBytes.isLt.le hx
    · rintro ⟨j, hj, hx'⟩
      rw [page_eq_slot] at hx'
      have hj' : j < 3071 := hj
      exact Set.disjoint_left.1
        (disjoint_slots b (by omega) (by omega) (hne j hj')) hx hx'
  refine ⟨⟨h.ne_zero, h.fits⟩, (segmentsAt_replicate rfl).2 fun i hi => ?_,
    spans_replicate_page _ _, ?_⟩
  · have hpage := h.page i hi
    rw [Nat.zero_add]
    refine ⟨⟨hpage.left, hpage.right,
      hpage.next.trans (page_add_PAGE_SIZE b i), hpage.size, hpage.childSize,
      hpage.status, hpage.level, hpage.isBuddyCoalesced⟩, ?_⟩
    change NodeAt m (rightHalf (OptimistOS.page b i)) blankNode
    rw [rightHalf_eq_slot]
    exact hblank _ (by omega) fun j _ => by omega
  · rw [page_eq_slot]
    exact hblank _ le_rfl fun j hj => by omega

end OptimistOS
