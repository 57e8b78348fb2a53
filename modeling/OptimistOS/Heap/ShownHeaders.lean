import OptimistOS.Heap.Backlinks

/-!
# The headers that the search reads

The search of `mallocx` reads the headers of the page nodes and of the right
halves of pages that were split. The other places where headers can be belong
to the payload of blocks: the middle of a page that was never split, and the
pages inside a block (`shownMembers`). In two memories with the same headers
that are read, a search that stands at the same node looks at the same node next
and finds the same pages to merge.
-/

namespace OptimistOS

open ByteMemory

/-- The members of these headers. The link back of a right half is not among
them, because nothing reads or writes it. -/
def shownMembers (b : Addr) (segs : List Segment) : Set (Addr × Head) :=
  {x | ∃ k ∈ poolShown segs, x.1 = slot b k ∧ (k % 2 = 0 ∨ x.2 ≠ .previous)}

theorem mem_shownMembers {b : Addr} {segs : List Segment} {k : ℕ} {f : Head}
    (hk : k ∈ poolShown segs) (hf : f ≠ .previous) :
    (slot b k, f) ∈ shownMembers b segs :=
  ⟨k, hk, rfl, Or.inr hf⟩

theorem shownMembers_subset {b : Addr} {segs segs' : List Segment}
    (h : ∀ k ∈ poolShown segs', k ∈ poolShown segs) :
    shownMembers b segs' ⊆ shownMembers b segs := by
  rintro x ⟨k, hk, hx⟩
  exact ⟨k, h k hk, hx⟩

theorem Focus.mem_poolShown {segs : List Segment} {j k : ℕ} {seg : Segment}
    (h : Focus segs j seg) (hk : k ∈ seg.shown j) : k ∈ poolShown segs := by
  obtain ⟨pre, post, rfl, rfl⟩ := focus_mid h
  exact mem_poolShown_mid.2 (Or.inl (by rwa [shown_singleton]))

theorem Current.mem_poolShown {segs : List Segment} {k : ℕ}
    (h : Current segs k) : k ∈ poolShown segs := by
  cases h with
  | @page j seg hf => exact hf.mem_poolShown (by cases seg <;> simp [Segment.shown])
  | right hf => exact hf.mem_poolShown (by simp [Segment.shown])
  | last => exact List.mem_append_right _ (List.mem_singleton_self _)

section

variable {m m' : Bytes} {b : Addr} {segs : List Segment} {lastLive : Bool}

theorem PoolAt.shown_le (h : PoolAt m b segs lastLive) {k : ℕ}
    (hk : k ∈ poolShown segs) : k ≤ 6142 := by
  rw [poolShown, List.mem_append, List.mem_singleton] at hk
  have hspans := h.spans_eq
  rcases hk with hk | hk
  · have hrange := shown_range hk
    omega
  · exact hk.le

theorem PoolAt.halves_current (h : PoolAt m b segs lastLive) {i : ℕ}
    (hi : Current segs i) :
    ∃ n, NodeAt m (slot b i) n ∧ (n.left = 0 ∨ n.left = slot b i) ∧
      (n.right = 0 ∨ ∃ k ∈ poolShown segs, n.right = slot b k) := by
  cases hi with
  | @page j seg hf =>
      have hnode := (h.segmentAt hf).node
      rw [page_eq_slot] at hnode
      refine ⟨_, hnode, ?_⟩
      cases seg with
      | page live => exact ⟨Or.inl rfl, Or.inl rfl⟩
      | run n => exact ⟨Or.inl rfl, Or.inl rfl⟩
      | halves left right liveLeft liveRight =>
          exact ⟨Or.inr (page_eq_slot b j), Or.inr ⟨2 * j + 1,
            hf.mem_poolShown (by simp [Segment.shown]),
            rightHalf_eq_slot b j⟩⟩
  | @right j left right liveLeft hf =>
      obtain ⟨-, -, l, r, hl, hr, hnode⟩ := (h.segmentAt hf).rest
      rw [rightHalf_eq_slot] at hl hr hnode
      exact ⟨_, hnode, hl, hr.imp_right fun he => ⟨2 * j + 1,
        hf.mem_poolShown (by simp [Segment.shown]), he⟩⟩
  | last =>
      have hlast := h.last
      rw [page_eq_slot] at hlast
      exact ⟨_, hlast, Or.inl rfl, Or.inl rfl⟩

theorem PoolAt.links_current (h : PoolAt m b segs lastLive) {i : ℕ}
    (hi : Current segs i) :
    (head.get m (slot b i) .left = 0 ∨
        head.get m (slot b i) .left = slot b i) ∧
      (head.get m (slot b i) .right = 0 ∨
        ∃ k ∈ poolShown segs, head.get m (slot b i) .right = slot b k) ∧
      (head.get m (slot b i) .next = 0 ∨
        ∃ k, Current segs k ∧ head.get m (slot b i) .next = slot b k) := by
  obtain ⟨n, hn, hleft, hright⟩ := h.halves_current hi
  rw [hn.left, hn.right]
  refine ⟨hleft, hright, ?_⟩
  obtain ⟨n', hn', ⟨hzero, -⟩ | ⟨k, hk, heq, -⟩⟩ := h.nodeAt_current hi
  · exact Or.inl (hn'.next.trans hzero)
  · exact Or.inr ⟨k, hk, hn'.next.trans heq⟩

/-- The heap with the pool `segs` at `b` in the memory `m`, and another memory
with the same headers that are read. -/
structure Shadowed (m m' : Bytes) (b : Addr) (segs : List Segment)
    (lastLive : Bool) : Prop where
  pool : PoolAt m b segs lastLive
  backlinks : Backlinks m b
  same : head.SameOn (slots b) (shownMembers b segs) m m'

namespace Shadowed

theorem get (h : Shadowed m m' b segs lastLive) {k : ℕ}
    (hk : k ∈ poolShown segs) {f : Head} (hf : f ≠ .previous) :
    head.get m' (slot b k) f = head.get m (slot b k) f :=
  h.same.get (mem_shownMembers hk hf)

theorem skipAllocated_eq (h : Shadowed m m' b segs lastLive) {i : ℕ}
    (hi : Current segs i) :
    skipAllocated m' (slot b i) = skipAllocated m (slot b i) := by
  have hget : ∀ f, f ≠ .previous →
      head.get m' (slot b i) f = head.get m (slot b i) f :=
    fun f hf => h.get hi.mem_poolShown hf
  obtain ⟨hleft, hright, -⟩ := h.pool.links_current hi
  have hflag : (head.get m (slot b i) .left ≠ 0 ∧
        head.get m' (head.get m (slot b i) .left) .status = Flag.allocated) ↔
      (head.get m (slot b i) .left ≠ 0 ∧
        head.get m (head.get m (slot b i) .left) .status = Flag.allocated) := by
    refine and_congr_right fun hne => ?_
    rw [hleft.resolve_left hne, hget _ (by decide)]
  rw [skipAllocated, skipAllocated, hget _ (by decide), hget _ (by decide),
    hget _ (by decide), hget _ (by decide)]
  simp only [hflag]
  rcases hright with hzero | ⟨k, hk, heq⟩
  · simp only [hzero, ne_eq, not_true_eq_false, if_false]
  · rw [heq, h.get hk (by decide)]

theorem canCoalesce_eq (h : Shadowed m m' b segs lastLive) (n : ℕ) {p : Addr}
    (hp : p = 0 ∨ ∃ k, Current segs k ∧ p = slot b k) :
    canCoalesce m' n p = canCoalesce m n p := by
  induction n generalizing p with
  | zero => rfl
  | succ n ih =>
      rcases hp with rfl | ⟨k, hk, rfl⟩
      · rfl
      · rw [canCoalesce, canCoalesce, h.get hk.mem_poolShown (by decide),
          h.get hk.mem_poolShown (by decide), ih (h.pool.links_current hk).2.2]

theorem multiPage_eq (h : Shadowed m m' b segs lastLive) (size : Word) {i : ℕ}
    (hi : Current segs i) :
    multiPage m' size (slot b i) = multiPage m size (slot b i) := by
  have hget : ∀ f, f ≠ .previous →
      head.get m' (slot b i) f = head.get m (slot b i) f :=
    fun f hf => h.get hi.mem_poolShown hf
  rw [multiPage, multiPage, hget _ (by decide), hget _ (by decide),
    hget _ (by decide)]
  simp only [h.canCoalesce_eq _ (h.pool.links_current hi).2.2]

end Shadowed

end

end OptimistOS
