import OptimistOS.Heap.ShownHeaders

/-!
# The nodes that are reachable from `freeList`

The nodes that `next`, `left` and `right` lead to from `freeList` on, through
any number of links. In a pool they are the nodes whose headers the heap reads:
the page nodes of the segments, the right halves of the pages that were split,
and the node of the last page.
-/

namespace OptimistOS

open ByteMemory

def linkMembers : List Head := [.next, .left, .right]

inductive Reachable (m : Bytes) (freeList : Addr) : Addr → Prop
  | first (hne : freeList ≠ 0) : Reachable m freeList freeList
  | link {p : Addr} {f : Head} (h : Reachable m freeList p)
      (hf : f ∈ linkMembers) (hne : head.get m p f ≠ 0) :
      Reachable m freeList (head.get m p f)

section

variable {m m' : Bytes} {b : Addr} {segs : List Segment} {lastLive : Bool}

theorem exists_focus_of_mem_shown {j k : ℕ} {segs : List Segment}
    (h : k ∈ shown j segs) : ∃ pre seg post, segs = pre ++ seg :: post ∧
      k ∈ seg.shown (j + spans pre) := by
  induction segs generalizing j with
  | nil => exact absurd h (by simp [shown])
  | cons seg segs ih =>
      rw [shown, List.mem_append] at h
      rcases h with h | h
      · exact ⟨[], seg, segs, rfl, h⟩
      · obtain ⟨pre, seg', post, rfl, hk⟩ := ih h
        refine ⟨seg :: pre, seg', post, rfl, ?_⟩
        rwa [spans_cons, ← Nat.add_assoc]

/-- The header in a slot that is read is that of a page node, of a right half or
of the last page. -/
theorem poolShown_cases {k : ℕ} (h : k ∈ poolShown segs) :
    (∃ j seg, Focus segs j seg ∧ k = 2 * j) ∨
      (∃ j left right liveLeft liveRight,
        Focus segs j (.halves left right liveLeft liveRight) ∧ k = 2 * j + 1) ∨
      k = 6142 := by
  rw [poolShown, List.mem_append, List.mem_singleton] at h
  rcases h with h | rfl
  swap
  · exact Or.inr (Or.inr rfl)
  obtain ⟨pre, seg, post, rfl, hk⟩ := exists_focus_of_mem_shown h
  rw [Nat.zero_add] at hk
  have hf : Focus (pre ++ seg :: post) (spans pre) seg := ⟨pre, post, rfl, rfl⟩
  cases seg with
  | page live => exact Or.inl ⟨_, _, hf, List.mem_singleton.1 hk⟩
  | run n => exact Or.inl ⟨_, _, hf, List.mem_singleton.1 hk⟩
  | halves left right liveLeft liveRight =>
      rw [Segment.shown, List.mem_cons, List.mem_singleton] at hk
      rcases hk with rfl | rfl
      · exact Or.inl ⟨_, _, hf, rfl⟩
      · exact Or.inr (Or.inl ⟨_, _, _, _, _, hf, rfl⟩)

/-- The links of a node that is read lead to such nodes. -/
theorem PoolAt.links_shown (h : PoolAt m b segs lastLive) {k : ℕ}
    (hk : k ∈ poolShown segs) {f : Head} (hf : f ∈ linkMembers) :
    head.get m (slot b k) f = 0 ∨
      ∃ l ∈ poolShown segs, head.get m (slot b k) f = slot b l := by
  have hnext : ∀ {j : ℕ} {seg : Segment}, Focus segs j seg →
      2 * (j + seg.span) ∈ poolShown segs :=
    fun hfocus => (h.current_next hfocus).mem_poolShown
  simp only [linkMembers, List.mem_cons, List.not_mem_nil, or_false] at hf
  rcases poolShown_cases hk with ⟨j, seg, hfocus, rfl⟩ |
    ⟨j, left, right, liveLeft, liveRight, hfocus, rfl⟩ | rfl
  · obtain ⟨hleft, hright, -⟩ := h.links_current (.page hfocus)
    rcases hf with rfl | rfl | rfl
    · have hnode := (h.segmentAt hfocus).node
      rw [page_eq_slot] at hnode
      exact Or.inr ⟨_, hnext hfocus, by
        rw [hnode.next, segment_node_next, page_eq_slot]⟩
    · exact hleft.imp_right fun heq => ⟨_, hk, heq⟩
    · exact hright
  · obtain ⟨-, -, l, r, hl, hr, hnode⟩ := (h.segmentAt hfocus).rest
    rw [rightHalf_eq_slot] at hl hr hnode
    rcases hf with rfl | rfl | rfl
    · exact Or.inr ⟨_, hnext hfocus, by
        rw [hnode.next, page_eq_slot]
        rfl⟩
    · rw [hnode.left]
      exact hl.imp_right fun heq => ⟨_, hk, heq⟩
    · rw [hnode.right]
      exact hr.imp_right fun heq => ⟨_, hk, heq⟩
  · have hlast := h.last
    rw [page_eq_slot] at hlast
    rcases hf with rfl | rfl | rfl
    · exact Or.inl hlast.next
    · exact Or.inl hlast.left
    · exact Or.inl hlast.right

theorem PoolAt.shown_of_reachable (h : PoolAt m b segs lastLive)
    (hsame : ∀ k ∈ poolShown segs, ∀ f ∈ linkMembers,
      head.get m' (slot b k) f = head.get m (slot b k) f)
    {p : Addr} (hp : Reachable m' b p) : ∃ k ∈ poolShown segs, p = slot b k := by
  induction hp with
  | first =>
      exact ⟨0, h.current_first.mem_poolShown, (BitVec.add_zero b).symm⟩
  | @link p f hreach hf hne ih =>
      obtain ⟨k, hk, rfl⟩ := ih
      rw [hsame k hk f hf] at hne ⊢
      exact (h.links_shown hk hf).resolve_left hne

theorem Shadowed.shown_of_reachable (h : Shadowed m m' b segs lastLive)
    {p : Addr} (hp : Reachable m' b p) : ∃ k ∈ poolShown segs, p = slot b k :=
  h.pool.shown_of_reachable (fun k hk f hf => h.get hk (by
    rintro rfl
    exact absurd hf (by decide))) hp

theorem PoolAt.reachable_page {pre post : List Segment}
    (h : PoolAt m b (pre ++ post) lastLive) :
    Reachable m b (page b (spans pre)) := by
  induction pre using List.reverseRecOn generalizing post with
  | nil =>
      rw [spans_nil, page_zero]
      exact .first h.base.ne_zero
  | append_singleton pre seg ih =>
      rw [List.append_assoc] at h
      have hfocus : Focus (pre ++ ([seg] ++ post)) (spans pre) seg :=
        ⟨pre, post, rfl, rfl⟩
      have hnext := (h.segmentAt hfocus).node.next
      rw [segment_node_next] at hnext
      rw [spans_append, spans_cons, spans_nil, Nat.add_zero, ← hnext]
      refine .link (ih h) (by simp [linkMembers]) ?_
      rw [hnext]
      exact h.page_ne_zero (h.focus_le hfocus)

theorem PoolAt.reachable_iff (h : PoolAt m b segs lastLive) {p : Addr} :
    Reachable m b p ↔ ∃ k ∈ poolShown segs, p = slot b k := by
  refine ⟨h.shown_of_reachable fun _ _ _ _ => rfl, ?_⟩
  rintro ⟨k, hk, rfl⟩
  rcases poolShown_cases hk with ⟨j, seg, ⟨pre, post, rfl, rfl⟩, rfl⟩ |
    ⟨j, left, right, liveLeft, liveRight, hfocus, rfl⟩ | rfl
  · rw [← page_eq_slot]
    exact h.reachable_page
  · have hright : head.get m (page b j) .right = rightHalf (page b j) :=
      (h.segmentAt hfocus).node.right
    have hle := h.focus_le hfocus
    obtain ⟨pre, post, rfl, rfl⟩ := hfocus
    rw [← rightHalf_eq_slot, ← hright]
    refine .link h.reachable_page (by simp [linkMembers]) ?_
    rw [hright]
    exact h.rightHalf_ne_zero ((Nat.le_add_right _ _).trans hle)
  · have h' : PoolAt m b (segs ++ []) lastLive := by rwa [List.append_nil]
    rw [show 6142 = 2 * spans segs by rw [h.spans_eq], ← page_eq_slot]
    exact h'.reachable_page

end

end OptimistOS
