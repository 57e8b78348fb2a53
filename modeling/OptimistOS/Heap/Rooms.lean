import OptimistOS.Heap.ShownHeaders

/-!
# The room of a block

The node of a block has the bytes from its header on to itself, as many as the
header records and at least half a page (`room`). The rooms of two blocks do not
overlap, and no header that the heap reads lies in the room of a block but its
own.
-/

namespace OptimistOS

open ByteMemory

/-- The bytes from the node in the `k`-th slot on, for a block of the size
`w`. -/
def room (b : Addr) (k : ℕ) (w : Word) : Set Addr :=
  region (slot b k) (max w.toNat 2048)

section

variable {m m' : Bytes} {b : Addr} {segs segs' : List Segment} {lastLive : Bool}
  {k l : ℕ} {v w : Word}

theorem SegmentAt.block_end {j : ℕ} {seg : Segment} (h : SegmentAt m b j seg)
    (hk : (k, w) ∈ seg.liveNodes j) :
    2048 * k + w.toNat ≤ 4096 * (j + seg.span) := by
  have hpage : (PAGE_SIZE : Word).toNat = 4096 := rfl
  cases seg with
  | page live =>
      cases live <;> simp [Segment.liveNodes] at hk
      obtain ⟨rfl, rfl⟩ := hk
      rw [Segment.span, hpage]
      omega
  | halves left right liveLeft liveRight =>
      obtain ⟨hleft, hright, -⟩ := h.rest
      rw [BitVec.le_def, show (2048 : Word).toNat = 2048 from rfl] at hleft hright
      rw [Segment.liveNodes, List.mem_append] at hk
      rw [Segment.span]
      rcases hk with hk | hk
      · cases liveLeft <;> simp at hk
        obtain ⟨rfl, rfl⟩ := hk
        omega
      · cases liveRight <;> simp at hk
        obtain ⟨rfl, rfl⟩ := hk
        omega
  | run n =>
      have hn := h.rest.1
      rw [Segment.liveNodes, List.mem_singleton] at hk
      obtain ⟨rfl, rfl⟩ := Prod.mk.inj hk
      rw [Segment.span, toNat_pages hn]
      omega

/-- The headers that are read in the segment of a block lie in front of its
payload or behind it. -/
theorem SegmentAt.beside {j l : ℕ} {seg : Segment} (h : SegmentAt m b j seg)
    (hk : (k, w) ∈ seg.liveNodes j) (hl : l ∈ seg.shown j) :
    l ≤ k ∨ 2048 * k + w.toNat ≤ 2048 * l := by
  have hrange := Segment.liveNodes_range hk
  dsimp only at hrange
  cases seg with
  | page live =>
      rw [Segment.shown, List.mem_singleton] at hl
      omega
  | run n =>
      rw [Segment.shown, List.mem_singleton] at hl
      omega
  | halves left right liveLeft liveRight =>
      obtain ⟨hleft, -⟩ := h.rest
      rw [BitVec.le_def, show (2048 : Word).toNat = 2048 from rfl] at hleft
      rw [Segment.shown, List.mem_cons, List.mem_singleton] at hl
      rw [Segment.liveNodes, List.mem_append] at hk
      rcases hk with hk | hk
      · cases liveLeft <;> simp at hk
        obtain ⟨rfl, rfl⟩ := hk
        omega
      · cases liveRight <;> simp at hk
        omega

theorem SegmentsAt.beside {j l : ℕ} (h : SegmentsAt m b j segs)
    (hk : (k, w) ∈ liveNodes j segs) (hl : l ∈ shown j segs) :
    l ≤ k ∨ 2048 * k + w.toNat ≤ 2048 * l := by
  induction segs generalizing j with
  | nil => exact absurd hk (by simp [liveNodes])
  | cons seg segs ih =>
      rw [liveNodes, List.mem_append] at hk
      rw [shown, List.mem_append] at hl
      rcases hk with hk | hk <;> rcases hl with hl | hl
      · exact h.1.beside hk hl
      · have hend := h.1.block_end hk
        have hrange := shown_range hl
        omega
      · have hrange := Segment.shown_range hl
        have hnode := liveNodes_range hk
        dsimp only at hnode
        omega
      · exact ih h.2 hk hl

theorem SegmentsAt.block_end {j : ℕ} (h : SegmentsAt m b j segs)
    (hk : (k, w) ∈ liveNodes j segs) :
    2048 * k + w.toNat ≤ 4096 * (j + spans segs) := by
  induction segs generalizing j with
  | nil => exact absurd hk (by simp [liveNodes])
  | cons seg segs ih =>
      rw [liveNodes, List.mem_append] at hk
      rw [spans_cons]
      rcases hk with hk | hk
      · have hend := h.1.block_end hk
        omega
      · have hend := ih h.2 hk
        omega

/-- The headers that are read lie in front of the payload of a block or behind
it. -/
theorem PoolAt.beside (h : PoolAt m b segs lastLive) {l : ℕ}
    (hk : (k, w) ∈ poolNodes segs lastLive) (hl : l ∈ poolShown segs) :
    l ≤ k ∨ 2048 * k + w.toNat ≤ 2048 * l := by
  have hle := h.shown_le hl
  have hspans := h.spans_eq
  rw [poolNodes, List.mem_append] at hk
  rw [poolShown, List.mem_append, List.mem_singleton] at hl
  rcases hk with hk | hk
  · rcases hl with hl | rfl
    · exact h.segments.beside hk hl
    · have hend := h.segments.block_end hk
      omega
  · cases lastLive <;> simp at hk
    omega

theorem Segment.mem_shown_of_live {j : ℕ} {seg : Segment}
    (h : (k, w) ∈ seg.liveNodes j) : k ∈ seg.shown j := by
  cases seg with
  | page live => cases live <;> simp_all [liveNodes, shown]
  | run n => simp_all [liveNodes, shown]
  | halves left right liveLeft liveRight =>
      cases liveLeft <;> cases liveRight <;> simp_all [liveNodes, shown]
      tauto

theorem mem_poolShown_of_live (h : (k, w) ∈ poolNodes segs lastLive) :
    k ∈ poolShown segs := by
  rw [poolNodes, List.mem_append] at h
  rcases h with h | h
  · obtain ⟨pre, seg, post, rfl, hseg⟩ := exists_mid_of_mem h
    rw [Nat.zero_add] at hseg
    refine mem_poolShown_mid.2 (Or.inl ?_)
    rw [shown_singleton]
    exact Segment.mem_shown_of_live hseg
  · cases lastLive <;> simp at h
    rw [h.1]
    exact List.mem_append_right _ (List.mem_singleton_self _)

theorem PoolAt.block_end (h : PoolAt m b segs lastLive)
    (hk : (k, w) ∈ poolNodes segs lastLive) :
    2048 * k + w.toNat ≤ 4096 * 3071 := by
  have hspans := h.spans_eq
  rw [poolNodes, List.mem_append] at hk
  rcases hk with hk | hk
  · have hend := h.segments.block_end hk
    omega
  · cases lastLive <;> simp at hk
    obtain ⟨rfl, rfl⟩ := hk
    decide

theorem PoolAt.disjoint_room (h : PoolAt m b segs lastLive)
    (hk : (k, w) ∈ poolNodes segs lastLive) (hl : l ∈ poolShown segs)
    (hne : l ≠ k) : Disjoint (head.recordRegion (slot b l)) (room b k w) := by
  have hle := h.shown_le hl
  have hend := h.block_end hk
  rw [room, slot, slot]
  rcases h.beside hk hl with hlt | hlt
  · exact disjoint_region_of_le b (n := 64) (by omega) (by omega)
  · exact (disjoint_region_of_le b (k := 64) (by omega) (by omega)).symm

theorem PoolAt.disjoint_rooms (h : PoolAt m b segs lastLive)
    (hk : (k, w) ∈ poolNodes segs lastLive)
    (hl : (l, v) ∈ poolNodes segs lastLive) (hne : k ≠ l) :
    Disjoint (room b k w) (room b l v) := by
  have hk' := h.block_end hk
  have hl' := h.block_end hl
  have hkl := h.beside hk (mem_poolShown_of_live hl)
  have hlk := h.beside hl (mem_poolShown_of_live hk)
  rw [room, room, slot, slot]
  rcases Nat.lt_or_gt_of_ne hne with hlt | hlt
  · exact disjoint_region_of_le b (by omega) (by omega)
  · exact (disjoint_region_of_le b (by omega) (by omega)).symm

def SameRooms (lastLive : Bool) (segs segs' : List Segment) : Prop :=
  ∀ k w, (k, w) ∈ poolNodes segs lastLive →
    ∃ w', (k, w') ∈ poolNodes segs' lastLive ∧
      max w'.toNat 2048 = max w.toNat 2048

theorem SameRooms.refl (lastLive : Bool) (segs : List Segment) :
    SameRooms lastLive segs segs :=
  fun _ w hk => ⟨w, hk, rfl⟩

theorem SameRooms.trans {segs'' : List Segment}
    (h : SameRooms lastLive segs segs') (h' : SameRooms lastLive segs' segs'') :
    SameRooms lastLive segs segs'' := by
  intro k w hk
  obtain ⟨w', hk', hw'⟩ := h k w hk
  obtain ⟨w'', hk'', hw''⟩ := h' k w' hk'
  exact ⟨w'', hk'', hw''.trans hw'⟩

/-- A split may change the size that an allocated right half records, but not
its room. -/
theorem Halve.sameRooms (h : Halve segs k segs')
    (hpool : PoolAt m b segs lastLive) : SameRooms lastLive segs segs' := by
  intro l w hl
  cases h with
  | page pre post =>
      refine ⟨w, ?_, rfl⟩
      rw [mem_poolNodes_mid] at hl ⊢
      exact hl.imp_left fun hnone => absurd hnone (by simp [Segment.liveNodes])
  | right pre post left right liveLeft =>
      refine ⟨w, ?_, rfl⟩
      rw [mem_poolNodes_mid] at hl ⊢
      exact hl.imp_left fun hmid => by
        simpa [Segment.liveNodes] using hmid
  | left pre post left right liveRight =>
      obtain ⟨hleft, hright, -⟩ :=
        (hpool.segmentAt (focus_of_mid pre _ post)).rest
      rw [mem_poolNodes_mid] at hl
      rcases hl with hmid | hrest
      · cases liveRight with
        | false => exact absurd hmid (by simp [Segment.liveNodes])
        | true =>
            obtain ⟨rfl, rfl⟩ : l = 2 * spans pre + 1 ∧ w = right := by
              simpa [Segment.liveNodes] using hmid
            refine ⟨left / 2, mem_poolNodes_mid.2 (Or.inl ?_), ?_⟩
            · simp [Segment.liveNodes]
            · have hhalf := half_le hleft
              rw [BitVec.le_def, show (2048 : Word).toNat = 2048 from rfl]
                at hright hhalf
              omega
      · exact ⟨w, mem_poolNodes_mid.2 (Or.inr hrest), rfl⟩

theorem region_subset_room {n : ℕ} (b : Addr) (k : ℕ)
    (hn : 64 + n ≤ max w.toNat 2048) :
    region (slot b k + sizeofHead) n ⊆ room b k w := by
  have hlt := w.isLt
  exact region_subset_of_le (slot b k) hn (by omega)

theorem record_subset_room (b : Addr) (k : ℕ) (w : Word) :
    head.recordRegion (slot b k) ⊆ room b k w :=
  region_mono _ ((show 64 ≤ 2048 by decide).trans (Nat.le_max_right _ _))

theorem PoolAt.disjoint_behind {n : ℕ} (h : PoolAt m b segs lastLive)
    (hk : (k, w) ∈ poolNodes segs lastLive) (hl : l ∈ poolShown segs)
    (hn : 64 + n ≤ max w.toNat 2048) :
    Disjoint (head.recordRegion (slot b l))
      (region (slot b k + sizeofHead) n) := by
  by_cases hlk : l = k
  · have hend := h.block_end hk
    rw [hlk, show head.recordRegion (slot b k) =
      region (slot b k + BitVec.ofNat 64 0) 64 by rw [BitVec.add_zero]; rfl]
    exact disjoint_region_of_le (slot b k) (j := 64) (by decide) (by omega)
  · exact (h.disjoint_room hk hl hlk).mono_right (region_subset_room b k hn)

end

end OptimistOS
