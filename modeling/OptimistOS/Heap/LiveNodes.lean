import OptimistOS.Heap.SegmentSearch

/-!
# The allocated nodes of the pool

`poolNodes` lists the slots of the allocated nodes with the sizes that their
headers give. Marking a node as allocated or as unused changes the list by that
node (`PoolAt.grant`, `PoolAt.release`), and a split leaves the list as it is
unless the right half of the node is allocated (`Halve.liveNodes_eq`).
-/

namespace OptimistOS

open ByteMemory

namespace Segment

/-- The slots and sizes of the allocated nodes of a segment that starts at the
`j`-th page. -/
def liveNodes (j : ℕ) : Segment → List (ℕ × Word)
  | page live => if live then [(2 * j, PAGE_SIZE)] else []
  | halves left right liveLeft liveRight =>
      (if liveLeft then [(2 * j, left)] else []) ++
        if liveRight then [(2 * j + 1, right)] else []
  | run n => [(2 * j, PAGE_SIZE * BitVec.ofNat 64 (n + 1))]

theorem liveNodes_range {j : ℕ} {seg : Segment} {x : ℕ × Word}
    (h : x ∈ seg.liveNodes j) : 2 * j ≤ x.1 ∧ x.1 < 2 * (j + seg.span) := by
  cases seg with
  | page live =>
      cases live <;> simp [liveNodes] at h
      subst h
      exact ⟨le_rfl, by simp [span]⟩
  | halves left right liveLeft liveRight =>
      cases liveLeft <;> cases liveRight <;> simp [liveNodes] at h
      · subst h
        exact ⟨by simp, by simp [span]; omega⟩
      · subst h
        exact ⟨le_rfl, by simp [span]⟩
      · rcases h with rfl | rfl
        · exact ⟨le_rfl, by simp [span]⟩
        · exact ⟨by simp, by simp [span]; omega⟩
  | run n =>
      simp [liveNodes] at h
      subst h
      exact ⟨le_rfl, by simp [span]⟩

end Segment

def liveNodes : ℕ → List Segment → List (ℕ × Word)
  | _, [] => []
  | j, seg :: segs => seg.liveNodes j ++ liveNodes (j + seg.span) segs

@[simp] theorem liveNodes_append (j : ℕ) (xs ys : List Segment) :
    liveNodes j (xs ++ ys) =
      liveNodes j xs ++ liveNodes (j + spans xs) ys := by
  induction xs generalizing j with
  | nil => simp [liveNodes]
  | cons x xs ih =>
      rw [List.cons_append, liveNodes, liveNodes, ih, spans_cons,
        List.append_assoc, Nat.add_assoc]

@[simp] theorem liveNodes_singleton (j : ℕ) (seg : Segment) :
    liveNodes j [seg] = seg.liveNodes j := by
  simp [liveNodes]

theorem liveNodes_range {j : ℕ} {segs : List Segment} {x : ℕ × Word}
    (h : x ∈ liveNodes j segs) :
    2 * j ≤ x.1 ∧ x.1 < 2 * (j + spans segs) := by
  induction segs generalizing j with
  | nil => exact absurd h (by simp [liveNodes])
  | cons seg segs ih =>
      rw [liveNodes, List.mem_append] at h
      rw [spans_cons]
      rcases h with h | h
      · have hseg := Segment.liveNodes_range h
        omega
      · have hrest := ih h
        omega

theorem liveNodes_replicate (j n : ℕ) :
    liveNodes j (List.replicate n (.page false)) = [] := by
  induction n generalizing j with
  | zero => rfl
  | succ n ih =>
      rw [List.replicate_succ, liveNodes, ih]
      rfl

def poolNodes (segs : List Segment) (lastLive : Bool) : List (ℕ × Word) :=
  liveNodes 0 segs ++ if lastLive then [(6142, 0)] else []

theorem mem_poolNodes_mid {pre mid post : List Segment} {lastLive : Bool}
    {x : ℕ × Word} :
    x ∈ poolNodes (pre ++ mid ++ post) lastLive ↔
      x ∈ liveNodes (spans pre) mid ∨ x ∈ liveNodes 0 pre ∨
        x ∈ liveNodes (spans pre + spans mid) post ∨
        (lastLive = true ∧ x = (6142, 0)) := by
  rw [poolNodes, liveNodes_append, liveNodes_append, spans_append,
    Nat.zero_add, Nat.zero_add, List.mem_append, List.mem_append,
    List.mem_append]
  cases lastLive <;> simp <;> tauto

theorem exists_mid_of_mem {j : ℕ} {segs : List Segment} {x : ℕ × Word}
    (h : x ∈ liveNodes j segs) :
    ∃ pre seg post, segs = pre ++ [seg] ++ post ∧
      x ∈ seg.liveNodes (j + spans pre) := by
  induction segs generalizing j with
  | nil => exact absurd h (by simp [liveNodes])
  | cons seg segs ih =>
      rw [liveNodes, List.mem_append] at h
      rcases h with h | h
      · exact ⟨[], seg, segs, rfl, h⟩
      · obtain ⟨pre, seg', post, rfl, hx⟩ := ih h
        refine ⟨seg :: pre, seg', post, rfl, ?_⟩
        rwa [spans_cons, ← Nat.add_assoc]

theorem mem_poolNodes_without {pre mid mid' post : List Segment}
    {lastLive : Bool} {k : ℕ} (hspans : spans mid' = spans mid)
    (hsum : spans (pre ++ mid ++ post) = 3071) (hk : 2 * spans pre ≤ k)
    (hk' : k < 2 * (spans pre + spans mid))
    (hmid : ∀ x, x ∈ liveNodes (spans pre) mid' ↔
      x ∈ liveNodes (spans pre) mid ∧ x.1 ≠ k) (x : ℕ × Word) :
    x ∈ poolNodes (pre ++ mid' ++ post) lastLive ↔
      x ∈ poolNodes (pre ++ mid ++ post) lastLive ∧ x.1 ≠ k := by
  rw [spans_append, spans_append] at hsum
  have hpre : x ∈ liveNodes 0 pre → x.1 ≠ k := fun hx => by
    have hrange := liveNodes_range hx
    omega
  have hpost : x ∈ liveNodes (spans pre + spans mid) post → x.1 ≠ k :=
    fun hx => by
      have hrange := liveNodes_range hx
      omega
  have hlast : x = (6142, 0) → x.1 ≠ k := by
    rintro rfl
    dsimp only
    omega
  rw [mem_poolNodes_mid, mem_poolNodes_mid, hmid, hspans]
  tauto

/-- The header of an allocated node in the `k`-th slot. -/
structure LiveAt (m : Bytes) (b : Addr) (k : ℕ) (size : Word) : Prop where
  slot_le : k ≤ 6142
  status : head.get m (slot b k) .status = Flag.allocated
  size : head.get m (slot b k) .size = size
  childSize : head.get m (slot b k) .childSize =
    if k % 2 = 0 ∧ k ≠ 6142 then 2048 else 0
  isBuddyCoalesced : head.get m (slot b k) .isBuddyCoalesced = 0

section

variable {m : Bytes} {b : Addr} {segs : List Segment} {lastLive : Bool}

theorem NodeAt.liveAt {n : HeapNode} {k : ℕ} (h : NodeAt m (slot b k) n)
    (hk : k ≤ 6142) (hlive : n.live = true)
    (hchild : n.childSize = if k % 2 = 0 ∧ k ≠ 6142 then 2048 else 0) :
    LiveAt m b k n.size :=
  ⟨hk, by rw [h.status, hlive]; rfl, h.size, h.childSize.trans hchild,
    h.isBuddyCoalesced⟩

theorem SegmentAt.liveAt {j : ℕ} {seg : Segment} (h : SegmentAt m b j seg)
    (hj : j + seg.span ≤ 3071) {x : ℕ × Word} (hx : x ∈ seg.liveNodes j) :
    LiveAt m b x.1 x.2 := by
  have hnode := h.node
  rw [page_eq_slot] at hnode
  have heven : 2 * j % 2 = 0 ∧ (2 * j ≠ 6142 ↔ j ≠ 3071) := by omega
  have hspan : 0 < seg.span := by cases seg <;> simp [Segment.span]
  have hleft : (seg.node b j).live = true → (seg.node b j).childSize = 2048 →
      LiveAt m b (2 * j) (seg.node b j).size := fun hlive hchild =>
    hnode.liveAt (by omega) hlive
      (by rw [if_pos ⟨heven.1, heven.2.2 (by omega)⟩, hchild])
  cases seg with
  | page live =>
      cases live <;> simp [Segment.liveNodes] at hx
      subst hx
      exact hleft rfl rfl
  | halves left right liveLeft liveRight =>
      obtain ⟨-, -, l, r, -, -, hright⟩ := h.rest
      rw [rightHalf_eq_slot] at hright
      have hr : liveRight = true → LiveAt m b (2 * j + 1) right := fun hlive =>
        hright.liveAt (by omega) hlive (if_neg (by omega)).symm
      rw [Segment.liveNodes, List.mem_append] at hx
      rcases hx with hx | hx
      · cases liveLeft <;> simp at hx
        subst hx
        exact hleft rfl rfl
      · cases liveRight <;> simp at hx
        subst hx
        exact hr rfl
  | run n =>
      simp [Segment.liveNodes] at hx
      subst hx
      exact hleft rfl rfl

theorem SegmentsAt.liveAt {j : ℕ} (h : SegmentsAt m b j segs)
    (hj : j + spans segs ≤ 3071) {x : ℕ × Word} (hx : x ∈ liveNodes j segs) :
    LiveAt m b x.1 x.2 := by
  induction segs generalizing j with
  | nil => exact absurd hx (by simp [liveNodes])
  | cons seg segs ih =>
      rw [spans_cons] at hj
      rw [liveNodes, List.mem_append] at hx
      rcases hx with hx | hx
      · exact h.1.liveAt (by omega) hx
      · exact ih h.2 (by omega) hx

theorem PoolAt.liveAt (h : PoolAt m b segs lastLive) {x : ℕ × Word}
    (hx : x ∈ poolNodes segs lastLive) : LiveAt m b x.1 x.2 := by
  rw [poolNodes, List.mem_append] at hx
  rcases hx with hx | hx
  · have hspans := h.spans_eq
    exact h.segments.liveAt (by omega) hx
  · cases lastLive <;> simp at hx
    subst hx
    have hlast := h.last
    rw [page_eq_slot] at hlast
    exact hlast.liveAt le_rfl rfl (if_neg (by omega)).symm

end

def Segment.markLeft (live : Bool) : Segment → Segment
  | page _ => page live
  | halves left right _ liveRight => halves left right live liveRight
  | run n => run n

def Segment.markRight (live : Bool) : Segment → Segment
  | halves left right liveLeft _ => halves left right liveLeft live
  | seg => seg

def Flag.ofBool (live : Bool) : Word :=
  if live then Flag.allocated else Flag.unused

theorem NodeAt.setStatus {m : Bytes} {p : Addr} {n : HeapNode}
    (h : NodeAt m p n) (live : Bool) :
    NodeAt (head.set m p .status (Flag.ofBool live)) p
      { n with live := live } := by
  have hother : ∀ f, f ≠ .status →
      head.get (head.set m p .status (Flag.ofBool live)) p f = head.get m p f :=
    fun f hf => head.get_set_of_ne m p _ hf
  have hflag : (Flag.ofBool live).toNat < 2 ^ 32 := by
    cases live <;> decide
  exact ⟨(hother _ (by decide)).trans h.left, (hother _ (by decide)).trans h.right,
    (hother _ (by decide)).trans h.next, (hother _ (by decide)).trans h.size,
    (hother _ (by decide)).trans h.childSize, head_get_set_status m p _ hflag,
    (hother _ (by decide)).trans h.level,
    (hother _ (by decide)).trans h.isBuddyCoalesced⟩

section

variable {m : Bytes} {b : Addr} {lastLive : Bool} {pre post : List Segment}
  {seg : Segment}

theorem PoolAt.mark {seg' : Segment} {p : Addr} {live : Bool}
    (h : PoolAt m b (pre ++ [seg] ++ post) lastLive)
    (hp : head.recordRegion p ⊆ pageHeaders b (spans pre) seg.span)
    (hspan : seg'.span = seg.span)
    (hseg : SegmentAt (head.set m p .status (Flag.ofBool live)) b (spans pre)
      seg') :
    PoolAt (head.set m p .status (Flag.ofBool live)) b (pre ++ [seg'] ++ post)
      lastLive := by
  refine h.replace ((head.agreeOff_set m p .status _).mono ?_) ?_ ⟨hseg, trivial⟩
  · rwa [spans_cons, spans_nil, Nat.add_zero]
  · rw [spans_cons, spans_cons, hspan]

theorem Segment.span_pos (seg : Segment) : 0 < seg.span := by
  cases seg <;> simp [span]

theorem disjoint_pages (b : Addr) {i k : ℕ} (hi : i ≤ 3071) (hk : k ≤ 3071)
    (h : i ≠ k) :
    Disjoint (head.recordRegion (page b i)) (head.recordRegion (page b k)) := by
  rw [page_eq_slot, page_eq_slot]
  exact disjoint_slots b (by omega) (by omega) (by omega)

theorem disjoint_rightHalf_page (b : Addr) {i k : ℕ} (hi : i ≤ 3071)
    (hk : k ≤ 3071) :
    Disjoint (head.recordRegion (rightHalf (page b i)))
      (head.recordRegion (page b k)) := by
  rw [rightHalf_eq_slot, page_eq_slot]
  exact disjoint_slots b (by omega) (by omega) (by omega)

theorem RestAt.congr {m' : Bytes} {j : ℕ} (h : RestAt m b j seg)
    (hj : j + seg.span ≤ 3071)
    (hm : AgreeOff (head.recordRegion (page b j)) m m') :
    RestAt m' b j seg := by
  cases seg with
  | page live =>
      exact NodeAt.congr h hm (disjoint_halves _).symm
  | halves left right liveLeft liveRight =>
      obtain ⟨hleft, hright, l, r, hl, hr, hnode⟩ := h
      exact ⟨hleft, hright, l, r, hl, hr, hnode.congr hm
        (disjoint_halves _).symm⟩
  | run n =>
      obtain ⟨hn, hpages, hrights⟩ := h
      rw [Segment.span] at hj
      exact ⟨hn, fun i hi hi' => (hpages i hi hi').congr hm
          (disjoint_pages b (by omega) (by omega) (by omega)),
        fun i hi => (hrights i hi).congr hm
          (disjoint_rightHalf_page b (by omega) (by omega))⟩

theorem PoolAt.markLeft (h : PoolAt m b (pre ++ [seg] ++ post) lastLive)
    (live : Bool) (hrun : live = false → ∀ n, seg ≠ .run n) :
    PoolAt (head.set m (page b (spans pre)) .status (Flag.ofBool live)) b
      (pre ++ [seg.markLeft live] ++ post) lastLive := by
  have hfocus := focus_of_mid pre seg post
  have hsegment := h.segmentAt hfocus
  have hrest := hsegment.rest.congr (h.focus_le hfocus)
    (head.agreeOff_set m _ .status (Flag.ofBool live))
  have hnode := hsegment.node.setStatus live
  refine h.mark (record_page_subset b le_rfl (by have := seg.span_pos; omega))
    (by cases seg <;> rfl) ?_
  cases seg with
  | page _ => exact ⟨hnode, hrest⟩
  | halves left right _ liveRight => exact ⟨hnode, hrest⟩
  | run n =>
      cases live with
      | false => exact absurd rfl (hrun rfl n)
      | true => exact ⟨hnode, hrest⟩

theorem PoolAt.markRight {left right : Word} {liveLeft liveRight : Bool}
    (h : PoolAt m b (pre ++ [.halves left right liveLeft liveRight] ++ post)
      lastLive) (live : Bool) :
    PoolAt (head.set m (rightHalf (page b (spans pre))) .status
        (Flag.ofBool live)) b
      (pre ++ [.halves left right liveLeft live] ++ post) lastLive := by
  have hsegment := h.segmentAt (focus_of_mid pre _ post)
  obtain ⟨hleft, hright, l, r, hl, hr, hnode⟩ := hsegment.rest
  refine h.mark (record_rightHalf_subset b le_rfl (by simp [Segment.span])) rfl
    ⟨?_, hleft, hright, l, r, hl, hr, hnode.setStatus live⟩
  exact hsegment.node.congr (head.agreeOff_set m _ .status _)
    (disjoint_halves _)

theorem PoolAt.markLast {segs : List Segment} (h : PoolAt m b segs lastLive)
    (live : Bool) :
    PoolAt (head.set m (page b 3071) .status (Flag.ofBool live)) b segs
      live := by
  refine ⟨h.base, h.segments.congr (head.agreeOff_set m _ .status _) ?_,
    h.spans_eq, h.last.setStatus live⟩
  have hspans := h.spans_eq
  exact (disjoint_pageHeaders b (l := 1) (by omega) (by omega)).mono_right
    (record_page_subset b le_rfl (by omega))

end

namespace Segment

theorem mem_markLeft_true (b : Addr) {j : ℕ} {seg : Segment} {x : ℕ × Word} :
    x ∈ (seg.markLeft true).liveNodes j ↔
      x ∈ seg.liveNodes j ∨ x = (2 * j, (seg.node b j).size) := by
  cases seg with
  | page live => cases live <;> simp [markLeft, liveNodes, node]
  | halves left right liveLeft liveRight =>
      cases liveLeft <;> simp [markLeft, liveNodes, node] <;> tauto
  | run n => simp [markLeft, liveNodes, node]

theorem mem_markLeft_false {j : ℕ} {seg : Segment} {x : ℕ × Word}
    (hrun : ∀ n, seg ≠ run n) :
    x ∈ (seg.markLeft false).liveNodes j ↔
      x ∈ seg.liveNodes j ∧ x.1 ≠ 2 * j := by
  have hne : ∀ w, x = (2 * j + 1, w) → x.1 ≠ 2 * j := by
    rintro w rfl
    exact Nat.succ_ne_self _
  cases seg with
  | page live =>
      cases live <;> simp [markLeft, liveNodes]
      rintro rfl
      rfl
  | halves left right liveLeft liveRight =>
      have heq : x = (2 * j, left) → x.1 = 2 * j := by
        rintro rfl
        rfl
      have hr := hne right
      cases liveLeft <;> cases liveRight <;> simp [markLeft, liveNodes] <;> tauto
  | run n => exact absurd rfl (hrun n)

theorem mem_markRight_true {j : ℕ} {left right : Word} {liveLeft : Bool}
    (liveRight : Bool) {x : ℕ × Word} :
    x ∈ (halves left right liveLeft true).liveNodes j ↔
      x ∈ (halves left right liveLeft liveRight).liveNodes j ∨
        x = (2 * j + 1, right) := by
  cases liveLeft <;> cases liveRight <;> simp [liveNodes]

theorem mem_markRight_false {j : ℕ} {left right : Word} {liveLeft : Bool}
    (liveRight : Bool) {x : ℕ × Word} :
    x ∈ (halves left right liveLeft false).liveNodes j ↔
      x ∈ (halves left right liveLeft liveRight).liveNodes j ∧
        x.1 ≠ 2 * j + 1 := by
  have heq : x = (2 * j + 1, right) → x.1 = 2 * j + 1 := by
    rintro rfl
    rfl
  have hne : x = (2 * j, left) → x.1 ≠ 2 * j + 1 := by
    rintro rfl
    exact (Nat.succ_ne_self _).symm
  cases liveLeft <;> cases liveRight <;> simp [liveNodes] <;> tauto

/-- The halves of a page have the sizes of half a page. -/
def Even : Segment → Prop
  | halves left right _ _ => left = 2048 ∧ right = 2048
  | _ => True

end Segment

/-- All the pages that were split are in two halves of the same size. -/
def EvenHalves (segs : List Segment) : Prop := ∀ seg ∈ segs, seg.Even

theorem EvenHalves.replace {pre mid mid' post : List Segment}
    (h : EvenHalves (pre ++ mid ++ post)) (hmid : EvenHalves mid → EvenHalves mid') :
    EvenHalves (pre ++ mid' ++ post) := by
  have hsub : EvenHalves mid := fun seg hseg => h seg (by simp [hseg])
  intro seg hseg
  rw [List.mem_append, List.mem_append] at hseg
  rcases hseg with (hseg | hseg) | hseg
  · exact h seg (by simp [hseg])
  · exact hmid hsub seg hseg
  · exact h seg (by simp [hseg])

theorem EvenHalves.replace_one {pre post : List Segment} {seg seg' : Segment}
    (h : EvenHalves (pre ++ [seg] ++ post)) (hseg : seg.Even → seg'.Even) :
    EvenHalves (pre ++ [seg'] ++ post) :=
  h.replace fun hmid s hs => by
    rw [List.mem_singleton.1 hs]
    exact hseg (hmid seg (by simp))

def HalvesFrom (segs segs' : List Segment) : Prop :=
  ∀ left right liveLeft liveRight,
    .halves left right liveLeft liveRight ∈ segs' →
      ∃ liveLeft' liveRight', .halves left right liveLeft' liveRight' ∈ segs

theorem HalvesFrom.refl (segs : List Segment) : HalvesFrom segs segs :=
  fun _ _ liveLeft liveRight h => ⟨liveLeft, liveRight, h⟩

theorem halvesFrom_of_forall_ne {segs segs' : List Segment}
    (h : ∀ left right liveLeft liveRight,
      .halves left right liveLeft liveRight ∉ segs') : HalvesFrom segs segs' :=
  fun left right liveLeft liveRight hmem =>
    absurd hmem (h left right liveLeft liveRight)

theorem halvesFrom_markLeft (seg : Segment) (live : Bool) :
    HalvesFrom [seg] [seg.markLeft live] := by
  intro left right liveLeft liveRight h
  cases seg with
  | halves l r ll lr =>
      rw [List.mem_singleton, Segment.markLeft] at h
      obtain ⟨rfl, rfl, -, rfl⟩ := Segment.halves.inj h
      exact ⟨ll, liveRight, List.mem_singleton_self _⟩
  | page _ | run _ => exact absurd h (by simp [Segment.markLeft])

theorem halvesFrom_markRight (left right : Word)
    (liveLeft liveRight live : Bool) :
    HalvesFrom [.halves left right liveLeft liveRight]
      [.halves left right liveLeft live] := by
  intro l r ll lr h
  obtain ⟨rfl, rfl, rfl, -⟩ := Segment.halves.inj (List.mem_singleton.1 h)
  exact ⟨ll, liveRight, List.mem_singleton_self _⟩

theorem HalvesFrom.replace {mid mid' : List Segment} (h : HalvesFrom mid mid')
    (pre post : List Segment) :
    HalvesFrom (pre ++ mid ++ post) (pre ++ mid' ++ post) := by
  intro left right liveLeft liveRight hmem
  rw [List.mem_append, List.mem_append] at hmem
  rcases hmem with (hmem | hmem) | hmem
  · exact ⟨liveLeft, liveRight, by simp [hmem]⟩
  · obtain ⟨ll, lr, hmid⟩ := h left right liveLeft liveRight hmem
    exact ⟨ll, lr, by simp [hmid]⟩
  · exact ⟨liveLeft, liveRight, by simp [hmem]⟩

theorem HalvesFrom.even {segs segs' : List Segment} (h : HalvesFrom segs segs')
    (heven : EvenHalves segs) : EvenHalves segs' := by
  intro seg hseg
  cases seg with
  | halves left right liveLeft liveRight =>
      obtain ⟨ll, lr, hmem⟩ := h left right liveLeft liveRight hseg
      exact (heven _ hmem :)
  | page _ | run _ => trivial

theorem Halve.slots_eq {segs segs' : List Segment} {k : ℕ}
    (h : Halve segs k segs') :
    (liveNodes 0 segs').map Prod.fst = (liveNodes 0 segs).map Prod.fst := by
  cases h with
  | page pre post => simp [liveNodes, Segment.liveNodes, Segment.span]
  | left pre post left right liveRight =>
      cases liveRight <;> simp [liveNodes, Segment.liveNodes, Segment.span]
  | right pre post left right liveLeft =>
      simp [liveNodes, Segment.liveNodes, Segment.span]

/-- A split next to no allocated right half leaves the allocated nodes as they
are. -/
theorem Halve.liveNodes_eq {segs segs' : List Segment} {k : ℕ}
    (h : Halve segs k segs')
    (hright : k % 2 = 0 → ∀ w, (k + 1, w) ∉ liveNodes 0 segs) :
    liveNodes 0 segs' = liveNodes 0 segs := by
  cases h with
  | page pre post => simp [liveNodes, Segment.liveNodes, Segment.span]
  | left pre post left right liveRight =>
      cases liveRight with
      | false => simp [liveNodes, Segment.liveNodes, Segment.span]
      | true =>
          refine absurd ?_ (hright (Nat.mul_mod_right 2 _) right)
          simp [liveNodes, Segment.liveNodes]
  | right pre post left right liveLeft =>
      simp [liveNodes, Segment.liveNodes, Segment.span]

section

variable {m : Bytes} {b : Addr} {segs : List Segment} {lastLive : Bool}

theorem PoolAt.grantLeft {pre post : List Segment} {seg : Segment}
    (h : PoolAt m b (pre ++ [seg] ++ post) lastLive) :
    PoolAt (head.set m (page b (spans pre)) .status Flag.allocated) b
        (pre ++ [seg.markLeft true] ++ post) lastLive ∧
      ∀ x, x ∈ poolNodes (pre ++ [seg.markLeft true] ++ post) lastLive ↔
        x ∈ poolNodes (pre ++ [seg] ++ post) lastLive ∨
          x = (2 * spans pre, (seg.node b (spans pre)).size) := by
  refine ⟨h.markLeft true (by simp), fun x => ?_⟩
  have hspan : (seg.markLeft true).span = seg.span := by cases seg <;> rfl
  rw [mem_poolNodes_mid, mem_poolNodes_mid, liveNodes_singleton,
    liveNodes_singleton, Segment.mem_markLeft_true b, spans_cons, spans_cons,
    hspan]
  tauto

theorem PoolAt.grantRight {pre post : List Segment} {left right : Word}
    {liveLeft liveRight : Bool}
    (h : PoolAt m b (pre ++ [.halves left right liveLeft liveRight] ++ post)
      lastLive) :
    PoolAt (head.set m (rightHalf (page b (spans pre))) .status
        Flag.allocated) b (pre ++ [.halves left right liveLeft true] ++ post)
        lastLive ∧
      ∀ x, x ∈ poolNodes (pre ++ [.halves left right liveLeft true] ++ post)
          lastLive ↔
        x ∈ poolNodes (pre ++ [.halves left right liveLeft liveRight] ++ post)
            lastLive ∨ x = (2 * spans pre + 1, right) := by
  refine ⟨h.markRight true, fun x => ?_⟩
  rw [mem_poolNodes_mid, mem_poolNodes_mid, liveNodes_singleton,
    liveNodes_singleton, Segment.mem_markRight_true liveRight,
    spans_cons, spans_cons, Segment.span, Segment.span]
  tauto

/-- The node that the search ends at is handed out. -/
theorem PoolAt.grant (h : PoolAt m b segs lastLive) {k : ℕ}
    (hk : Current segs k) :
    ∃ segs' lastLive',
      PoolAt (head.set m (slot b k) .status Flag.allocated) b segs' lastLive' ∧
      (∀ x, x ∈ poolNodes segs' lastLive' ↔ x ∈ poolNodes segs lastLive ∨
        x = (k, head.get m (slot b k) .size)) ∧
      HalvesFrom segs segs' ∧
      ∀ l ∈ poolShown segs', l ∈ poolShown segs := by
  cases hk with
  | @page j seg hf =>
      have hsize := (h.segmentAt hf).node.size
      obtain ⟨pre, post, rfl, rfl⟩ := focus_mid hf
      obtain ⟨hpool, hnodes⟩ := h.grantLeft
      rw [← page_eq_slot, hsize]
      refine ⟨_, _, hpool, hnodes, (halvesFrom_markLeft seg true).replace _ _,
        fun l hl => ?_⟩
      exact poolShown_subset (by cases seg <;> rfl) (fun k hk => by
        rw [shown_singleton] at hk ⊢
        cases seg <;> exact hk) hl
  | @right j left right liveLeft hf =>
      obtain ⟨-, -, l, r, -, -, hnode⟩ := (h.segmentAt hf).rest
      obtain ⟨pre, post, rfl, rfl⟩ := focus_mid hf
      obtain ⟨hpool, hnodes⟩ := h.grantRight
      rw [← rightHalf_eq_slot, hnode.size]
      exact ⟨_, _, hpool, hnodes,
        (halvesFrom_markRight left right liveLeft false true).replace _ _,
        fun l hl => poolShown_subset (by simp [Segment.span])
          (by simp [Segment.shown]) hl⟩
  | last =>
      have hmark := h.markLast true
      have hlast := h.last
      rw [page_eq_slot] at hmark hlast
      refine ⟨_, _, hmark, fun x => ?_, .refl _, fun _ hl => hl⟩
      rw [hlast.size, poolNodes, poolNodes, List.mem_append, List.mem_append]
      cases lastLive <;> simp

end

end OptimistOS
