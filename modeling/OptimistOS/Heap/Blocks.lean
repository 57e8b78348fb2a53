import OptimistOS.Heap.LiveNodes

/-!
# Blocks of several pages

`coalesceBlocks` makes one block of pages that are unused and whole, and `freex`
makes whole pages of it again. Both only touch the headers of these pages.
-/

namespace OptimistOS

open ByteMemory ByteMemory.Code

def pageRecords (b : Addr) (j n : ℕ) : Set Addr :=
  {x | ∃ i ≤ n, x ∈ head.recordRegion (page b (j + i))}

def unusedPage (b : Addr) (j : ℕ) : HeapNode :=
  ⟨0, 0, page b (j + 1), PAGE_SIZE, 2048, false⟩

section

variable {m : Bytes} {b : Addr} {j n : ℕ}

theorem pageRecords_subset (b : Addr) (j n : ℕ) :
    pageRecords b j n ⊆ pageHeaders b j (n + 1) := by
  rintro x ⟨i, hi, hx⟩
  exact record_page_subset b (by omega) (by omega) hx

theorem disjoint_rightHalf_pageRecords (b : Addr) {i : ℕ} (hi : i ≤ 3071)
    (hj : j + n ≤ 3071) :
    Disjoint (head.recordRegion (rightHalf (page b i))) (pageRecords b j n) := by
  rw [Set.disjoint_right]
  rintro x ⟨k, hk, hx⟩
  exact Set.disjoint_right.1
    (disjoint_rightHalf_page b hi (by omega : j + k ≤ 3071)) hx

/-- A page is cut off: both page nodes are then those of whole pages. -/
theorem freePage_spec (hj : j + 1 ≤ 3071) {next size : Word} {second : HeapNode}
    (h : NodeAt m (page b j) ⟨0, 0, next, size, 2048, false⟩)
    (hsecond : NodeAt m (page b (j + 1)) second) (hleft : second.left = 0)
    (hright : second.right = 0) :
    NodeAt (freePage m (page b j)) (page b j) (unusedPage b j) ∧
      NodeAt (freePage m (page b j)) (page b (j + 1)) (unusedPage b (j + 1)) ∧
      AgreeOff (head.recordRegion (page b j) ∪
        head.recordRegion (page b (j + 1))) m (freePage m (page b j)) := by
  have hdisj := disjoint_pages b (i := j) (k := j + 1) (by omega) hj (by omega)
  have hq := page_add_PAGE_SIZE b j
  have hr := page_add_PAGE_SIZE b (j + 1)
  rw [unusedPage, unusedPage]
  generalize page b j = p at *
  generalize page b (j + 1) = q at *
  have hfirst : ∀ (m : Bytes) (f g : Head) (v : Word),
      head.get (head.set m q g v) p f = head.get m p f :=
    fun m f g v => head.get_set_of_disjoint head m f g v hdisj
  have hlast : ∀ (m : Bytes) (f g : Head) (v : Word),
      head.get (head.set m p g v) q f = head.get m q f :=
    fun m f g v => head.get_set_of_disjoint head m f g v hdisj.symm
  have hlevel : ∀ (m : Bytes) (p : Addr),
      head.get (head.set m p .level 0) p .level = 0 :=
    fun m p => head.get_set_self m p .level (by decide)
  have hhalf : PAGE_SIZE / 2 = (2048 : Word) := by decide
  refine ⟨?_, ?_, ?_⟩
  · constructor <;>
      simp (disch := decide) only [freePage, hq, hr, hfirst,
        head.get_set_of_ne, head_get_set_self, h.left, h.right, h.childSize,
        h.status, h.level, h.isBuddyCoalesced]
  · constructor <;>
      simp (disch := decide) only [freePage, hq, hr, head.get_set_of_ne, hlast,
        head_get_set_self, head_get_set_unused, hlevel, hhalf, hsecond.left,
        hsecond.right, hleft, hright, hsecond.isBuddyCoalesced,
        Bool.false_eq_true, if_false]
  · intro x hx
    simp only [Set.mem_union, not_or] at hx
    have hp : ∀ (m : Bytes) (f : Head) (v : Word), head.set m p f v x = m x :=
      fun m f v => (head.agreeOff_set m p f v x hx.1).symm
    have hq' : ∀ (m : Bytes) (f : Head) (v : Word), head.set m q f v x = m x :=
      fun m f v => (head.agreeOff_set m q f v x hx.2).symm
    rw [freePage, hq, hp, hp, hq', hq', hq', hq', hq', hq']

/-- The loop of `freex` over the pages of a block. -/
theorem freePages_spec (hj : j + (n + 1) ≤ 3071) {next size : Word}
    (h : NodeAt m (page b j) ⟨0, 0, next, size, 2048, false⟩)
    (hrest : ∀ i, 0 < i → i ≤ n + 1 →
      NodeAt m (page b (j + i)) (unusedPage b (j + i))) :
    (∀ i ≤ n + 1, NodeAt (freePages (n + 1) m (page b j)) (page b (j + i))
      (unusedPage b (j + i))) ∧
      AgreeOff (pageRecords b j (n + 1)) m
        (freePages (n + 1) m (page b j)) := by
  induction n generalizing j m next size with
  | zero =>
      obtain ⟨hfirst, hsecond, hm⟩ := freePage_spec hj h
        (hrest 1 (by omega) le_rfl) rfl rfl
      refine ⟨fun i hi => ?_, hm.mono ?_⟩
      · rcases i with _ | i
        · exact hfirst
        · obtain rfl : i = 0 := by omega
          exact hsecond
      · rintro x (hx | hx)
        · exact ⟨0, by omega, hx⟩
        · exact ⟨1, by omega, hx⟩
  | succ n ih =>
      obtain ⟨hfirst, hsecond, hm⟩ := freePage_spec (by omega) h
        (hrest 1 (by omega) (by omega)) rfl rfl
      have hpages : ∀ i, 0 < i → i ≤ n + 1 → NodeAt (freePage m (page b j))
          (page b (j + 1 + i)) (unusedPage b (j + 1 + i)) := by
        intro i hi hi'
        rw [show j + 1 + i = j + (i + 1) by ring]
        exact (hrest (i + 1) (by omega) (by omega)).congr hm (Disjoint.sup_right
          (disjoint_pages b (by omega) (by omega) (by omega))
          (disjoint_pages b (by omega) (by omega) (by omega)))
      obtain ⟨hall, hagree⟩ := ih (j := j + 1) (by omega) hsecond hpages
      have hstep : freePages (n + 1 + 1) m (page b j) =
          freePages (n + 1) (freePage m (page b j)) (page b (j + 1)) := by
        rw [freePages, page_add_PAGE_SIZE]
      rw [hstep]
      refine ⟨fun i hi => ?_, (hm.trans hagree).mono ?_⟩
      · rcases i with _ | i
        · refine hfirst.congr hagree ?_
          rw [Set.disjoint_right]
          rintro x ⟨k, hk, hx⟩
          exact Set.disjoint_right.1 (disjoint_pages b (i := j + 0) (by omega)
            (by omega : j + 1 + k ≤ 3071) (by omega)) hx
        · have hi' := hall i (by omega)
          rwa [show j + 1 + i = j + (i + 1) by ring] at hi'
      · rintro x ((hx | hx) | ⟨i, hi, hx⟩)
        · exact ⟨0, by omega, hx⟩
        · exact ⟨1, by omega, hx⟩
        · refine ⟨i + 1, by omega, ?_⟩
          rwa [show j + (i + 1) = j + 1 + i by ring]

theorem freeNode_of_le {p : Addr}
    (hbuddy : head.get m p .isBuddyCoalesced = 0)
    (hsize : head.get m p .size ≤ PAGE_SIZE) :
    freeNode m p = head.set m p .status (Flag.ofBool false) := by
  have hother : ∀ f, f ≠ .status →
      head.get (head.set m p .status Flag.unused) p f = head.get m p f :=
    fun f hf => head.get_set_of_ne m p _ hf
  rw [freeNode, hother _ (by decide), hother _ (by decide), hbuddy,
    if_neg (not_not.2 rfl), if_neg (BitVec.not_lt.2 hsize)]
  rfl

theorem toNat_pages (hn : n ≤ 3) :
    (PAGE_SIZE * BitVec.ofNat 64 (n + 1)).toNat = 4096 * (n + 1) := by
  rw [BitVec.toNat_mul, BitVec.toNat_ofNat,
    show (PAGE_SIZE : Word).toNat = 4096 from rfl]
  omega

theorem freeNode_of_pages {p : Addr} (hn : n ≤ 2)
    (hbuddy : head.get m p .isBuddyCoalesced = 0)
    (hsize : head.get m p .size = PAGE_SIZE * BitVec.ofNat 64 (n + 2)) :
    freeNode m p =
      freePages (n + 1) (head.set m p .status (Flag.ofBool false)) p := by
  have hother : ∀ f, f ≠ .status →
      head.get (head.set m p .status Flag.unused) p f = head.get m p f :=
    fun f hf => head.get_set_of_ne m p _ hf
  have hnat := toNat_pages (n := n + 1) (by omega)
  have hpage : (PAGE_SIZE : Word).toNat = 4096 := rfl
  have hlt : PAGE_SIZE < PAGE_SIZE * BitVec.ofNat 64 (n + 2) := by
    rw [BitVec.lt_def, hnat, hpage]
    omega
  have hdiv : PAGE_SIZE * BitVec.ofNat 64 (n + 2) / PAGE_SIZE =
      BitVec.ofNat 64 (n + 2) := by
    refine BitVec.eq_of_toNat_eq ?_
    rw [BitVec.toNat_udiv, hnat, hpage, BitVec.toNat_ofNat]
    omega
  have hcount : (BitVec.ofNat 64 (n + 2) - 1).toNat = n + 1 := by
    have hone : (1 : Word).toNat = 1 := rfl
    rw [BitVec.toNat_sub, BitVec.toNat_ofNat, hone]
    omega
  rw [freeNode, hother _ (by decide), hother _ (by decide), hbuddy, hsize,
    if_neg (not_not.2 rfl), if_pos hlt, hdiv, hcount]
  rfl

/-- `freex` makes whole pages of a block again. -/
theorem SegmentAt.freeNode_run (h : SegmentAt m b j (.run n))
    (hj : j + (n + 1) ≤ 3071) :
    SegmentsAt (freeNode m (page b j)) b j
        (List.replicate (n + 1) (.page false)) ∧
      AgreeOff (pageHeaders b j (n + 1)) m (freeNode m (page b j)) := by
  obtain ⟨hn, hpages, hrights⟩ := h.rest
  have hnode := h.node
  have hstatus := head.agreeOff_set m (page b j) .status (Flag.ofBool false)
  have hfirst := hnode.setStatus false
  have hall : (∀ i ≤ n, NodeAt (freeNode m (page b j)) (page b (j + i))
        (unusedPage b (j + i))) ∧
      AgreeOff (pageRecords b j n) m (freeNode m (page b j)) := by
    rcases n with _ | n
    · -- a block of one page
      have hsize : head.get m (page b j) .size = PAGE_SIZE :=
        hnode.size.trans
          (show PAGE_SIZE * BitVec.ofNat 64 1 = PAGE_SIZE by decide)
      rw [freeNode_of_le hnode.isBuddyCoalesced (hsize ▸ BitVec.le_refl _)]
      refine ⟨fun i hi => ?_, hstatus.mono fun x hx => ⟨0, le_rfl, hx⟩⟩
      obtain rfl : i = 0 := by omega
      exact hfirst
    · rw [freeNode_of_pages (by omega) hnode.isBuddyCoalesced hnode.size]
      obtain ⟨hnodes, hagree⟩ := freePages_spec (n := n) (by omega) hfirst
        fun i hi hi' => (hpages i hi hi').congr hstatus
          (disjoint_pages b (by omega) (by omega) (by omega))
      refine ⟨hnodes, (hstatus.trans hagree).mono (Set.union_subset ?_ le_rfl)⟩
      exact fun x hx => ⟨0, Nat.zero_le _, hx⟩
  refine ⟨(segmentsAt_replicate rfl).2 fun i hi => ⟨hall.1 i (by omega), ?_⟩,
    hall.2.mono (pageRecords_subset b j n)⟩
  exact (hrights i (by omega)).congr hall.2
    (disjoint_rightHalf_pageRecords b (by omega) (by omega))

section

variable {lastLive : Bool} {pre post : List Segment}

theorem PoolAt.releaseLeft {seg : Segment}
    (h : PoolAt m b (pre ++ [seg] ++ post) lastLive) {w : Word}
    (hlive : LiveAt m b (2 * spans pre) w) (hw : w ≤ PAGE_SIZE)
    (hrun : ∀ n, seg ≠ .run n) :
    PoolAt (freeNode m (page b (spans pre))) b
        (pre ++ [seg.markLeft false] ++ post) lastLive ∧
      ∀ x, x ∈ poolNodes (pre ++ [seg.markLeft false] ++ post) lastLive ↔
        x ∈ poolNodes (pre ++ [seg] ++ post) lastLive ∧
          x.1 ≠ 2 * spans pre := by
  have hbuddy := hlive.isBuddyCoalesced
  have hsize := hlive.size
  rw [← page_eq_slot] at hbuddy hsize
  rw [freeNode_of_le hbuddy (hsize ▸ hw)]
  refine ⟨h.markLeft false fun _ => hrun, mem_poolNodes_without
    (by cases seg <;> rfl) h.spans_eq le_rfl ?_ fun x => ?_⟩
  · have hspan := seg.span_pos
    rw [spans_cons, spans_nil]
    omega
  · rw [liveNodes_singleton, liveNodes_singleton, Segment.mem_markLeft_false hrun]

theorem PoolAt.releaseRight {left right : Word} {liveLeft liveRight : Bool}
    (h : PoolAt m b (pre ++ [.halves left right liveLeft liveRight] ++ post)
      lastLive)
    (hlive : LiveAt m b (2 * spans pre + 1) right) (hright : right ≤ 2048) :
    PoolAt (freeNode m (rightHalf (page b (spans pre)))) b
        (pre ++ [.halves left right liveLeft false] ++ post) lastLive ∧
      ∀ x, x ∈ poolNodes (pre ++ [.halves left right liveLeft false] ++ post)
          lastLive ↔
        x ∈ poolNodes (pre ++ [.halves left right liveLeft liveRight] ++ post)
            lastLive ∧ x.1 ≠ 2 * spans pre + 1 := by
  have hbuddy := hlive.isBuddyCoalesced
  have hsize := hlive.size
  have hle : right ≤ PAGE_SIZE := BitVec.le_trans hright (by decide)
  rw [← rightHalf_eq_slot] at hbuddy hsize
  rw [freeNode_of_le hbuddy (hsize.symm ▸ hle)]
  refine ⟨h.markRight false, mem_poolNodes_without (by rfl) h.spans_eq
    (by omega) ?_ fun x => ?_⟩
  · rw [spans_cons, spans_nil, Segment.span]
    omega
  · rw [liveNodes_singleton, liveNodes_singleton,
      Segment.mem_markRight_false liveRight]

theorem PoolAt.releaseRun
    (h : PoolAt m b (pre ++ [.run n] ++ post) lastLive) :
    PoolAt (freeNode m (page b (spans pre))) b
        (pre ++ List.replicate (n + 1) (.page false) ++ post) lastLive ∧
      ∀ x, x ∈ poolNodes (pre ++ List.replicate (n + 1) (.page false) ++ post)
          lastLive ↔
        x ∈ poolNodes (pre ++ [.run n] ++ post) lastLive ∧
          x.1 ≠ 2 * spans pre := by
  have hfocus := focus_of_mid pre (.run n) post
  obtain ⟨hpages, hm⟩ := (h.segmentAt hfocus).freeNode_run (h.focus_le hfocus)
  have hlen : spans (List.replicate (n + 1) (.page false)) = spans [.run n] :=
    spans_replicate_page (n + 1) false
  refine ⟨h.replace hm hlen hpages, mem_poolNodes_without hlen h.spans_eq le_rfl
    ?_ fun x => ?_⟩
  · rw [spans_cons, spans_nil, Segment.span]
    omega
  · have hfirst : x = (2 * spans pre, PAGE_SIZE * BitVec.ofNat 64 (n + 1)) →
        x.1 = 2 * spans pre := by
      rintro rfl
      rfl
    rw [liveNodes_replicate, liveNodes_singleton, Segment.liveNodes,
      List.mem_singleton]
    exact iff_of_false List.not_mem_nil fun hx => hx.2 (hfirst hx.1)

theorem PoolAt.releaseLast {segs : List Segment}
    (h : PoolAt m b segs true) :
    PoolAt (freeNode m (slot b 6142)) b segs false ∧
      ∀ x, x ∈ poolNodes segs false ↔
        x ∈ poolNodes segs true ∧ x.1 ≠ 6142 := by
  have hlast := h.last
  have hspans := h.spans_eq
  rw [page_eq_slot] at hlast
  rw [freeNode_of_le hlast.isBuddyCoalesced (by rw [hlast.size]; decide)]
  have hmark := h.markLast false
  rw [page_eq_slot] at hmark
  refine ⟨hmark, fun x => ?_⟩
  have hne : x ∈ liveNodes 0 segs → x.1 ≠ 6142 := fun hx => by
    have hrange := liveNodes_range hx
    omega
  have heq : x = (6142, 0) → x.1 = 6142 := by
    rintro rfl
    rfl
  rw [poolNodes, poolNodes, List.mem_append, List.mem_append]
  simp only [Bool.false_eq_true, if_false, List.not_mem_nil, or_false, if_true,
    List.mem_singleton]
  exact ⟨fun hx => ⟨Or.inl hx, hne hx⟩, fun hx =>
    hx.1.resolve_right fun hx' => hx.2 (heq hx')⟩

def InnerPage (segs : List Segment) (k l : ℕ) : Prop :=
  ∃ j n i, Focus segs j (.run n) ∧ k = 2 * j ∧ 0 < i ∧ i ≤ n ∧
    l = 2 * (j + i)

theorem mem_shown_replicate {j n l : ℕ}
    (h : l ∈ shown j (List.replicate n (.page false))) :
    ∃ i < n, l = 2 * (j + i) := by
  induction n generalizing j with
  | zero => exact absurd h (by simp [shown])
  | succ n ih =>
      rw [List.replicate_succ, shown, List.mem_append, Segment.shown,
        List.mem_singleton] at h
      rcases h with h | h
      · exact ⟨0, Nat.succ_pos n, h⟩
      · obtain ⟨i, hi, hl⟩ := ih h
        rw [Segment.span] at hl
        exact ⟨i + 1, by omega, by rw [hl]; ring⟩

theorem mem_poolShown_freed {pre post : List Segment} {n l : ℕ}
    (hl : l ∈ poolShown (pre ++ List.replicate (n + 1) (.page false) ++ post)) :
    l ∈ poolShown (pre ++ [.run n] ++ post) ∨
      InnerPage (pre ++ [.run n] ++ post) (2 * spans pre) l := by
  rw [mem_poolShown_mid, spans_replicate_page] at hl
  rcases hl with hl | hl
  · obtain ⟨i, hi, rfl⟩ := mem_shown_replicate hl
    rcases Nat.eq_zero_or_pos i with rfl | hpos
    · refine Or.inl (mem_poolShown_mid.2 (Or.inl ?_))
      simp [Segment.shown]
    · exact Or.inr ⟨_, n, i, focus_of_mid pre _ post, rfl, hpos, by omega, rfl⟩
  · refine Or.inl (mem_poolShown_mid.2 (Or.inr ?_))
    rwa [spans_cons, spans_nil]

/-- A live block is given back. -/
theorem PoolAt.release {segs : List Segment} (h : PoolAt m b segs lastLive)
    {k : ℕ} {w : Word} (hk : (k, w) ∈ poolNodes segs lastLive) :
    ∃ segs' lastLive', PoolAt (freeNode m (slot b k)) b segs' lastLive' ∧
      (∀ x, x ∈ poolNodes segs' lastLive' ↔
        x ∈ poolNodes segs lastLive ∧ x.1 ≠ k) ∧
      HalvesFrom segs segs' ∧
      ∀ l ∈ poolShown segs', l ∈ poolShown segs ∨ InnerPage segs k l := by
  have hlive := h.liveAt hk
  rw [poolNodes, List.mem_append] at hk
  rcases hk with hk | hk
  · obtain ⟨pre, seg, post, rfl, hseg⟩ := exists_mid_of_mem hk
    rw [Nat.zero_add] at hseg
    have hsame : ∀ seg' : Segment, seg'.span = seg.span →
        (∀ l ∈ seg'.shown (spans pre), l ∈ seg.shown (spans pre)) →
        ∀ l ∈ poolShown (pre ++ [seg'] ++ post),
          l ∈ poolShown (pre ++ [seg] ++ post) ∨
            InnerPage (pre ++ [seg] ++ post) k l := by
      intro seg' hspan hshown l hl
      refine Or.inl (poolShown_subset ?_ ?_ hl)
      · rw [spans_cons, spans_cons, hspan]
      · rwa [shown_singleton, shown_singleton]
    cases seg with
    | page live =>
        cases live <;> simp [Segment.liveNodes] at hseg
        obtain ⟨rfl, rfl⟩ := hseg
        obtain ⟨hpool, hnodes⟩ := h.releaseLeft hlive (BitVec.le_refl _)
          (by simp)
        rw [← page_eq_slot]
        exact ⟨_, _, hpool, hnodes,
          (halvesFrom_markLeft (.page true) false).replace _ _,
          hsame _ rfl fun _ hl => hl⟩
    | halves left right liveLeft liveRight =>
        obtain ⟨hl, hr, -⟩ := (h.segmentAt (focus_of_mid pre _ post)).rest
        rw [Segment.liveNodes, List.mem_append] at hseg
        rcases hseg with hseg | hseg
        · cases liveLeft <;> simp at hseg
          obtain ⟨rfl, rfl⟩ := hseg
          obtain ⟨hpool, hnodes⟩ := h.releaseLeft hlive
            (BitVec.le_trans hl (by decide)) (by simp)
          rw [← page_eq_slot]
          exact ⟨_, _, hpool, hnodes,
            (halvesFrom_markLeft (.halves w right true liveRight)
              false).replace _ _, hsame _ rfl fun _ hl => hl⟩
        · cases liveRight <;> simp at hseg
          obtain ⟨rfl, rfl⟩ := hseg
          obtain ⟨hpool, hnodes⟩ := h.releaseRight hlive hr
          rw [← rightHalf_eq_slot]
          exact ⟨_, _, hpool, hnodes,
            (halvesFrom_markRight left w liveLeft true false).replace _ _,
            hsame _ rfl fun _ hl => hl⟩
    | run n =>
        rw [Segment.liveNodes, List.mem_singleton] at hseg
        obtain ⟨rfl, -⟩ := Prod.mk.inj hseg
        obtain ⟨hpool, hnodes⟩ := h.releaseRun
        rw [← page_eq_slot]
        refine ⟨_, _, hpool, hnodes,
          (halvesFrom_of_forall_ne fun l r ll lr hs => ?_).replace _ _,
          fun l hl => mem_poolShown_freed hl⟩
        exact absurd (List.eq_of_mem_replicate hs) (by simp)
  · cases lastLive <;> simp at hk
    obtain ⟨rfl, -⟩ := hk
    obtain ⟨hpool, hnodes⟩ := h.releaseLast
    exact ⟨_, _, hpool, hnodes, .refl _, fun _ hl => Or.inl hl⟩

end

def mergeBlocks (m : Bytes) (node next : Addr) (n : Word) : Bytes :=
  let m := head.set m node .next next
  let m := head.set m node .size (PAGE_SIZE * n)
  head.set m node .status Flag.allocated

theorem agreeOff_mergeBlocks (m : Bytes) (p next : Addr) (n : Word) :
    AgreeOff (head.recordRegion p) m (mergeBlocks m p next n) := by
  have hm := ((head.agreeOff_set m p .next next).trans
    (head.agreeOff_set _ p .size (PAGE_SIZE * n))).trans
      (head.agreeOff_set _ p .status Flag.allocated)
  rwa [Set.union_self, Set.union_self] at hm

theorem NodeAt.mergeBlocks {p : Addr} {node : HeapNode} (h : NodeAt m p node)
    (next : Addr) (n : Word) :
    NodeAt (mergeBlocks m p next n) p
        ⟨node.left, node.right, next, PAGE_SIZE * n, node.childSize, true⟩ ∧
      AgreeOff (head.recordRegion p) m (OptimistOS.mergeBlocks m p next n) := by
  refine ⟨?_, agreeOff_mergeBlocks m p next n⟩
  constructor <;>
    simp (disch := decide) only [OptimistOS.mergeBlocks, head.get_set_of_ne,
      head_get_set_self, head_get_set_allocated, h.left, h.right, h.childSize,
      h.level, h.isBuddyCoalesced, if_true]

section

variable {segs : List Segment} {lastLive : Bool}

theorem ne_PAGE_SIZE_of_le {w : Word} (h : w ≤ 2048) : w ≠ PAGE_SIZE := by
  rintro rfl
  exact absurd h (by decide)

/-- A page node of the size of a page that is not allocated belongs to a page
that was never split. -/
theorem PoolAt.eq_page (h : PoolAt m b segs lastLive) {seg : Segment}
    (hf : Focus segs j seg)
    (hstatus : head.get m (page b j) .status ≠ Flag.allocated)
    (hsize : head.get m (page b j) .size = PAGE_SIZE) : seg = .page false := by
  have hsegment := h.segmentAt hf
  have hlive := hsegment.node.status_ne_allocated.1 hstatus
  cases seg with
  | page live =>
      obtain rfl : live = false := hlive
      rfl
  | halves left right liveLeft liveRight =>
      exact absurd (hsegment.node.size.symm.trans hsize)
        (ne_PAGE_SIZE_of_le hsegment.rest.1)
  | run n => exact absurd hlive (by simp [Segment.node])

theorem PoolAt.exists_page (h : PoolAt m b segs lastLive) {k : ℕ}
    (hk : Current segs k)
    (hstatus : head.get m (slot b k) .status ≠ Flag.allocated)
    (hsize : head.get m (slot b k) .size = PAGE_SIZE) :
    ∃ j, k = 2 * j ∧ Focus segs j (.page false) := by
  cases hk with
  | @page j seg hf =>
      rw [← page_eq_slot] at hstatus hsize
      obtain rfl := h.eq_page hf hstatus hsize
      exact ⟨j, rfl, hf⟩
  | @right j left right liveLeft hf =>
      obtain ⟨-, hright, l, r, -, -, hnode⟩ := (h.segmentAt hf).rest
      rw [rightHalf_eq_slot] at hnode
      exact absurd (hnode.size.symm.trans hsize) (ne_PAGE_SIZE_of_le hright)
  | last =>
      have hlast : head.get m (page b 3071) .size = 0 := h.last.size
      rw [page_eq_slot] at hlast
      exact absurd (hlast.symm.trans hsize) (ne_PAGE_SIZE_of_le (by decide))

/-- The pages that the scan has passed, if all of them are whole. -/
theorem PoolAt.pages_of_canCoalesce {pre post : List Segment}
    (h : PoolAt m b (pre ++ post) lastLive)
    (hcan : canCoalesce m n (page b (spans pre)) = .ok true)
    (hsize : ∀ i < n,
      head.get m (page b (spans pre + i)) .size = PAGE_SIZE) :
    ∃ post', post = List.replicate n (.page false) ++ post' := by
  induction n generalizing pre post with
  | zero => exact ⟨post, rfl⟩
  | succ n ih =>
      rw [canCoalesce] at hcan
      split_ifs at hcan with hnull hallocated
      · exact absurd hcan (by simp)
      · have hfirst := hsize 0 (Nat.succ_pos n)
        rw [Nat.add_zero] at hfirst
        cases post with
        | nil =>
            -- the last page node has the size 0
            have hspans := h.spans_eq
            rw [List.append_nil] at hspans
            rw [hspans] at hfirst
            have hlast : head.get m (page b 3071) .size = 0 := h.last.size
            exact absurd (hlast.symm.trans hfirst)
              (ne_PAGE_SIZE_of_le (by decide))
        | cons seg post =>
            have hf : Focus (pre ++ seg :: post) (spans pre) seg :=
              ⟨pre, post, rfl, rfl⟩
            obtain rfl := h.eq_page hf hallocated hfirst
            have hlen : spans (pre ++ [.page false]) = spans pre + 1 := by
              rw [spans_append, spans_cons, spans_nil]
              rfl
            have hnext : head.get m (page b (spans pre)) .next =
                page b (spans (pre ++ [.page false])) := by
              rw [hlen]
              exact (h.segmentAt hf).node.next
            have hpool : PoolAt m b (pre ++ [.page false] ++ post) lastLive := by
              rwa [List.append_assoc]
            rw [hnext] at hcan
            obtain ⟨post', rfl⟩ := ih hpool hcan fun i hi => by
              rw [hlen, Nat.add_assoc, Nat.add_comm 1 i]
              exact hsize (i + 1) (by omega)
            exact ⟨post', by rw [List.replicate_succ, List.cons_append]⟩

theorem nodeAfter_eq (h : ∀ i < n, page b (j + i) ≠ 0 ∧
      head.get m (page b (j + i)) .next = page b (j + i + 1)) :
    nodeAfter m n (page b j) = .ok (page b (j + n)) := by
  induction n generalizing j with
  | zero => rfl
  | succ n ih =>
      obtain ⟨hne, hnext⟩ := h 0 (Nat.succ_pos n)
      rw [Nat.add_zero] at hne hnext
      rw [nodeAfter, if_neg hne, hnext, ih fun i hi => ?_]
      · rw [show j + 1 + n = j + (n + 1) by ring]
      · have hi' := h (i + 1) (by omega)
        rwa [show j + (i + 1) = j + 1 + i by ring] at hi'

theorem PoolAt.merge {pre post : List Segment} (hn : n ≤ 3)
    (h : PoolAt m b (pre ++ List.replicate (n + 1) (.page false) ++ post)
      lastLive) :
    ∃ last, nodeAfter m n (page b (spans pre)) = .ok last ∧ last ≠ 0 ∧
      PoolAt (mergeBlocks m (page b (spans pre)) (head.get m last .next)
        (BitVec.ofNat 64 (n + 1))) b (pre ++ [.run n] ++ post) lastLive := by
  have hspans := h.spans_eq
  rw [spans_append, spans_append, spans_replicate_page] at hspans
  obtain ⟨hsegments, -⟩ := segmentsAt_append.1 h.segments
  have hpages := (segmentsAt_replicate rfl).1 (segmentsAt_append.1 hsegments).2
  rw [Nat.zero_add] at hpages
  refine ⟨page b (spans pre + n), nodeAfter_eq fun i hi =>
    ⟨h.page_ne_zero (by omega), (hpages i (by omega)).node.next⟩,
    h.page_ne_zero (by omega), ?_⟩
  have hfirst := hpages 0 (Nat.succ_pos n)
  rw [Nat.add_zero] at hfirst
  obtain ⟨hnode, hm⟩ := hfirst.node.mergeBlocks
    (head.get m (page b (spans pre + n)) .next) (BitVec.ofNat 64 (n + 1))
  rw [(hpages n (by omega)).node.next] at hnode hm ⊢
  refine h.replace (hm.mono ?_) ?_ ⟨⟨hnode, hn, fun i hi hi' => ?_,
    fun i hi => ?_⟩, trivial⟩
  · rw [spans_replicate_page]
    exact record_page_subset b le_rfl (by omega)
  · rw [spans_replicate_page]
    rfl
  · exact (hpages i (by omega)).node.congr hm
      (disjoint_pages b (by omega) (by omega) (by omega))
  · exact NodeAt.congr (hpages i (by omega)).rest hm
      (disjoint_rightHalf_page b (by omega) (by omega))

end

end

end OptimistOS
