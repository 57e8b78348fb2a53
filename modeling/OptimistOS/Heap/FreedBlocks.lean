import OptimistOS.Heap.FirstPage
import OptimistOS.Heap.OwnerRuns

/-!
# Blocks of several pages that are given back

`freex` makes page nodes of the pages of a block. It leaves the halves and the
mark of a merged buddy as they are in the headers inside the block, which are
payload of its owner until then. The links back are right but in two places:
`initNodes` has written no header to the last page, and `coalesceBlocks` leaves
the page behind a block linked to the last page of the block. So the page nodes
are whole and linked exactly when the owner left zeros there, the block does not
end at the last page, and no other block of several pages ends at it
(`freesPages_iff`).
-/

namespace OptimistOS

open ByteMemory ByteMemory.Code Transition

inductive Listed (m : Bytes) (first : Addr) : Addr → Prop
  | first : Listed m first first
  | next {p : Addr} (h : Listed m first p) (hne : head.get m p .next ≠ 0) :
      Listed m first (head.get m p .next)

def Linked (m : Bytes) (p q : Addr) : Prop :=
  head.get m p .next = q ∧ head.get m q .previous = p

/-- The block of `k` pages at `node`, in the memory `m` with the list of pages
from `first` on, has become `k` page nodes in the memory `m'`. -/
structure FreesPages (m m' : Bytes) (first node : Addr) (k : ℕ) : Prop where
  page : ∀ i < k, FreshPage m' (page node i)
  linked : ∀ i, i + 1 < k →
    Linked m' (OptimistOS.page node i) (OptimistOS.page node (i + 1))
  before : ∀ p, Listed m first p → head.get m p .next = node →
    Linked m' p node
  behind : Linked m' (OptimistOS.page node (k - 1)) (head.get m node .next)

/-- The owner of the block at `node` of `k` pages left zeros where `freex` does
not write, the block does not end at the last page of the pool, and no other
block of several pages ends at it. -/
structure FreesCleanly {α : Type} (s : Machine 64 (HeapGlobals α))
    (live : Set Addr) (node : Addr) (k : ℕ) : Prop where
  blank : BlankInnerHeaders s.mem node
  notLast : OptimistOS.page node k ≠
    OptimistOS.page s.globals.freeList (POOL_ARRAY_SIZE - 1)
  alone : ∀ other ∈ live,
    PAGE_SIZE < head.get s.mem (other - sizeofHead) .size →
      other - sizeofHead + head.get s.mem (other - sizeofHead) .size ≠ node

theorem page_inj (b : Addr) {i j : ℕ} (hi : i ≤ 3071) (hj : j ≤ 3071)
    (h : page b i = page b j) : i = j := by
  rw [page_eq_slot, page_eq_slot] at h
  have heq := slot_inj b (by omega) (by omega) h
  omega

section

variable {m m' : Bytes} {b : Addr} {segs : List Segment} {lastLive : Bool}

theorem Shadowed.nodeAt_page (h : Shadowed m m' b segs lastLive) {j : ℕ}
    {seg : Segment} (hf : Focus segs j seg) :
    NodeAt m' (page b j) (seg.node b j) := by
  have hnode := (h.pool.segmentAt hf).node
  have hget : ∀ f, f ≠ .previous →
      head.get m' (page b j) f = head.get m (page b j) f := by
    rw [page_eq_slot]
    exact fun f hf' => h.get (Current.page hf).mem_poolShown hf'
  exact ⟨(hget _ (by decide)).trans hnode.left,
    (hget _ (by decide)).trans hnode.right,
    (hget _ (by decide)).trans hnode.next, (hget _ (by decide)).trans hnode.size,
    (hget _ (by decide)).trans hnode.childSize,
    (hget _ (by decide)).trans hnode.status,
    (hget _ (by decide)).trans hnode.level,
    (hget _ (by decide)).trans hnode.isBuddyCoalesced⟩

theorem Shadowed.previous (h : Shadowed m m' b segs lastLive) {j : ℕ}
    (hj : 2 * j ∈ poolShown segs) :
    head.get m' (page b j) .previous = backlink b j := by
  have hle := h.pool.shown_le hj
  rw [page_eq_slot, h.same.get (p := slot b (2 * j))
    ⟨2 * j, hj, rfl, Or.inl (by omega)⟩, ← page_eq_slot]
  exact h.backlinks j (by omega)

theorem Shadowed.listed_prefix (h : Shadowed m m' b segs lastLive)
    (pre : List Segment) {post : List Segment} (hsegs : segs = pre ++ post) :
    Listed m' b (page b (spans pre)) := by
  induction pre using List.reverseRecOn generalizing post with
  | nil =>
      rw [spans_nil, page_zero]
      exact .first
  | append_singleton pre seg ih =>
      have hsegs' : segs = pre ++ seg :: post := by
        rw [hsegs, List.append_assoc, List.singleton_append]
      have hf : Focus segs (spans pre) seg := ⟨pre, post, hsegs', rfl⟩
      have hle := h.pool.focus_le hf
      have hlen : spans (pre ++ [seg]) = spans pre + seg.span := by
        rw [spans_append, spans_cons, spans_nil, Nat.add_zero]
      have hnext : head.get m' (page b (spans pre)) .next =
          page b (spans (pre ++ [seg])) := by
        rw [(h.nodeAt_page hf).next, segment_node_next, hlen]
      rw [← hnext]
      refine .next (ih hsegs') ?_
      rw [hnext]
      exact h.pool.page_ne_zero (by omega)

theorem Shadowed.listed (h : Shadowed m m' b segs lastLive) {j : ℕ}
    {seg : Segment} (hf : Focus segs j seg) : Listed m' b (page b j) := by
  obtain ⟨pre, post, hsegs, rfl⟩ := hf
  exact h.listed_prefix pre hsegs

theorem Shadowed.of_listed (h : Shadowed m m' b segs lastLive) {p : Addr}
    (hp : Listed m' b p) :
    (∃ j seg, Focus segs j seg ∧ p = page b j) ∨
      p = page b 3071 ∧ head.get m' p .next = 0 := by
  have hend : head.get m' (page b 3071) .next = 0 := by
    have hlast := h.pool.last.next
    rw [page_eq_slot] at hlast ⊢
    exact (h.get Current.last.mem_poolShown (by decide)).trans hlast
  induction hp with
  | first =>
      left
      have hspans := h.pool.spans_eq
      cases segs with
      | nil => exact absurd hspans (by simp)
      | cons seg segs =>
          exact ⟨0, seg, ⟨[], segs, rfl, rfl⟩, (page_zero b).symm⟩
  | next _ hne ih =>
      rcases ih with ⟨j, seg, hf, rfl⟩ | ⟨-, hzero⟩
      · rw [(h.nodeAt_page hf).next, segment_node_next]
        rcases h.pool.focus_next hf with hlast | ⟨seg', hf'⟩
        · rw [hlast]
          exact Or.inr ⟨rfl, hend⟩
        · exact Or.inl ⟨_, seg', hf', rfl⟩
      · exact absurd hzero hne

theorem Shadowed.freeRun {pre post : List Segment} {n : ℕ}
    (h : Shadowed m m' b (pre ++ [.run n] ++ post) lastLive)
    (hblank : BlankInnerHeaders m' (page b (spans pre))) :
    Shadowed (freeNode m (page b (spans pre)))
      (freeNode m' (page b (spans pre))) b
      (pre ++ List.replicate (n + 1) (.page false) ++ post) lastLive := by
  have hk : (2 * spans pre, PAGE_SIZE * BitVec.ofNat 64 (n + 1)) ∈
      poolNodes (pre ++ [.run n] ++ post) lastLive :=
    mem_poolNodes_mid.2 (Or.inl (by simp [Segment.liveNodes]))
  have hpool := h.pool.releaseRun.1
  rw [page_eq_slot] at hblank hpool ⊢
  obtain ⟨hback, hsame⟩ := h.sameOn_freeNode hk hblank
    fun _ hl => mem_poolShown_freed hl
  exact ⟨hpool, hback, hsame⟩

theorem focus_replicate {pre post : List Segment} {n i : ℕ} (hi : i < n) :
    Focus (pre ++ List.replicate n (.page false) ++ post) (spans pre + i)
      (.page false) := by
  obtain ⟨l, rfl⟩ := Nat.exists_eq_add_of_lt hi
  refine ⟨pre ++ List.replicate i (.page false),
    List.replicate l (.page false) ++ post, ?_, ?_⟩
  · rw [Nat.add_assoc, List.replicate_add, List.replicate_succ]
    simp
  · rw [spans_append, spans_replicate_page]

section

variable {pre post : List Segment} {n : ℕ}

/-- The page nodes of a block after `freex`, when the headers inside were
blank. -/
theorem Shadowed.freshPage_freed
    (h : Shadowed m m' b
      (pre ++ List.replicate n (.page false) ++ post) lastLive) {i : ℕ}
    (hi : i < n) : FreshPage m' (page (page b (spans pre)) i) := by
  have hfocus : Focus (pre ++ List.replicate n (.page false) ++ post)
      (spans pre + i) (.page false) := focus_replicate hi
  have hnode := h.nodeAt_page hfocus
  rw [page_page]
  exact ⟨hnode.left, hnode.right,
    hnode.next.trans (page_add_PAGE_SIZE b _).symm, hnode.status,
    hnode.childSize, hnode.size, hnode.level, hnode.isBuddyCoalesced⟩

theorem Shadowed.previous_freed
    (h : Shadowed m m' b
      (pre ++ List.replicate (n + 1) (.page false) ++ post) lastLive) {i : ℕ}
    (hi : i ≤ n + 1) (hpos : spans pre + i ≠ 0) :
    head.get m' (page b (spans pre + i)) .previous =
      if spans pre + i = 3071 then 0 else page b (spans pre + i - 1) := by
  have hshown : 2 * (spans pre + i) ∈ poolShown
      (pre ++ List.replicate (n + 1) (.page false) ++ post) := by
    rcases Nat.lt_or_ge i (n + 1) with hlt | hge
    · exact (Current.page (focus_replicate hlt)).mem_poolShown
    · obtain rfl : i = n + 1 := by omega
      exact (h.pool.current_next
        (focus_replicate (Nat.lt_succ_self n))).mem_poolShown
  rw [h.previous hshown, backlink]
  simp only [hpos, false_or]

theorem get_freeNode_inner {j : ℕ} (hn : n ≤ 2) (hj : j + (n + 2) ≤ 3071)
    (hnode : NodeAt m (page b j) ((Segment.run (n + 1)).node b j)) {i : ℕ}
    (hi : i ≤ n + 1) {f : Head} (hf : f ∉ rebuiltMembers) :
    head.get (freeNode m (page b j)) (page b (j + i)) f =
      head.get m (page b (j + i)) f := by
  have hstatus : f ≠ .status := by
    rintro rfl
    exact hf (by simp [rebuiltMembers])
  rw [freeNode_of_pages hn hnode.isBuddyCoalesced hnode.size,
    get_freePages (by omega) (page_mem_slots b (by omega)) hf]
  exact Layout.get_set_of_apart (apart_slots b) m _
    (page_mem_slots b (by omega)) (page_mem_slots b (by omega))
    fun he => hstatus (Prod.mk.inj he).2

theorem FreshPage.eq_zero_of_notMem_rebuilt {p : Addr} {f : Head}
    (h : FreshPage m p) (hf : f ∉ rebuiltMembers) : head.get m p f = 0 :=
  NodeAt.eq_zero_of_notMem_rebuilt (n := ⟨0, 0, _, _, _, false⟩)
    ⟨h.left, h.right, h.next, h.size, h.childSize, h.status, h.level,
      h.isBuddyCoalesced⟩ rfl rfl hf

theorem Shadowed.next_freed
    (h : Shadowed m m' b (pre ++ [.run n] ++ post) lastLive)
    (hfreed : Shadowed (freeNode m (page b (spans pre)))
      (freeNode m' (page b (spans pre))) b
      (pre ++ List.replicate (n + 1) (.page false) ++ post) lastLive) {j : ℕ}
    {seg : Segment} (hf : Focus (pre ++ [.run n] ++ post) j seg)
    (hj : j < spans pre) :
    head.get (freeNode m' (page b (spans pre))) (page b j) .next =
      head.get m' (page b j) .next := by
  have hfocus := focus_of_mid pre (.run n) post
  have hle := h.pool.focus_le hfocus
  rw [Segment.span] at hle
  have hshown := (Current.page hf).mem_poolShown
  have hshown' : 2 * j ∈ poolShown
      (pre ++ List.replicate (n + 1) (.page false) ++ post) := by
    rw [mem_poolShown_mid, shown_singleton, Segment.shown, List.mem_singleton]
      at hshown
    rcases hshown with heq | hpre | hpost | hlast
    · omega
    · exact mem_poolShown_mid.2 (Or.inr (Or.inl hpre))
    · have hrange := shown_range hpost
      omega
    · omega
  have hm := ((h.pool.segmentAt hfocus).freeNode_run hle).2
  rw [page_eq_slot b j, hfreed.get hshown' (by decide),
    h.get hshown (by decide), ← page_eq_slot]
  refine head.get_congr hm _ _ ((disjoint_pageHeaders b (l := n + 1)
    (show j + 1 ≤ spans pre by omega) (by omega)).mono_left ?_)
  exact record_page_subset b le_rfl (by omega)

end

end

section

variable {α : Type} {s : Machine 64 (HeapGlobals α)} {live : Set Addr}
  {m : Bytes} {pre post : List Segment} {n : ℕ} {lastLive : Bool}

/-- No other block of several pages ends at the page in front. -/
theorem OwnedPool.alone_iff {segs : List Segment}
    (h : OwnedPool s live m segs lastLive) {j : ℕ} (hj : j ≤ 3071) :
    (∀ other ∈ live, PAGE_SIZE < head.get s.mem (other - sizeofHead) .size →
        other - sizeofHead + head.get s.mem (other - sizeofHead) .size ≠
          page s.globals.freeList j) ↔
      ∀ i n, Focus segs i (.run (n + 1)) → i + (n + 2) ≠ j := by
  have hend : ∀ {i n : ℕ}, Focus segs i (.run (n + 1)) →
      page s.globals.freeList i + PAGE_SIZE * BitVec.ofNat 64 (n + 2) =
        page s.globals.freeList (i + (n + 2)) ∧ i + (n + 2) ≤ 3071 := by
    intro i n hf
    have hle := h.shadow.pool.focus_le hf
    have hn := (h.shadow.pool.segmentAt hf).rest.1
    have hbytes : PAGE_SIZE * BitVec.ofNat 64 (n + 2) =
        BitVec.ofNat 64 (4096 * (n + 2)) := by
      refine BitVec.eq_of_toNat_eq ?_
      rw [toNat_pages hn, BitVec.toNat_ofNat]
      omega
    refine ⟨?_, hle⟩
    rw [hbytes, page, page, add_ofNat_add_ofNat, ← Nat.mul_add]
  constructor
  · rintro halone i n hf rfl
    obtain ⟨hsum, hle⟩ := hend hf
    have hn := (h.shadow.pool.segmentAt hf).rest.1
    have hmem : (2 * i, PAGE_SIZE * BitVec.ofNat 64 (n + 2)) ∈
        poolNodes segs lastLive := by
      obtain ⟨pre, post, rfl, rfl⟩ := focus_mid hf
      exact mem_poolNodes_mid.2 (Or.inl (by simp [Segment.liveNodes]))
    have hblock := (h.state.live _).2 ⟨_, mem_poolSlots.2 ⟨_, hmem⟩, rfl⟩
    refine halone _ hblock ?_ ?_
    · rw [BitVec.add_sub_cancel, h.get_size hmem, BitVec.lt_def, toNat_pages hn]
      change 4096 < _
      omega
    · rw [BitVec.add_sub_cancel, h.get_size hmem, ← page_eq_slot]
      exact hsum
  · intro hruns other hother hlt hsum
    obtain ⟨l, w, hl, rfl⟩ := h.state.exists_of_mem hother
    rw [BitVec.add_sub_cancel, h.get_size hl] at hlt hsum
    obtain ⟨i, n, hf, -, rfl, rfl⟩ := h.shadow.pool.run_of_lt hl hlt
    obtain ⟨hpage, hle⟩ := hend hf
    rw [← page_eq_slot] at hsum
    exact hruns i n hf (page_inj _ hle hj (hpage.symm.trans hsum))

/-- What the node of a block of several pages is after `freex`. -/
theorem OwnedPool.frees_iff
    (h : OwnedPool s live m (pre ++ [.run (n + 1)] ++ post) lastLive) :
    FreesPages s.mem (freeNode s.mem (page s.globals.freeList (spans pre)))
        s.globals.freeList (page s.globals.freeList (spans pre)) (n + 2) ↔
      FreesCleanly s live (page s.globals.freeList (spans pre)) (n + 2) := by
  have hfocus := focus_of_mid pre (.run (n + 1)) post
  have hle := h.shadow.pool.focus_le hfocus
  have hn := (h.shadow.pool.segmentAt hfocus).rest.1
  rw [Segment.span] at hle
  have hnode := h.shadow.nodeAt_page hfocus
  have hbehind : head.get s.mem (page s.globals.freeList (spans pre)) .next =
      page s.globals.freeList (spans pre + (n + 2)) := hnode.next
  have halone := h.alone_iff (j := spans pre) (by omega)
  have hblank : (∀ i, 0 < i → i < n + 2 → ∀ f ∉ rebuiltMembers,
      head.get s.mem (page s.globals.freeList (spans pre + i)) f = 0) ↔
        BlankInnerHeaders s.mem (page s.globals.freeList (spans pre)) := by
    have hsize : (head.get s.mem (page s.globals.freeList (spans pre))
        .size).toNat = 4096 * (n + 2) := by
      rw [hnode.size]
      exact toNat_pages hn
    simp only [BlankInnerHeaders, hsize, page_page]
    exact forall_congr' fun i => forall_congr' fun _ =>
      ⟨fun hb hi => hb (by omega), fun hb hi => hb (by omega)⟩
  constructor
  · intro hfrees
    have hinner := hblank.1 fun i hi hi' f hf => by
      have hpage := (hfrees.page i hi').eq_zero_of_notMem_rebuilt hf
      rw [page_page] at hpage
      exact (get_freeNode_inner (by omega) (by omega) hnode (by omega)
        hf).symm.trans hpage
    have hfreed := h.shadow.freeRun hinner
    refine ⟨hinner, fun hlast => ?_, halone.2 fun i n' hf heq => ?_⟩
    · -- the last page is not linked back
      rw [page_page] at hlast
      have hsum := page_inj _ (by omega) le_rfl
        (show _ = page s.globals.freeList 3071 from hlast)
      have hback := hfrees.behind.2
      rw [hbehind, hfreed.previous_freed (by omega) (by omega), if_pos hsum,
        page_page] at hback
      exact h.shadow.pool.page_ne_zero (by omega) hback.symm
    · -- the page behind the other block is linked back to a page inside it
      have hother := h.shadow.nodeAt_page hf
      have hnext : head.get s.mem (page s.globals.freeList i) .next =
          page s.globals.freeList (spans pre) := by
        rw [hother.next, segment_node_next, ← heq]
        rfl
      have hback := (hfrees.before _ (h.shadow.listed hf) hnext).2
      have hprevious := hfreed.previous_freed (i := 0) (by omega) (by omega)
      rw [Nat.add_zero, hback, if_neg (by omega)] at hprevious
      have hpages := page_inj _ (by omega) (by omega) hprevious
      omega
  · intro hclean
    have hfreed := h.shadow.freeRun hclean.blank
    have hlinked : ∀ i, i + 1 ≤ n + 2 → spans pre + (i + 1) ≠ 3071 →
        Linked (freeNode s.mem (page s.globals.freeList (spans pre)))
          (page (page s.globals.freeList (spans pre)) i)
          (page (page s.globals.freeList (spans pre)) (i + 1)) := by
      intro i hi hlast
      refine ⟨(hfreed.freshPage_freed (by omega)).next.trans
        (page_add_PAGE_SIZE _ i), ?_⟩
      rw [page_page, page_page, hfreed.previous_freed (by omega) (by omega),
        if_neg hlast]
      rfl
    refine ⟨fun i hi => hfreed.freshPage_freed hi,
      fun i hi => hlinked i (by omega) (by omega), fun p hp hnext => ?_, ?_⟩
    · rcases h.shadow.of_listed hp with ⟨j, seg, hf, rfl⟩ | ⟨-, hzero⟩
      swap
      · exact absurd (hnext.symm.trans hzero)
          (h.shadow.pool.page_ne_zero (by omega))
      have hend := h.shadow.pool.focus_le hf
      have hseg := h.shadow.nodeAt_page hf
      rw [hseg.next, segment_node_next] at hnext
      have hsum := page_inj _ hend (by omega) hnext
      have hspan : seg.span = 1 := by
        cases seg with
        | page live => rfl
        | halves left right liveLeft liveRight => rfl
        | run n' =>
            rcases n' with _ | n'
            · rfl
            · exact absurd hsum (halone.1 hclean.alone j n' hf)
      refine ⟨?_, ?_⟩
      · rw [h.shadow.next_freed hfreed hf (by omega), hseg.next,
          segment_node_next, hsum]
      · have hprevious := hfreed.previous_freed (i := 0) (by omega) (by omega)
        rw [Nat.add_zero, if_neg (by omega)] at hprevious
        rw [hprevious, ← hsum, hspan, Nat.add_sub_cancel]
    · rw [hbehind, ← page_page]
      refine hlinked (n + 1) le_rfl fun hlast => hclean.notLast ?_
      rw [page_page, hlast]
      rfl

end

section

variable {τ : Type} {T : SizeTable τ} {fuel : ℕ} {R : UsableRegion} {mem : Bytes}
  {table : τ} {used : ℕ}

/-- In every run of the heap and of the owners of its blocks, a block of several
pages that is given back becomes whole and linked page nodes exactly when its
owner left zeros in the members of the inner headers that `freex` does not
write, and the block is neither in front of the last page of the pool nor
directly behind another block of several pages. -/
theorem freesPages_iff {s₀ s : HeapState τ} {cs : List OwnerCall} {block : Addr}
    {k : ℕ} (h : HeapBooted R mem table used s₀)
    (hrun : Run (Guarded (OwnerMeets T fuel) (OwnerStep T fuel)) s₀ cs s)
    (hblock : block ∈ s.live) (hk : 2 ≤ k ∧ k ≤ 4)
    (hsize : head.get s.machine.mem (block - sizeofHead) .size =
      PAGE_SIZE * BitVec.ofNat 64 k) :
    ∃ t, (freex block).run s.machine = .ok () t ∧
      (FreesPages s.machine.mem t.mem s.machine.globals.freeList
          (block - sizeofHead) k ↔
        FreesCleanly s.machine s.live (block - sizeofHead) k) := by
  rcases OwnerInv.run h hrun with hbooted | ⟨m, segs, lastLive, hpool⟩
  · exact absurd hblock (by simp [hbooted.live])
  obtain ⟨l, w, hl, rfl⟩ := hpool.state.exists_of_mem hblock
  rw [BitVec.add_sub_cancel] at hsize ⊢
  obtain rfl := (hpool.get_size hl).symm.trans hsize
  have hpages : (PAGE_SIZE * BitVec.ofNat 64 k).toNat = 4096 * k := by
    obtain ⟨i, rfl⟩ := Nat.exists_eq_add_of_le' (show 1 ≤ k by omega)
    exact toNat_pages (by omega)
  obtain ⟨j, n, hf, hn, rfl, hw⟩ := hpool.shadow.pool.run_of_lt hl (by
    rw [BitVec.lt_def, hpages]
    change 4096 < _
    omega)
  obtain rfl : k = n + 2 := by
    have hnat := congrArg BitVec.toNat hw
    rw [hpages, toNat_pages (by omega)] at hnat
    omega
  obtain ⟨pre, post, rfl, rfl⟩ := focus_mid hf
  refine ⟨_, run_freex _ hpool.state.mutex, ?_⟩
  rw [BitVec.add_sub_cancel]
  dsimp only
  rw [← page_eq_slot]
  exact hpool.frees_iff

end

theorem exists_pagesBlock :
    ∃ s, Run (Guarded (OwnerMeets addressSizeTable 0)
        (OwnerStep addressSizeTable 0)) bootedHeap
        [.malloc 20000, .malloc 8000] s ∧
      s.machine.globals.freeList + sizeofHead = bootedBlock ∧
      s.live = {bootedBlock} ∧
      head.get s.machine.mem s.machine.globals.freeList .size = 8192 ∧
      PoolState s.machine s.live
        (.run 1 :: List.replicate 3069 (.page false)) false := by
  obtain ⟨s, s', hstep, hstep', hmeets, hfirst, hlive, hpool⟩ :=
    exists_pagesRequest
  have hguarded : Guarded (OwnerMeets addressSizeTable 0)
      (OwnerStep addressSizeTable 0) bootedHeap (.malloc 20000) s :=
    ⟨(hmeets fun _ => BlankRightHalf).1, hstep⟩
  have hguarded' : Guarded (OwnerMeets addressSizeTable 0)
      (OwnerStep addressSizeTable 0) s (.malloc 8000) s' :=
    ⟨(hmeets fun _ => BlankRightHalf).2, hstep'⟩
  have hsize := (hpool.pool.segmentAt (j := 0) ⟨[], _, rfl, rfl⟩).node.size
  rw [page_zero] at hsize
  exact ⟨s', .snoc (.single hguarded) hguarded', hfirst, hlive, hsize, hpool⟩

/-- A block of two pages that nobody writes to. -/
theorem freesPages_iff_blankBlock :
    ∃ s t, Run (OwnerStep addressSizeTable 0) bootedHeap
        [.malloc 20000, .malloc 8000] s ∧
      (freex bootedBlock).run s.machine = .ok () t ∧
      FreesPages s.machine.mem t.mem s.machine.globals.freeList
        s.machine.globals.freeList 2 := by
  obtain ⟨s, hrun, hfirst, hlive, hsize, hpool⟩ := exists_pagesBlock
  rw [← hfirst] at hlive
  have hsegment := hpool.pool.segmentAt (j := 0) ⟨[], _, rfl, rfl⟩
  obtain ⟨t, hfree, hiff⟩ := freesPages_iff (k := 2) heapBooted_bootedHeap hrun
    (hlive ▸ Set.mem_singleton _) (by decide)
    (by rw [BitVec.add_sub_cancel]; exact hsize)
  rw [BitVec.add_sub_cancel] at hiff
  rw [← hfirst]
  refine ⟨s, t, hrun.of_guarded, hfree, hiff.2 ⟨?_, ?_, ?_⟩⟩
  · intro i hi hi' f hf
    rw [hsize, show (8192 : Word).toNat = 8192 from rfl] at hi'
    obtain rfl : i = 1 := by omega
    have hinner := hsegment.rest.2.1 1 (by decide) le_rfl
    rw [Nat.zero_add] at hinner
    exact hinner.eq_zero_of_notMem_rebuilt rfl rfl hf
  · exact fun heq => absurd (page_inj _ (by decide) (by decide) heq) (by decide)
  · intro other hother _
    rw [hlive, Set.mem_singleton_iff] at hother
    rw [hother, BitVec.add_sub_cancel, hsize]
    intro heq
    have hzero := add_ofNat_inj s.machine.globals.freeList (i := 8192) (j := 0)
      (by decide) (by decide) (heq.trans (BitVec.add_zero _).symm)
    exact absurd hzero (by decide)

/-- The owner of a block of two pages writes a 1 to the place of the left half
in the header inside it, and `freex` leaves it there. -/
theorem exists_not_freesPages :
    ∃ s t, Run (OwnerStep addressSizeTable 0) bootedHeap
        [.malloc 20000, .malloc 8000, .write bootedBlock] s ∧
      bootedBlock ∈ s.live ∧
      head.get s.machine.mem (bootedBlock - sizeofHead) .size =
        PAGE_SIZE * BitVec.ofNat 64 2 ∧
      (freex bootedBlock).run s.machine = .ok () t ∧
      ¬ FreesPages s.machine.mem t.mem s.machine.globals.freeList
        (bootedBlock - sizeofHead) 2 := by
  obtain ⟨s, hrun, hfirst, hlive, hsize, hpool⟩ := exists_pagesBlock
  rw [← hfirst] at hlive ⊢
  generalize hb : s.machine.globals.freeList = b at hlive hsize
  have hblock : b + sizeofHead ∈ s.live := hlive ▸ Set.mem_singleton _
  have hnode := (hpool.pool.segmentAt (j := 0) ⟨[], _, rfl, rfl⟩).node
  rw [hb] at hnode
  have hm := head.agreeOff_set s.machine.mem (page b 1) .left 1
  have hnode' := hnode.congr hm
    (disjoint_pages b (by decide) (by decide) (by decide))
  have hpayload : head.recordRegion (page b 1) ⊆
      payload s.machine.mem (b + sizeofHead) := by
    rw [payload, BitVec.add_sub_cancel, hsize, page,
      show BitVec.ofNat 64 (4096 * 1) = sizeofHead + BitVec.ofNat 64 4032 by
        decide, ← BitVec.add_assoc]
    exact region_subset_of_le (b + sizeofHead) (by decide) (by decide)
  have hwrite : OwnerStep addressSizeTable 0 s (.write (b + sizeofHead))
      ⟨⟨head.set s.machine.mem (page b 1) .left 1, s.machine.globals⟩,
        s.live⟩ :=
    ⟨hblock, rfl, rfl, hm.mono hpayload⟩
  refine ⟨_, _, hrun.of_guarded.snoc hwrite, hblock, ?_,
    run_freex _ hpool.mutex, fun hfrees => ?_⟩
  · have hsize' := hnode'.size
    rw [page_zero] at hsize'
    rw [BitVec.add_sub_cancel]
    exact hsize'
  · rw [BitVec.add_sub_cancel] at hfrees
    dsimp only at hfrees
    have hleft := (hfrees.page 1 (by decide)).left
    have hkept := get_freeNode_inner (n := 0) (by decide) (by decide) hnode'
      (i := 1) le_rfl (show Head.left ∉ rebuiltMembers by simp [rebuiltMembers])
    rw [page_zero, Nat.zero_add, head_get_set_self _ _ _ _ rfl] at hkept
    rw [hkept] at hleft
    exact absurd hleft (by decide)

end OptimistOS
