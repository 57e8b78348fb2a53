import OptimistOS.Heap.PayloadSearch
import OptimistOS.Heap.Rooms

/-!
# Calls among the payloads of blocks

The owner of a block writes to its payload: to the bytes behind the header, as
many as the header records (`payload`). None of them belongs to a header that
the heap reads. The calls of the heap do among the payloads what they do in the
memory without them. For `freex` this takes zeros in the members that it leaves
as they are in the headers that it makes inside a block (`BlankInnerHeaders`).
-/

namespace OptimistOS

open ByteMemory ByteMemory.Code

def payload (m : Bytes) (block : Addr) : Set Addr :=
  region block
    ((head.get m (block - sizeofHead) .size).toNat - sizeofHead.toNat)

/-- The members that `freex` does not write are blank in the headers of the
pages inside the block of the node at `node`. -/
def BlankInnerHeaders (m : Bytes) (node : Addr) : Prop :=
  ∀ i, 0 < i → 4096 * (i + 1) ≤ (head.get m node .size).toNat →
    ∀ f ∉ rebuiltMembers, head.get m (page node i) f = 0

def MallocResult.answer : MallocResult → Addr
  | node p => p + sizeofHead
  | blocks p _ => p + sizeofHead
  | refused => 0

section

variable {m m' m'' : Bytes} {b : Addr} {segs : List Segment} {lastLive : Bool}
  {k : ℕ} {w : Word}

theorem Shadowed.congr {t : Set Addr} (h : Shadowed m m' b segs lastLive)
    (hm : AgreeOff t m' m'')
    (ht : ∀ l ∈ poolShown segs, Disjoint (head.recordRegion (slot b l)) t) :
    Shadowed m m'' b segs lastLive := by
  refine ⟨h.pool, h.backlinks, h.same.congr hm ?_⟩
  rintro ⟨p, f⟩ ⟨l, hl, hp, -⟩
  dsimp only at hp ⊢
  rw [hp]
  exact ht l hl

theorem Shadowed.write (h : Shadowed m m' b segs lastLive)
    (hk : (k, w) ∈ poolNodes segs lastLive)
    (hm : AgreeOff (payload m' (slot b k + sizeofHead)) m' m'') :
    Shadowed m m'' b segs lastLive := by
  have hsize : head.get m' (slot b k) .size = w :=
    (h.get (mem_poolShown_of_live hk) (by decide)).trans (h.pool.liveAt hk).size
  have hhead : sizeofHead.toNat = 64 := rfl
  rw [payload, BitVec.add_sub_cancel, hsize] at hm
  exact h.congr hm fun l hl => h.pool.disjoint_behind hk hl (by omega)

/-- The scan that finds unused pages reads their headers. -/
theorem PoolAt.shown_of_canCoalesce {pre post : List Segment} {n : ℕ}
    (h : PoolAt m b (pre ++ post) lastLive)
    (hcan : OptimistOS.canCoalesce m n (page b (spans pre)) = .ok true) {i : ℕ}
    (hi : i < n) : 2 * (spans pre + i) ∈ poolShown (pre ++ post) := by
  induction n generalizing pre post i with
  | zero => exact absurd hi (by omega)
  | succ n ih =>
      rw [OptimistOS.canCoalesce] at hcan
      split_ifs at hcan with hnull hallocated
      · exact absurd hcan (by simp)
      cases post with
      | nil =>
          -- the last page has no link to another one
          have hspans := h.spans_eq
          rw [List.append_nil] at hspans
          have hnext : head.get m (page b (spans pre)) .next = 0 := by
            rw [hspans]
            exact h.last.next
          cases n with
          | zero =>
              obtain rfl : i = 0 := by omega
              rw [hspans]
              exact List.mem_append_right _ (List.mem_singleton_self _)
          | succ n =>
              rw [hnext, OptimistOS.canCoalesce, if_pos rfl] at hcan
              exact absurd hcan (by simp)
      | cons seg post =>
          have hf : Focus (pre ++ seg :: post) (spans pre) seg :=
            ⟨pre, post, rfl, rfl⟩
          have hnode := (h.segmentAt hf).node
          have hlive := hnode.status_ne_allocated.1 hallocated
          have hspan : seg.span = 1 := by
            cases seg with
            | page live => rfl
            | halves left right liveLeft liveRight => rfl
            | run n => exact absurd hlive (by simp [Segment.node])
          have hlen : spans (pre ++ [seg]) = spans pre + 1 := by
            rw [spans_append, spans_cons, spans_nil, hspan]
          rw [hnode.next, segment_node_next, hspan, ← hlen] at hcan
          rcases i with _ | i
          · exact hf.mem_poolShown (by cases seg <;> simp [Segment.shown])
          · have hpool : PoolAt m b ((pre ++ [seg]) ++ post) lastLive := by
              rwa [List.append_assoc]
            have hmem := ih hpool hcan (i := i) (by omega)
            rwa [hlen, List.append_assoc, Nat.add_assoc, Nat.add_comm 1 i]
              at hmem

/-- The pages that the search puts together are whole in the memory without
payloads as well. -/
theorem Shadowed.wholePages (h : Shadowed m m' b segs lastLive) {size : Word}
    {p : Addr} {n : Word} (hfound : Found m b segs size (.blocks p n))
    (hwhole : WholePages m' p n) : WholePages m p n := by
  obtain ⟨l, hl, rfl, hstatus, -, -, -, hcan⟩ := hfound
  have hget := h.get hl.mem_poolShown (f := .size) (by decide)
  intro i hi
  have hfirst : head.get m (slot b l) .size = PAGE_SIZE := by
    have hzero := hwhole 0 (by omega)
    rw [show slot b l + BitVec.ofNat 64 (4096 * 0) = slot b l from
      BitVec.add_zero _, hget] at hzero
    exact hzero
  obtain ⟨j, rfl, pre, post, rfl, rfl⟩ := h.pool.exists_page hl hstatus hfirst
  have hlen : spans (pre ++ [.page false]) = spans pre + 1 := by
    rw [spans_append, spans_cons, spans_nil]
    rfl
  have hpool : PoolAt m b ((pre ++ [.page false]) ++ post) lastLive := by
    rw [List.append_assoc]
    exact h.pool
  have hnode := (h.pool.segmentAt ⟨pre, post, rfl, rfl⟩).node
  rw [← page_eq_slot, hnode.next, Segment.node, ← hlen] at hcan
  rcases i with _ | i
  · exact (congrArg (fun p => head.get m p .size) (BitVec.add_zero _)).trans
      hfirst
  · have hshown := hpool.shown_of_canCoalesce hcan (i := i) (by
      have hone : (1 : Word).toNat = 1 := rfl
      rw [BitVec.toNat_sub_of_le (by rw [BitVec.le_def]; omega)]
      omega)
    rw [List.append_assoc, hlen] at hshown
    have hslot : slot b (2 * spans pre) + BitVec.ofNat 64 (4096 * (i + 1)) =
        slot b (2 * (spans pre + 1 + i)) := by
      rw [slot, slot, add_ofNat_add_ofNat]
      congr 2
      ring
    have hpage := hwhole (i + 1) hi
    rw [hslot] at hpage ⊢
    rwa [h.get hshown (by decide)] at hpage

theorem Shadowed.nodeAfter (h : Shadowed m m' b segs lastLive) (n : ℕ)
    {p : Addr} (hp : p = 0 ∨ ∃ k, Current segs k ∧ p = slot b k) :
    OptimistOS.nodeAfter m' n p = OptimistOS.nodeAfter m n p ∧
      ∀ q, OptimistOS.nodeAfter m n p = .ok q →
        q = 0 ∨ ∃ k, Current segs k ∧ q = slot b k := by
  induction n generalizing p with
  | zero => exact ⟨rfl, fun q hq => Except.ok.inj hq ▸ hp⟩
  | succ n ih =>
      rcases hp with rfl | ⟨l, hl, rfl⟩
      · exact ⟨rfl, fun q hq => absurd hq (by simp [OptimistOS.nodeAfter])⟩
      · have hne := slot_ne_zero h.pool.base (i := l)
          (le_trans (h.pool.current_le hl) (by omega))
        rw [OptimistOS.nodeAfter, OptimistOS.nodeAfter, if_neg hne, if_neg hne,
          h.get hl.mem_poolShown (by decide)]
        exact ih (h.pool.links_current hl).2.2

theorem Shadowed.merge (h : Shadowed m m' b segs lastLive)
    {pre post : List Segment} {t : ℕ} (ht : t ≤ 3)
    (hsegs : segs = pre ++ List.replicate (t + 1) (.page false) ++ post) :
    ∃ last, OptimistOS.nodeAfter m' t (page b (spans pre)) = .ok last ∧
      last ≠ 0 ∧ ∃ m₁, Shadowed m₁
        (mergeBlocks m' (page b (spans pre)) (head.get m' last .next)
          (BitVec.ofNat 64 (t + 1))) b (pre ++ [.run t] ++ post) lastLive := by
  subst hsegs
  obtain ⟨last, hlast, hne, hpool⟩ := h.pool.merge ht
  have hfirst : Current (pre ++ List.replicate (t + 1) (.page false) ++ post)
      (2 * spans pre) :=
    .page (show Focus _ (spans pre) (.page false) from
      ⟨pre, List.replicate t (.page false) ++ post,
        by simp [List.replicate_succ], rfl⟩)
  obtain ⟨hsame, hend⟩ := h.nodeAfter t
    (Or.inr ⟨_, hfirst, page_eq_slot b (spans pre)⟩)
  obtain ⟨l, hl, rfl⟩ := (hend _ hlast).resolve_left hne
  have hp : page b (spans pre) ∈ slots b := page_eq_slot b _ ▸
    slot_mem_slots b (le_trans (h.pool.current_le hfirst) (by omega))
  refine ⟨_, hsame.trans hlast, hne, _, hpool,
    h.backlinks.mergeBlocks _ _ hp, ?_⟩
  rw [h.get hl.mem_poolShown (by decide)]
  refine (((h.same.set (apart_slots b) hp .next _).set (apart_slots b) hp .size
    _).set (apart_slots b) hp .status _).mono fun x hx => ?_
  refine Or.inr (Or.inr (Or.inr (shownMembers_subset (fun k hk => ?_) hx)))
  refine poolShown_subset (by rw [spans_replicate_page]; rfl) (fun k hk => ?_) hk
  rw [shown_singleton, Segment.shown, List.mem_singleton] at hk
  rw [hk, List.replicate_succ, shown]
  exact List.mem_append_left _ (List.mem_singleton_self _)

/-- A request is served from the end of its search. Nothing is written but the
header of the block that is handed out. -/
theorem Shadowed.serve {α : Type} (s : Machine 64 (HeapGlobals α)) {size : Word}
    {result : MallocResult} (h : Shadowed m m' b segs lastLive)
    (hfound : Found m b segs size result)
    (hwhole : ∀ p n, result = .blocks p n → WholePages m' p n) :
    ∃ s' m₁ segs' lastLive',
      (serveRequest (.ok (result, m'))).run s = .ok result.answer s' ∧
      s'.globals = { s.globals with mutex := 0 } ∧
      Shadowed m₁ s'.mem b segs' lastLive' ∧
      Served b (poolNodes segs lastLive) (poolNodes segs' lastLive')
        result.answer ∧
      AgreeOff (head.recordRegion (result.answer - sizeofHead)) m' s'.mem := by
  cases result with
  | refused =>
      exact ⟨_, m, segs, lastLive, run_serveRequest_refused m' s, rfl, h,
        .refused rfl rfl, .refl _ _⟩
  | node q =>
      obtain ⟨l, hl, rfl, -⟩ := hfound
      obtain ⟨segs', lastLive', hpool, hnodes, -, hshown⟩ := h.pool.grant hl
      have hp := slot_mem_slots b (k := l)
        (le_trans (h.pool.current_le hl) (by omega))
      refine ⟨_, _, segs', lastLive', run_serveRequest_node m' _ s, rfl, ⟨hpool,
        h.backlinks.set _ hp (by decide), (h.same.set (apart_slots b) hp .status
          _).mono fun x hx => Or.inr (shownMembers_subset hshown hx)⟩,
        .block rfl hnodes, ?_⟩
      rw [MallocResult.answer, BitVec.add_sub_cancel]
      exact head.agreeOff_set m' _ .status _
  | blocks q n =>
      obtain ⟨pre, post, t, ht, rfl, rfl, hsegs⟩ := h.pool.foundPages hfound
        (h.wholePages hfound (hwhole _ _ rfl))
      obtain ⟨last, hlast, hne, m₁, hmerged⟩ := h.merge ht hsegs
      have hcoalesce := run_coalesceBlocks
        (s := ⟨m', { s.globals with mutex := 0 }⟩) rfl
        ((toNat_pages_pred ht).symm ▸ hlast) hne
      refine ⟨_, m₁, _, lastLive, hcoalesce, rfl, hmerged,
        .block (congrArg (· + sizeofHead) (page_eq_slot b _))
          (hsegs ▸ mem_poolNodes_merged), ?_⟩
      rw [MallocResult.answer, BitVec.add_sub_cancel]
      exact agreeOff_mergeBlocks m' _ _ _

/-- A block of more than a page is one of several pages. -/
theorem PoolAt.run_of_lt (h : PoolAt m b segs lastLive)
    (hk : (k, w) ∈ poolNodes segs lastLive) (hw : PAGE_SIZE < w) :
    ∃ j n, Focus segs j (.run (n + 1)) ∧ n ≤ 2 ∧ k = 2 * j ∧
      w = PAGE_SIZE * BitVec.ofNat 64 (n + 2) := by
  have hhalf : ∀ v : Word, v ≤ 2048 → w ≠ v := by
    rintro v hv rfl
    exact absurd (BitVec.le_trans (BitVec.le_of_lt hw) hv) (by decide)
  rw [poolNodes, List.mem_append] at hk
  rcases hk with hk | hk
  · obtain ⟨pre, seg, post, rfl, hseg⟩ := exists_mid_of_mem hk
    rw [Nat.zero_add] at hseg
    have hfocus := focus_of_mid pre seg post
    have hrest := (h.segmentAt hfocus).rest
    cases seg with
    | page live =>
        cases live <;> simp [Segment.liveNodes] at hseg
        obtain ⟨-, rfl⟩ := hseg
        exact absurd hw (BitVec.lt_irrefl _)
    | halves left right liveLeft liveRight =>
        rw [Segment.liveNodes, List.mem_append] at hseg
        rcases hseg with hseg | hseg
        · cases liveLeft <;> simp at hseg
          exact absurd hseg.2 (hhalf left hrest.1)
        · cases liveRight <;> simp at hseg
          exact absurd hseg.2 (hhalf right hrest.2.1)
    | run n =>
        rw [Segment.liveNodes, List.mem_singleton] at hseg
        obtain ⟨rfl, rfl⟩ := Prod.mk.inj hseg
        have hn := hrest.1
        rcases n with _ | n
        · exact absurd hw (by decide)
        · exact ⟨_, n, hfocus, by omega, rfl, rfl⟩
  · cases lastLive <;> simp at hk
    exact absurd hk.2 (hhalf 0 (by decide))

theorem PoolAt.run_unique (h : PoolAt m b segs lastLive) {j n n' : ℕ}
    (hf : Focus segs j (.run n)) (hf' : Focus segs j (.run n')) : n = n' := by
  have hsize := congrArg BitVec.toNat
    ((h.segmentAt hf).node.size.symm.trans (h.segmentAt hf').node.size)
  rw [Segment.node, Segment.node, toNat_pages (h.segmentAt hf).rest.1,
    toNat_pages (h.segmentAt hf').rest.1] at hsize
  omega

theorem PoolAt.not_innerPage (h : PoolAt m b segs lastLive)
    (hk : (k, w) ∈ poolNodes segs lastLive) (hw : w ≤ PAGE_SIZE) (l : ℕ) :
    ¬ InnerPage segs k l := by
  rintro ⟨j, n, i, hf, rfl, hi, hin, rfl⟩
  have hn := (h.segmentAt hf).rest.1
  have hsize : (PAGE_SIZE * BitVec.ofNat 64 (n + 1)).toNat = 4096 * (n + 1) :=
    toNat_pages hn
  have hnode : w = PAGE_SIZE * BitVec.ofNat 64 (n + 1) :=
    (h.liveAt hk).size.symm.trans
      (page_eq_slot b j ▸ (h.segmentAt hf).node.size)
  rw [BitVec.le_def, hnode, hsize, show (PAGE_SIZE : Word).toNat = 4096 from rfl]
    at hw
  omega

theorem NodeAt.eq_zero_of_notMem_rebuilt {p : Addr} {n : HeapNode} {f : Head}
    (h : NodeAt m p n) (hleft : n.left = 0) (hright : n.right = 0)
    (hf : f ∉ rebuiltMembers) : head.get m p f = 0 := by
  by_cases h1 : f = .left
  · exact h1 ▸ h.left.trans hleft
  by_cases h2 : f = .right
  · exact h2 ▸ h.right.trans hright
  by_cases h3 : f = .isBuddyCoalesced
  · exact h3 ▸ h.isBuddyCoalesced
  · exact absurd ⟨h1, h2, h3⟩ hf

/-- The writes of `freex` to the node of a block, in both memories. -/
theorem Shadowed.sameOn_freeNode (h : Shadowed m m' b segs lastLive)
    (hk : (k, w) ∈ poolNodes segs lastLive)
    (hblank : BlankInnerHeaders m' (slot b k)) {segs' : List Segment}
    (hshown : ∀ l ∈ poolShown segs', l ∈ poolShown segs ∨ InnerPage segs k l) :
    Backlinks (freeNode m (slot b k)) b ∧
      head.SameOn (slots b) (shownMembers b segs') (freeNode m (slot b k))
        (freeNode m' (slot b k)) := by
  have hlive := h.pool.liveAt hk
  have hmem := mem_poolShown_of_live hk
  have hp := slot_mem_slots b (k := k) (le_trans (h.pool.shown_le hmem)
    (by omega))
  have hbuddy' := (h.get hmem (by decide)).trans hlive.isBuddyCoalesced
  have hsize' := (h.get hmem (by decide)).trans hlive.size
  have hset := h.same.set (apart_slots b) hp .status (Flag.ofBool false)
  by_cases hw : w ≤ PAGE_SIZE
  · rw [freeNode_of_le hlive.isBuddyCoalesced (hlive.size.symm ▸ hw),
      freeNode_of_le hbuddy' (hsize'.symm ▸ hw)]
    refine ⟨h.backlinks.set _ hp (by decide), hset.mono fun x hx => Or.inr ?_⟩
    exact shownMembers_subset (fun l hl => (hshown l hl).resolve_right
      (h.pool.not_innerPage hk hw l)) hx
  · obtain ⟨j, n, hf, hn, rfl, rfl⟩ := h.pool.run_of_lt hk (BitVec.not_le.1 hw)
    have hend := h.pool.focus_le hf
    rw [Segment.span] at hend
    rw [freeNode_of_pages hn hlive.isBuddyCoalesced hlive.size,
      freeNode_of_pages hn hbuddy' hsize', ← page_eq_slot]
    rw [← page_eq_slot] at hp hset hsize'
    refine ⟨(h.backlinks.set _ hp (by decide)).freePages (by omega), ?_⟩
    -- the members that `freex` leaves alone are blank on both sides
    have hinner : head.SameOn (slots b) {x | ∃ i, 0 < i ∧ i ≤ n + 1 ∧
        x.1 = page b (j + i) ∧ x.2 ∉ rebuiltMembers} m m' := by
      refine ⟨fun x hx => ?_, fun x hx => ?_⟩ <;>
        obtain ⟨i, hi, hi', hx, hf'⟩ := hx <;> rw [hx]
      · exact page_mem_slots b (by omega)
      · have hclean := (h.pool.segmentAt hf).rest.2.1 i hi hi'
        have hzero := hblank i hi (by
          rw [← page_eq_slot, hsize', toNat_pages (by omega)]
          omega) x.2 hf'
        rw [← page_eq_slot, page, page, add_ofNat_add_ofNat, ← Nat.mul_add,
          ← page] at hzero
        rw [hzero, hclean.eq_zero_of_notMem_rebuilt rfl rfl hf']
    refine (sameOn_freePages (by omega) ((h.same.union hinner).set
      (apart_slots b) hp .status (Flag.ofBool false))).mono ?_
    rintro x ⟨l, hl, hx, hf'⟩
    rcases hshown l hl with hl | ⟨j', n', i, hf₁, hj, hi, hi', rfl⟩
    · exact Or.inl (Or.inr (Or.inl ⟨l, hl, hx, hf'⟩))
    · obtain rfl : j = j' := by omega
      obtain rfl := h.pool.run_unique hf hf₁
      obtain ⟨q, f⟩ := x
      obtain rfl : q = page b (j + i) := hx.trans (page_eq_slot b _).symm
      by_cases hf : f ∈ rebuiltMembers
      · exact Or.inr ⟨i, hi, hi', rfl, hf⟩
      · exact Or.inl (Or.inr (Or.inr ⟨i, hi, hi', rfl, hf⟩))

theorem Shadowed.free (h : Shadowed m m' b segs lastLive)
    (hk : (k, w) ∈ poolNodes segs lastLive)
    (hblank : BlankInnerHeaders m' (slot b k)) :
    ∃ segs' lastLive', Shadowed (freeNode m (slot b k)) (freeNode m' (slot b k))
        b segs' lastLive' ∧
      ∀ x, x ∈ poolNodes segs' lastLive' ↔
        x ∈ poolNodes segs lastLive ∧ x.1 ≠ k := by
  obtain ⟨segs', lastLive', hpool, hnodes, -, hshown⟩ := h.pool.release hk
  obtain ⟨hback, hsame⟩ := h.sameOn_freeNode hk hblank hshown
  exact ⟨segs', lastLive', ⟨hpool, hback, hsame⟩, hnodes⟩

end

end OptimistOS
