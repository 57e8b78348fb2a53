import OptimistOS.Heap.Blocks

/-!
# What a call does to the pool

`mallocx` adds the block that it hands out to the allocated nodes and `freex`
takes the block away, as long as several pages are only merged when none of them
was split. Nothing is said about the sizes of the other blocks here: they stay
as they are when the splits of the search allow it.
-/

namespace OptimistOS

open ByteMemory ByteMemory.Code

section

variable {α : Type} {s s' : Machine 64 (HeapGlobals α)}

theorem run_coalesceBlocks {node last : Addr} {n : Word}
    (hmutex : s.globals.mutex = 0)
    (hlast : nodeAfter s.mem (n - 1).toNat node = .ok last) (hne : last ≠ 0) :
    (coalesceBlocks node n).run s = .ok (node + sizeofHead)
      ⟨mergeBlocks s.mem node (head.get s.mem last .next) n, s.globals⟩ := by
  rw [coalesceBlocks, lockHeap, run_bind_of_ok (run_lock_of_free hmutex),
    EStateM.run_bind, EStateM.run_get]
  simp only [hlast, if_neg hne]
  change EStateM.Result.ok (node + sizeofHead) (Machine.mk (mergeBlocks s.mem
    node (head.get s.mem last .next) n) { s.globals with mutex := 0 }) = _
  rw [← hmutex]

theorem run_freex (block : Addr) (hmutex : s.globals.mutex = 0) :
    (freex block).run s =
      .ok () ⟨freeNode s.mem (block - sizeofHead), s.globals⟩ := by
  rw [freex, lockHeap, run_bind_of_ok (run_lock_of_free hmutex),
    EStateM.run_bind, run_modifyMem]
  simp only [unlockHeap, run_unlock]
  rw [← hmutex]

end

/-- The allocated nodes before and after a call of `mallocx` that returns
`p`. -/
inductive Served (b : Addr) (nodes nodes' : List (ℕ × Word)) (p : Addr) : Prop
  | refused (hp : p = 0) (h : nodes' = nodes)
  | block {k : ℕ} {w : Word} (hp : p = slot b k + sizeofHead)
      (h : ∀ x, x ∈ nodes' ↔ x ∈ nodes ∨ x = (k, w))

section

variable {m : Bytes} {b : Addr} {segs : List Segment} {lastLive : Bool}

/-- The pages that a search over whole pages ends at. -/
theorem PoolAt.foundPages (h : PoolAt m b segs lastLive) {size : Word} {p : Addr}
    {n : Word} (hfound : Found m b segs size (.blocks p n))
    (hwhole : WholePages m p n) :
    ∃ pre post t, t ≤ 3 ∧ n = BitVec.ofNat 64 (t + 1) ∧
      p = page b (spans pre) ∧
      segs = pre ++ List.replicate (t + 1) (.page false) ++ post := by
  obtain ⟨k, hk, rfl, hstatus, hsize, rfl, hblocks, hcan⟩ := hfound
  have hpage : (PAGE_SIZE : Word).toNat = 4096 := rfl
  have hmax : (MAXIMUM_COALESCE_BLOCKS : Word).toNat = 4 := rfl
  rw [BitVec.lt_def, hpage] at hsize
  rw [BitVec.le_def, hmax] at hblocks
  have hdiv : (size / PAGE_SIZE).toNat = size.toNat / 4096 := by
    rw [BitVec.toNat_udiv, hpage]
  have hone : (1 : Word).toNat = 1 := rfl
  have hpred : (size / PAGE_SIZE - 1).toNat = (size / PAGE_SIZE).toNat - 1 :=
    BitVec.toNat_sub_of_le (by rw [BitVec.le_def]; omega)
  have hfirst := hwhole 0 (by omega)
  rw [show slot b k + BitVec.ofNat 64 (4096 * 0) = slot b k from
    BitVec.add_zero _] at hfirst
  obtain ⟨j, rfl, hf⟩ := h.exists_page hk hstatus hfirst
  obtain ⟨pre, post, rfl, rfl⟩ := hf
  have hlen : spans (pre ++ [.page false]) = spans pre + 1 := by
    rw [spans_append, spans_cons, spans_nil]
    rfl
  have hnext : head.get m (slot b (2 * spans pre)) .next =
      page b (spans (pre ++ [.page false])) := by
    rw [← page_eq_slot, hlen]
    exact (h.segmentAt ⟨pre, post, rfl, rfl⟩).node.next
  rw [hnext] at hcan
  have hpool : PoolAt m b (pre ++ [.page false] ++ post) lastLive := by
    rwa [List.append_assoc]
  obtain ⟨post', rfl⟩ := hpool.pages_of_canCoalesce hcan fun i hi => by
    have hi' := hwhole (i + 1) (by omega)
    rw [← page_eq_slot, page, add_ofNat_add_ofNat] at hi'
    rw [hlen, page, ← hi']
    congr 3
    ring
  refine ⟨pre, post', (size / PAGE_SIZE - 1).toNat, by omega, ?_,
    (page_eq_slot b _).symm, by
      rw [List.replicate_succ, List.append_assoc, List.cons_append]⟩
  refine BitVec.eq_of_toNat_eq ?_
  rw [BitVec.toNat_ofNat]
  omega

theorem toNat_pages_pred {t : ℕ} (ht : t ≤ 3) :
    (BitVec.ofNat 64 (t + 1) - 1).toNat = t := by
  have hone : (1 : Word).toNat = 1 := rfl
  rw [BitVec.toNat_sub, BitVec.toNat_ofNat, hone]
  omega

theorem mem_poolNodes_merged {pre post : List Segment} {t : ℕ} (x : ℕ × Word) :
    x ∈ poolNodes (pre ++ [.run t] ++ post) lastLive ↔
      x ∈ poolNodes (pre ++ List.replicate (t + 1) (.page false) ++ post)
          lastLive ∨
        x = (2 * spans pre, PAGE_SIZE * BitVec.ofNat 64 (t + 1)) := by
  rw [mem_poolNodes_mid, mem_poolNodes_mid, liveNodes_replicate,
    liveNodes_singleton, Segment.liveNodes, spans_replicate_page,
    spans_cons, spans_nil, Segment.span, Nat.add_zero]
  simp only [List.mem_singleton, List.not_mem_nil, false_or]
  tauto

/-- A request is served from the end of its search. -/
theorem PoolAt.serve {α : Type} {s s' : Machine 64 (HeapGlobals α)} {p : Addr}
    {size : Word} {result : MallocResult} (h : PoolAt m b segs lastLive)
    (hfound : Found m b segs size result)
    (hwhole : ∀ p n, result = .blocks p n → WholePages m p n)
    (hrun : (serveRequest (.ok (result, m))).run s = .ok p s') :
    s'.globals = { s.globals with mutex := 0 } ∧
      ∃ segs' lastLive', PoolAt s'.mem b segs' lastLive' ∧
        Served b (poolNodes segs lastLive) (poolNodes segs' lastLive') p ∧
        HalvesFrom segs segs' := by
  cases result with
  | refused =>
      obtain ⟨rfl, rfl⟩ := EStateM.Result.ok.inj
        ((run_serveRequest_refused m s).symm.trans hrun)
      exact ⟨rfl, segs, lastLive, h, .refused rfl rfl, .refl _⟩
  | node q =>
      obtain ⟨rfl, rfl⟩ := EStateM.Result.ok.inj
        ((run_serveRequest_node m q s).symm.trans hrun)
      obtain ⟨k, hk, rfl, -⟩ := hfound
      obtain ⟨segs', lastLive', hpool, hnodes, hfrom, -⟩ := h.grant hk
      exact ⟨rfl, segs', lastLive', hpool, .block rfl hnodes, hfrom⟩
  | blocks q n =>
      obtain ⟨pre, post, t, ht, rfl, rfl, rfl⟩ := h.foundPages hfound
        (hwhole q n rfl)
      obtain ⟨last, hlast, hne, hpool⟩ := h.merge ht
      have hcoalesce := run_coalesceBlocks (s := ⟨m, { s.globals with
        mutex := 0 }⟩) (n := BitVec.ofNat 64 (t + 1)) rfl
          ((toNat_pages_pred ht).symm ▸ hlast) hne
      obtain ⟨rfl, rfl⟩ := EStateM.Result.ok.inj (hcoalesce.symm.trans hrun)
      refine ⟨rfl, _, _, hpool,
        .block (congrArg (· + sizeofHead) (page_eq_slot b _))
          mem_poolNodes_merged,
        (halvesFrom_of_forall_ne fun l r ll lr hs => ?_).replace _ _⟩
      exact absurd (List.mem_singleton.1 hs) (by simp)

theorem slot_add_header_ne_zero (hb : PoolBase b) {k : ℕ} (hk : k ≤ 6142) :
    slot b k + sizeofHead ≠ 0 := by
  have hfits := hb.fits
  have hsize : poolBytes.toNat = 12779520 := by decide
  have hhead : sizeofHead = BitVec.ofNat 64 64 := rfl
  intro h
  have hnat := congrArg BitVec.toNat h
  rw [slot, hhead, add_ofNat_add_ofNat, BitVec.toNat_add, BitVec.toNat_ofNat]
    at hnat
  have hzero : (0 : Addr).toNat = 0 := rfl
  omega

theorem slot_add_header_inj {k l : ℕ} (hk : k ≤ 6142) (hl : l ≤ 6142)
    (h : slot b k + sizeofHead = slot b l + sizeofHead) : k = l :=
  slot_inj b (by omega) (by omega) ((BitVec.add_left_inj _).1 h)

end

def poolSlots (segs : List Segment) (lastLive : Bool) : List ℕ :=
  (poolNodes segs lastLive).map Prod.fst

/-- The heap at work: the pool is the list of segments, and its allocated nodes
are the headers of the blocks `live` that are handed out. -/
structure PoolState {α : Type} (s : Machine 64 (HeapGlobals α))
    (live : Set Addr) (segs : List Segment) (lastLive : Bool) : Prop where
  mutex : s.globals.mutex = 0
  pool : PoolAt s.mem s.globals.freeList segs lastLive
  live : ∀ p, p ∈ live ↔ ∃ k ∈ poolSlots segs lastLive,
    p = slot s.globals.freeList k + sizeofHead

section

variable {α : Type} {s s' : Machine 64 (HeapGlobals α)} {live : Set Addr}
  {segs : List Segment} {lastLive : Bool}

theorem mem_poolSlots {k : ℕ} :
    k ∈ poolSlots segs lastLive ↔ ∃ w, (k, w) ∈ poolNodes segs lastLive := by
  simp [poolSlots]

theorem PoolState.slot_le (h : PoolState s live segs lastLive) {k : ℕ}
    (hk : k ∈ poolSlots segs lastLive) : k ≤ 6142 := by
  obtain ⟨w, hw⟩ := mem_poolSlots.1 hk
  exact (h.pool.liveAt hw).slot_le

theorem PoolState.exists_of_mem (h : PoolState s live segs lastLive) {p : Addr}
    (hp : p ∈ live) : ∃ k w, (k, w) ∈ poolNodes segs lastLive ∧
      p = slot s.globals.freeList k + sizeofHead := by
  obtain ⟨k, hk, rfl⟩ := (h.live p).1 hp
  obtain ⟨w, hw⟩ := mem_poolSlots.1 hk
  exact ⟨k, w, hw, rfl⟩

/-- The blocks that are handed out lose the one that is given back. -/
theorem PoolState.givesBack {segs' : List Segment} {lastLive' : Bool} {k : ℕ}
    {w : Word} (h : PoolState s live segs lastLive)
    (hk : (k, w) ∈ poolNodes segs lastLive)
    (hpool : PoolAt (freeNode s.mem (slot s.globals.freeList k))
      s.globals.freeList segs' lastLive')
    (hnodes : ∀ x, x ∈ poolNodes segs' lastLive' ↔
      x ∈ poolNodes segs lastLive ∧ x.1 ≠ k) :
    (OptimistOS.freex (slot s.globals.freeList k + sizeofHead)).run s =
        .ok () ⟨freeNode s.mem (slot s.globals.freeList k), s.globals⟩ ∧
      PoolState ⟨freeNode s.mem (slot s.globals.freeList k), s.globals⟩
        (live \ {slot s.globals.freeList k + sizeofHead}) segs' lastLive' := by
  have hrun := run_freex (s := s) (slot s.globals.freeList k + sizeofHead)
    h.mutex
  rw [BitVec.add_sub_cancel] at hrun
  -- of the new memory only `hpool` matters
  generalize freeNode s.mem (slot s.globals.freeList k) = m at hpool hrun
  refine ⟨hrun, h.mutex, hpool, fun p => ?_⟩
  have hkle := (h.pool.liveAt hk).slot_le
  rw [Set.mem_sdiff, Set.mem_singleton_iff, h.live]
  constructor
  · rintro ⟨⟨l, hl, rfl⟩, hne⟩
    obtain ⟨v, hv⟩ := mem_poolSlots.1 hl
    refine ⟨l, mem_poolSlots.2 ⟨v, (hnodes _).2 ⟨hv, ?_⟩⟩, rfl⟩
    rintro rfl
    exact hne rfl
  · rintro ⟨l, hl, rfl⟩
    obtain ⟨v, hv⟩ := mem_poolSlots.1 hl
    obtain ⟨hold, hne⟩ := (hnodes _).1 hv
    have hl' := mem_poolSlots.2 ⟨v, hold⟩
    exact ⟨⟨l, hl', rfl⟩, fun heq =>
      hne (slot_add_header_inj (h.slot_le hl') hkle heq)⟩

theorem PoolState.freex (h : PoolState s live segs lastLive) {block : Addr}
    (hblock : block ∈ live)
    (hrun : (OptimistOS.freex block).run s = .ok () s') :
    ∃ k segs' lastLive', block = slot s.globals.freeList k + sizeofHead ∧
      s'.globals = s.globals ∧
      (∀ x, x ∈ poolNodes segs' lastLive' ↔
        x ∈ poolNodes segs lastLive ∧ x.1 ≠ k) ∧
      HalvesFrom segs segs' ∧
      PoolState s' (live \ {block}) segs' lastLive' := by
  obtain ⟨k, w, hk, rfl⟩ := h.exists_of_mem hblock
  obtain ⟨segs', lastLive', hpool, hnodes, hfrom, -⟩ := h.pool.release hk
  obtain ⟨hfree, hstate⟩ := h.givesBack hk hpool hnodes
  obtain ⟨-, rfl⟩ := EStateM.Result.ok.inj (hfree.symm.trans hrun)
  exact ⟨k, segs', lastLive', rfl, rfl, hnodes, hfrom, hstate⟩

/-- The blocks that are handed out after a call of `mallocx`. -/
def liveAfter (live : Set Addr) (p : Addr) : Set Addr :=
  if p = 0 then live else live ∪ {p}

theorem Served.mem_liveAfter {b p : Addr} {nodes nodes' : List (ℕ × Word)}
    (h : Served b nodes nodes' p) (hb : PoolBase b)
    (hle : ∀ x ∈ nodes', x.1 ≤ 6142)
    (hlive : ∀ q, q ∈ live ↔ ∃ k ∈ nodes.map Prod.fst,
      q = slot b k + sizeofHead) (q : Addr) :
    q ∈ liveAfter live p ↔
      ∃ k ∈ nodes'.map Prod.fst, q = slot b k + sizeofHead := by
  rcases h with ⟨rfl, rfl⟩ | @⟨k, w, rfl, hnodes⟩
  · rw [liveAfter, if_pos rfl, hlive]
  · have hk := hle _ ((hnodes (k, w)).2 (Or.inr rfl))
    rw [liveAfter, if_neg (slot_add_header_ne_zero hb hk), Set.mem_union,
      Set.mem_singleton_iff, hlive]
    simp only [List.mem_map, Prod.exists, exists_and_right, exists_eq_right,
      hnodes, Prod.mk.injEq]
    constructor
    · rintro (⟨l, ⟨v, hv⟩, rfl⟩ | rfl)
      · exact ⟨l, ⟨v, Or.inl hv⟩, rfl⟩
      · exact ⟨k, ⟨w, Or.inr ⟨rfl, rfl⟩⟩, rfl⟩
    · rintro ⟨l, ⟨v, hv | ⟨rfl, -⟩⟩, rfl⟩
      · exact Or.inl ⟨l, ⟨v, hv⟩, rfl⟩
      · exact Or.inr rfl

theorem MergesOnly.of_mallocLoop {P : Bytes → Addr → Word → Prop} {size : Word}
    {fuel : ℕ} {m m' : Bytes} {p : Addr} {result : MallocResult}
    (h : MergesOnly P size m p)
    (hloop : mallocLoop size fuel m p = .ok (result, m')) (q : Addr) (n : Word)
    (hresult : result = .blocks q n) : P m' q n := by
  subst hresult
  obtain ⟨r, hsearch, hlast⟩ := exists_lastIteration hloop
  have hmulti := multiPage_of_mallocStep hlast
  rcases multiPage_eq_some hmulti with hrefused | ⟨hblocks, -⟩
  · exact absurd hrefused (by simp)
  · obtain ⟨rfl, -⟩ := MallocResult.blocks.inj hblocks
    exact h m' q n hsearch hmulti

/-- A block is handed out, or the request is refused. -/
theorem PoolState.mallocx {P : Bytes → Addr → Prop} {I : List Segment → Prop}
    {size : Word} {fuel : ℕ} {result : MallocResult} {m : Bytes} {p : Addr}
    (h : PoolState ⟨s.mem, { s.globals with mutex := 0 }⟩ live segs lastLive)
    (hI : ∀ m segs k segs', PoolAt m s.globals.freeList segs lastLive → I segs →
      P m (slot s.globals.freeList k) → Halve segs k segs' → I segs')
    (hstart : I segs) (hsplits : SplitsOnly P size s.mem s.globals.freeList)
    (hmerges : MergesOnly WholePages size s.mem s.globals.freeList)
    (hloop : mallocLoop size fuel s.mem s.globals.freeList = .ok (result, m))
    (hserve : (serveRequest (.ok (result, m))).run s = .ok p s') :
    ∃ segs₁ segs' lastLive', I segs₁ ∧
      s'.globals = { s.globals with mutex := 0 } ∧
      Served s.globals.freeList (poolNodes segs₁ lastLive)
        (poolNodes segs' lastLive') p ∧
      HalvesFrom segs₁ segs' ∧
      PoolState s' (liveAfter live p) segs' lastLive' := by
  have hfirst : slot s.globals.freeList 0 = s.globals.freeList :=
    BitVec.add_zero _
  obtain ⟨segs₁, hpool₁, ⟨hI₁, hslots⟩, hfound⟩ := h.pool.search
    (P := P) (I := fun segs' => I segs' ∧
      (liveNodes 0 segs').map Prod.fst = (liveNodes 0 segs).map Prod.fst)
    h.pool.current_first
    (fun m segs k segs' hpool hstart' hP hhalve =>
      ⟨hI m segs k segs' hpool hstart'.1 hP hhalve,
        hhalve.slots_eq.trans hstart'.2⟩)
    (hfirst.symm ▸ hsplits) ⟨hstart, rfl⟩ (hfirst.symm ▸ hloop)
  have hwhole := hmerges.of_mallocLoop hloop
  obtain ⟨hglobals, segs', lastLive', hpool', hhanded, hfrom⟩ :=
    hpool₁.serve hfound hwhole hserve
  refine ⟨segs₁, segs', lastLive', hI₁, hglobals, hhanded, hfrom, ?_, ?_, ?_⟩
  · rw [hglobals]
  · rwa [hglobals]
  · have hslots₁ : poolSlots segs₁ lastLive = poolSlots segs lastLive := by
      rw [poolSlots, poolSlots, poolNodes, poolNodes, List.map_append, hslots,
        List.map_append]
    have hlive : ∀ q, q ∈ live ↔ ∃ k ∈ poolSlots segs₁ lastLive,
        q = slot s.globals.freeList k + sizeofHead := hslots₁ ▸ h.live
    rw [hglobals]
    exact hhanded.mem_liveAfter hpool'.base
      (fun x hx => (hpool'.liveAt hx).slot_le) hlive

end

end OptimistOS
