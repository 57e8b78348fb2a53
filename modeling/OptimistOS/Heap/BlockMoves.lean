import OptimistOS.Heap.MergedPages
import OptimistOS.Heap.OwnerRuns
import OptimistOS.Heap.Reachable

/-!
# Moving a block

`reallocx` copies a block to another one, gives the header of the new block the
members of the old one, and frees the old block. The copy stays in the room of
the new block if it is large enough, the header is the one it has already, and
`freex` writes in the room of the old block only.
-/

namespace OptimistOS

open ByteMemory ByteMemory.Code

section

variable {m : Bytes} {destination source : Addr} {num : ℕ}

theorem agreeOff_memorycpy (m : Bytes) (destination source : Addr) (num : ℕ)
    (hnum : num ≤ 2 ^ 64) : AgreeOff (region destination num) m
      (memorycpy m destination source num) := by
  induction num with
  | zero => exact .refl _ m
  | succ num ih =>
      refine ((ih (by omega)).trans (agreeOff_store _
        (destination + BitVec.ofNat 64 num) 1 _)).mono
        (Set.union_subset (region_mono _ (Nat.le_succ num)) ?_)
      exact region_subset_of_le destination (i := num) (n := 1) le_rfl hnum

theorem memorycpy_apply
    (h : Disjoint (region destination num) (region source num))
    (hnum : num ≤ 2 ^ 64) {i : ℕ} (hi : i < num) :
    memorycpy m destination source num (destination + BitVec.ofNat 64 i) =
      m (source + BitVec.ofNat 64 i) := by
  induction num with
  | zero => exact absurd hi (Nat.not_lt_zero i)
  | succ num ih =>
      have hdisj := h.mono (region_mono destination (Nat.le_succ num))
        (region_mono source (Nat.le_succ num))
      have hm := agreeOff_memorycpy m destination source num (by omega)
      rw [memorycpy]
      rcases Nat.lt_succ_iff_lt_or_eq.1 hi with hlt | rfl
      · rw [← ih hdisj (by omega) hlt]
        refine (agreeOff_store _ _ 1 _ _ fun hmem => ?_).symm
        rw [mem_region] at hmem
        bv_omega
      · have hsource : source + BitVec.ofNat 64 i ∉ region destination i :=
          Set.disjoint_right.1 (h.mono_left (region_mono _ (Nat.le_succ i)))
            (add_ofNat_mem_region source (Nat.lt_succ_self i) hnum)
        rw [store_one_apply, if_pos rfl]
        exact (hm _ hsource).symm

end

section

variable {m m' : Bytes} {b : Addr} {segs : List Segment} {lastLive : Bool}
  {k : ℕ} {w : Word}

theorem agreeOff_freePages (m : Bytes) (b : Addr) (j n : ℕ) :
    AgreeOff (pageRecords b j n) m (freePages n m (page b j)) := by
  induction n generalizing j m with
  | zero => exact .refl _ m
  | succ n ih =>
      have hq := page_add_PAGE_SIZE b j
      have hstep : AgreeOff (pageRecords b j (n + 1)) m
          (freePage m (page b j)) := by
        intro x hx
        have hp : ∀ (m : Bytes) (f : Head) (v : Word),
            head.set m (page b j) f v x = m x := fun m f v =>
          (head.agreeOff_set m _ f v x fun hmem => hx ⟨0, by omega, hmem⟩).symm
        have hq' : ∀ (m : Bytes) (f : Head) (v : Word),
            head.set m (page b (j + 1)) f v x = m x := fun m f v =>
          (head.agreeOff_set m _ f v x fun hmem => hx ⟨1, by omega, hmem⟩).symm
        rw [freePage_eq m hq, hp, hp, hq', hq', hq', hq', hq', hq']
      rw [freePages, hq]
      refine (hstep.trans (ih (freePage m (page b j)) (j + 1))).mono
        (Set.union_subset le_rfl ?_)
      rintro x ⟨i, hi, hx⟩
      exact ⟨i + 1, by omega, by rwa [show j + (i + 1) = j + 1 + i by ring]⟩

theorem status_freePages {j n : ℕ} (hj : j + n ≤ 3071) :
    head.get (freePages n m (page b j)) (page b j) .status =
      head.get m (page b j) .status := by
  cases n with
  | zero => rfl
  | succ n =>
      have hdisj : Disjoint (head.recordRegion (page b j))
          (head.recordRegion (page b (j + 1))) :=
        disjoint_pages b (by omega) (by omega) (by omega)
      have hother : ∀ (m : Bytes) (f : Head) (v : Word),
          head.get (head.set m (page b (j + 1)) f v) (page b j) .status =
            head.get m (page b j) .status := fun m f v =>
        head.get_set_of_disjoint head m .status f v hdisj
      have hself : ∀ (m : Bytes) (f : Head) (v : Word), Head.status ≠ f →
          head.get (head.set m (page b j) f v) (page b j) .status =
            head.get m (page b j) .status := fun m f v hne =>
        head.get_set_of_ne m (page b j) v hne
      have hq := page_add_PAGE_SIZE b j
      rw [freePages, hq, head.get_congr (agreeOff_freePages _ b (j + 1) n) _ _ ?_,
        freePage_eq m hq, hself _ _ _ (by decide), hself _ _ _ (by decide),
        hother, hother, hother, hother, hother, hother]
      rw [Set.disjoint_right]
      rintro x ⟨i, hi, hx⟩
      exact Set.disjoint_right.1 (disjoint_pages b (i := j) (by omega)
        (by omega : j + 1 + i ≤ 3071) (by omega)) hx

/-- `freex` writes in the room of the block only. -/
theorem Shadowed.agreeOff_freeNode (h : Shadowed m m' b segs lastLive)
    (hk : (k, w) ∈ poolNodes segs lastLive) :
    AgreeOff (room b k w) m' (freeNode m' (slot b k)) ∧
      head.get (freeNode m' (slot b k)) (slot b k) .status ≠
        Flag.allocated := by
  have hlive := h.pool.liveAt hk
  have hmem := mem_poolShown_of_live hk
  have hbuddy := (h.get hmem (by decide)).trans hlive.isBuddyCoalesced
  have hsize := (h.get hmem (by decide)).trans hlive.size
  have hset := (head.agreeOff_set m' (slot b k) .status
    (Flag.ofBool false)).mono (record_subset_room b k w)
  have hstatus : head.get (head.set m' (slot b k) .status (Flag.ofBool false))
      (slot b k) .status ≠ Flag.allocated := by
    rw [head_get_set_status _ _ _ (by decide)]
    decide
  by_cases hw : w ≤ PAGE_SIZE
  · rw [freeNode_of_le hbuddy (hsize.symm ▸ hw)]
    exact ⟨hset, hstatus⟩
  · obtain ⟨j, n, hf, hn, rfl, rfl⟩ := h.pool.run_of_lt hk (BitVec.not_le.1 hw)
    have hend := h.pool.focus_le hf
    rw [Segment.span] at hend
    rw [freeNode_of_pages hn hbuddy hsize]
    rw [← page_eq_slot] at hset hstatus ⊢
    refine ⟨?_, by rwa [status_freePages (by omega)]⟩
    refine (hset.trans (agreeOff_freePages _ b j (n + 1))).mono
      (Set.union_subset le_rfl ?_)
    rintro x ⟨i, hi, hx⟩
    have hpage : page b (j + i) = page b j + BitVec.ofNat 64 (4096 * i) := by
      rw [page, page, add_ofNat_add_ofNat, ← Nat.mul_add]
    rw [hpage] at hx
    rw [room, ← page_eq_slot, toNat_pages (by omega)]
    exact region_subset_of_le (page b j) (i := 4096 * i) (n := 64) (by omega)
      (by omega) hx

theorem PoolAt.level_shown (h : PoolAt m b segs lastLive)
    (hk : k ∈ poolShown segs) : head.get m (slot b k) .level = 0 := by
  rcases poolShown_cases hk with ⟨j, seg, hf, rfl⟩ |
    ⟨j, left, right, liveLeft, liveRight, hf, rfl⟩ | rfl
  · rw [← page_eq_slot]
    exact (h.segmentAt hf).node.level
  · obtain ⟨-, -, l, r, -, -, hnode⟩ := (h.segmentAt hf).rest
    rw [← rightHalf_eq_slot]
    exact hnode.level
  · have hlast := h.last.level
    rwa [page_eq_slot] at hlast

theorem PoolAt.disjoint_shownHeaders {n : ℕ} (h : PoolAt m b segs lastLive)
    (hk : (k, w) ∈ poolNodes segs lastLive) (hn : 64 + n ≤ max w.toNat 2048) :
    Disjoint (shownHeaders b segs) (region (slot b k + sizeofHead) n) := by
  rw [Set.disjoint_left]
  rintro x ⟨l, hl, hx⟩
  exact Set.disjoint_left.1 (h.disjoint_behind hk hl hn) hx

theorem Found.exists_answer {size : Word} {result : MallocResult}
    (h : Found m b segs size result) (hne : result.answer ≠ 0) :
    ∃ l, Current segs l ∧ result.answer = slot b l + sizeofHead := by
  cases result with
  | refused => exact absurd rfl hne
  | node q =>
      obtain ⟨l, hl, rfl, -⟩ := h
      exact ⟨l, hl, rfl⟩
  | blocks q n =>
      obtain ⟨l, hl, rfl, -⟩ := h
      exact ⟨l, hl, rfl⟩

theorem Found.not_live {size : Word} {result : MallocResult}
    (hfound : Found m b segs size result) (hshadow : Shadowed m m' b segs lastLive)
    (hends : ∀ q, result = .node q → NotAllocated m' q)
    (hk : (k, w) ∈ poolNodes segs lastLive) (hne : result.answer ≠ 0) :
    result.answer ≠ slot b k + sizeofHead := by
  have hstatus := (hshadow.pool.liveAt hk).status
  cases result with
  | refused => exact absurd rfl hne
  | blocks q n =>
      intro heq
      obtain ⟨l, -, -, hunused, -⟩ := hfound
      obtain rfl : q = slot b k := (BitVec.add_left_inj _).1 heq
      exact hunused hstatus
  | node q =>
      intro heq
      obtain rfl : q = slot b k := (BitVec.add_left_inj _).1 heq
      exact hends _ rfl ((hshadow.get (mem_poolShown_of_live hk)
        (by decide)).trans hstatus)

end

section

variable {α : Type} {s : Machine 64 (HeapGlobals α)} {live : Set Addr}
  {m : Bytes} {segs : List Segment} {lastLive : Bool} {k l : ℕ} {v w : Word}

/-- A block is copied to another one that has room for it. Nothing but the
payload of the new block is changed. -/
theorem OwnedPool.moveBlock (h : OwnedPool s live m segs lastLive)
    (hk : (k, w) ∈ poolNodes segs lastLive)
    (hl : (l, v) ∈ poolNodes segs lastLive) (hne : k ≠ l)
    (hw : 64 ≤ w.toNat) (hroom : w.toNat ≤ max v.toNat 2048) {m' : Bytes}
    (hm' : m' = OptimistOS.moveBlock s.mem
      (slot s.globals.freeList l + sizeofHead)
      (slot s.globals.freeList k + sizeofHead) v) :
    AgreeOff (region (slot s.globals.freeList l + sizeofHead) (w.toNat - 64))
        s.mem m' ∧
      (∀ i < w.toNat - 64,
        m' (slot s.globals.freeList l + sizeofHead + BitVec.ofNat 64 i) =
          s.mem (slot s.globals.freeList k + sizeofHead + BitVec.ofNat 64 i)) ∧
      OwnedPool ⟨m', s.globals⟩ live m segs lastLive := by
  have hlt := w.isLt
  have hhead : sizeofHead.toNat = 64 := rfl
  have hnum : (w - sizeofHead).toNat = w.toNat - 64 :=
    BitVec.toNat_sub_of_le (by rw [BitVec.le_def]; omega)
  set b := s.globals.freeList
  set copied := memorycpy s.mem (slot b l + sizeofHead) (slot b k + sizeofHead)
    (w.toNat - 64) with hcopied
  have hm := agreeOff_memorycpy s.mem (slot b l + sizeofHead)
    (slot b k + sizeofHead) (w.toNat - 64) (by omega)
  have hpool : OwnedPool ⟨copied, s.globals⟩ live m segs lastLive :=
    ⟨h.state, h.shadow.congr hm fun i hi =>
      h.shadow.pool.disjoint_behind hl hi (by omega)⟩
  have hget : ∀ {i u f}, (i, u) ∈ poolNodes segs lastLive → f ≠ .previous →
      head.get copied (slot b i) f = head.get m (slot b i) f :=
    fun hi hf => hpool.shadow.get (mem_poolShown_of_live hi) hf
  have hlevel : head.get copied (slot b k) .level =
      head.get copied (slot b l) .level := by
    rw [hget hk (by decide), hget hl (by decide),
      h.shadow.pool.level_shown (mem_poolShown_of_live hk),
      h.shadow.pool.level_shown (mem_poolShown_of_live hl)]
  have hstatus : head.get copied (slot b k) .status =
      head.get copied (slot b l) .status :=
    (hpool.get_status hk).trans (hpool.get_status hl).symm
  have hsize : v = head.get copied (slot b l) .size := (hpool.get_size hl).symm
  -- the header of the new block is written with the members it has
  have hsame : m' = copied := by
    rw [hm', OptimistOS.moveBlock, BitVec.add_sub_cancel, BitVec.add_sub_cancel,
      h.get_size hk, hnum, ← hcopied, hlevel,
      head.set_get_self copied _ .level (by decide), hstatus,
      head.set_get_self copied _ .status (by decide)]
    conv_lhs => rw [hsize]
    exact head.set_get_self copied _ .size (by decide)
  rw [hsame]
  refine ⟨hm, fun i hi => memorycpy_apply ?_ (by omega) hi, hpool⟩
  exact (h.shadow.pool.disjoint_rooms hl hk hne.symm).mono
    (region_subset_room b l (by omega)) (region_subset_room b k (by omega))

end

end OptimistOS
