import OptimistOS.Heap.MergedPages
import OptimistOS.Heap.Reachable

/-!
# The end of a search

The loop of `mallocx` has no test for the end of the pool. It ends when it comes
to a node of the size that it looks for, to an unallocated node that is larger,
or to an unallocated page with enough unallocated pages behind it
(`FindsBlock`). When it comes to the last page it stays there for ever, and when
the scan over the pages behind a node gets beyond the last page it reads the
null pointer. A request is answered exactly when its search finds a block
(`answers_iff`).

Requests for four pages leave one page out between two blocks, because an
iteration at an allocated block looks at the page behind it without gathering
pages there (`spacedBlocks`). After 614 of them the scan of the next request
runs over the last two pages and into the null pointer.
-/

namespace OptimistOS

open ByteMemory ByteMemory.Code Transition

/-- The call returns the null pointer or a block whose header is marked as
allocated. -/
def Answers {τ : Type} (T : SizeTable τ) (fuel : ℕ) (s : HeapState τ)
    (size : Word) : Prop :=
  ∃ heapFuel p s', (mallocx (heapAllocator T fuel) heapFuel size).run s.machine =
      .ok p s' ∧
    (p = 0 ∨ head.get s'.mem (p - sizeofHead) .status = Flag.allocated)

def UnallocatedNodes (m : Bytes) : ℕ → Addr → Prop
  | 0, _ => True
  | n + 1, p => p ≠ 0 ∧ head.get m p .status ≠ Flag.allocated ∧
      UnallocatedNodes m n (head.get m p .next)

def RunsOut (m : Bytes) : ℕ → Addr → Prop
  | 0, _ => False
  | n + 1, p => p = 0 ∨ head.get m p .status ≠ Flag.allocated ∧
      RunsOut m n (head.get m p .next)

def LooksForPages (m : Bytes) (size : Word) (p : Addr) : Prop :=
  PAGE_SIZE < size ∧ head.get m p .level = 0 ∧
    head.get m p .status ≠ Flag.allocated ∧ head.get m p .next ≠ 0

/-- There are enough pages, or the request is for too many. -/
def EndsWithPages (m : Bytes) (size : Word) (p : Addr) : Prop :=
  LooksForPages m size p ∧ (MAXIMUM_COALESCE_BLOCKS < size / PAGE_SIZE ∨
    UnallocatedNodes m (size / PAGE_SIZE - 1).toNat (head.get m p .next))

/-- The scan over the pages behind `p` gets beyond the last page. -/
def ScansPastEnd (m : Bytes) (size : Word) (p : Addr) : Prop :=
  LooksForPages m size p ∧ size / PAGE_SIZE ≤ MAXIMUM_COALESCE_BLOCKS ∧
    RunsOut m (size / PAGE_SIZE - 1).toNat (head.get m p .next)

/-- The node has the size that is looked for, or it is larger and not
allocated. -/
def TakesNode (m : Bytes) (size : Word) (p : Addr) : Prop :=
  head.get m p .size = size ∨
    head.get m p .status ≠ Flag.allocated ∧ size < head.get m p .size

inductive FindsBlock (m : Bytes) (size : Word) : Addr → Prop
  | pages {p : Addr} (h : EndsWithPages m size p) : FindsBlock m size p
  | node {p : Addr} (hscan : ¬ ScansPastEnd m size p)
      (h : TakesNode m size (skipAllocated m p)) : FindsBlock m size p
  | next {p : Addr} (hscan : ¬ ScansPastEnd m size p)
      (hnext : head.get m (skipAllocated m p) .next ≠ 0)
      (h : FindsBlock m size (head.get m (skipAllocated m p) .next)) :
      FindsBlock m size p

theorem canCoalesce_eq_true_iff {m : Bytes} {n : ℕ} {p : Addr} :
    canCoalesce m n p = .ok true ↔ UnallocatedNodes m n p := by
  induction n generalizing p with
  | zero => exact iff_of_true rfl trivial
  | succ n ih =>
      rw [canCoalesce, UnallocatedNodes]
      split_ifs with hnull hallocated
      · exact iff_of_false (by simp) fun h => h.1 hnull
      · exact iff_of_false (by simp) fun h => h.2.1 hallocated
      · rw [ih]
        exact ⟨fun h => ⟨hnull, hallocated, h⟩, fun h => h.2.2⟩

theorem canCoalesce_eq_error_iff {m : Bytes} {n : ℕ} {p : Addr} :
    (∃ e, canCoalesce m n p = .error e) ↔ RunsOut m n p := by
  induction n generalizing p with
  | zero => exact iff_of_false (by simp [canCoalesce]) id
  | succ n ih =>
      rw [canCoalesce, RunsOut]
      split_ifs with hnull hallocated
      · exact iff_of_true ⟨_, rfl⟩ (Or.inl hnull)
      · exact iff_of_false (by simp) fun h =>
          h.elim hnull fun hrest => hrest.1 hallocated
      · rw [ih]
        exact ⟨fun h => Or.inr ⟨hallocated, h⟩, fun h =>
          (h.resolve_left hnull).2⟩

section

variable {m : Bytes} {size : Word} {p : Addr}

theorem LooksForPages.multiPage_of_lt (h : LooksForPages m size p)
    (hmany : MAXIMUM_COALESCE_BLOCKS < size / PAGE_SIZE) :
    multiPage m size p = .ok (some .refused) := by
  rw [multiPage, if_pos (by exact h), if_pos hmany]

theorem LooksForPages.multiPage_of_le (h : LooksForPages m size p)
    (hfew : ¬ MAXIMUM_COALESCE_BLOCKS < size / PAGE_SIZE) :
    multiPage m size p =
      (canCoalesce m (size / PAGE_SIZE - 1).toNat (head.get m p .next)).bind
        fun can => .ok (if can then some (.blocks p (size / PAGE_SIZE))
          else none) := by
  rw [multiPage, if_pos (by exact h), if_neg hfew]
  refine congrArg (Except.bind _) (funext fun can => ?_)
  cases can <;> rfl

theorem EndsWithPages.multiPage_eq (h : EndsWithPages m size p) :
    ∃ result, multiPage m size p = .ok (some result) := by
  obtain ⟨hlooks, henough⟩ := h
  by_cases hmany : MAXIMUM_COALESCE_BLOCKS < size / PAGE_SIZE
  · exact ⟨_, hlooks.multiPage_of_lt hmany⟩
  · refine ⟨.blocks p (size / PAGE_SIZE), ?_⟩
    rw [hlooks.multiPage_of_le hmany,
      canCoalesce_eq_true_iff.2 (henough.resolve_left hmany)]
    rfl

theorem ScansPastEnd.multiPage_eq (h : ScansPastEnd m size p) :
    ∃ e, multiPage m size p = .error e := by
  obtain ⟨hlooks, hfew, hout⟩ := h
  obtain ⟨e, he⟩ := canCoalesce_eq_error_iff.2 hout
  exact ⟨e, by rw [hlooks.multiPage_of_le (BitVec.not_lt.2 hfew), he]; rfl⟩

theorem multiPage_eq_none (hends : ¬ EndsWithPages m size p)
    (hscan : ¬ ScansPastEnd m size p) : multiPage m size p = .ok none := by
  by_cases hlooks : LooksForPages m size p
  · have hmany : ¬ MAXIMUM_COALESCE_BLOCKS < size / PAGE_SIZE :=
      fun hmany => hends ⟨hlooks, Or.inl hmany⟩
    rw [hlooks.multiPage_of_le hmany]
    cases hcan : canCoalesce m (size / PAGE_SIZE - 1).toNat
        (head.get m p .next) with
    | error e =>
        exact absurd ⟨hlooks, BitVec.not_lt.1 hmany,
          canCoalesce_eq_error_iff.1 ⟨e, hcan⟩⟩ hscan
    | ok can =>
        cases can with
        | false => rfl
        | true =>
            exact absurd ⟨hlooks, Or.inr (canCoalesce_eq_true_iff.1 hcan)⟩ hends
  · rw [multiPage, if_neg (by exact hlooks)]

theorem takeOrSplit_eq_next (hp : p ≠ 0) (h : ¬ TakesNode m size p) :
    takeOrSplit m size p = .ok (.next m (if head.get m p .next ≠ 0
      then head.get m p .next else p)) := by
  rw [TakesNode, not_or] at h
  have hleave : head.get m p .status = Flag.allocated ∨
      head.get m p .size < size := by
    by_contra hstay
    rw [not_or] at hstay
    exact h.2 ⟨hstay.1, BitVec.lt_of_le_ne (BitVec.not_lt.1 hstay.2) (Ne.symm h.1)⟩
  rw [takeOrSplit, if_neg hp, if_neg h.1, if_pos hleave]

theorem mallocStep_of_multiPage {result : MallocResult} (hp : p ≠ 0)
    (h : multiPage m size p = .ok (some result)) :
    mallocStep m size p = .ok (.done result) := by
  rw [mallocStep, if_neg hp, h]
  rfl

theorem mallocStep_of_none (hp : p ≠ 0) (h : multiPage m size p = .ok none) :
    mallocStep m size p = takeOrSplit m size (skipAllocated m p) := by
  rw [mallocStep, if_neg hp, h]
  rfl

end

/-- A size that comes from halving a page. -/
def Dyadic (w : Word) : Prop := ∃ i, w.toNat = 4096 / 2 ^ i

theorem Dyadic.half {w : Word} (h : Dyadic w) : Dyadic (w / 2) := by
  obtain ⟨i, hi⟩ := h
  refine ⟨i + 1, ?_⟩
  rw [BitVec.toNat_udiv, hi, show (2 : Word).toNat = 2 from rfl,
    Nat.div_div_eq_div_mul, Nat.pow_succ]

theorem dyadic_PAGE_SIZE : Dyadic PAGE_SIZE := ⟨0, rfl⟩

theorem Dyadic.le_half {v w : Word} (hv : Dyadic v) (hw : Dyadic w)
    (hlt : v < w) : v ≤ w / 2 := by
  obtain ⟨j, hj⟩ := hv
  obtain ⟨i, hi⟩ := hw
  rw [BitVec.lt_def, hj, hi] at hlt
  have hij : i + 1 ≤ j := by
    by_contra hji
    have hle : 4096 / 2 ^ i ≤ 4096 / 2 ^ j :=
      Nat.div_le_div_left (Nat.pow_le_pow_right (by decide) (by omega))
        (Nat.two_pow_pos j)
    omega
  rw [BitVec.le_def, BitVec.toNat_udiv, hj, hi,
    show (2 : Word).toNat = 2 from rfl, Nat.div_div_eq_div_mul, ← Nat.pow_succ]
  exact Nat.div_le_div_left (Nat.pow_le_pow_right (by decide) hij)
    (Nat.two_pow_pos _)

theorem dyadic_of_mul {w : Word} {i : ℕ} (h : w.toNat * 2 ^ i = 4096) :
    Dyadic w :=
  ⟨i, by rw [← h, Nat.mul_div_cancel _ (Nat.two_pow_pos i)]⟩

theorem dyadic_blockSize {size : Word} (h : blockSize size ≤ PAGE_SIZE) :
    Dyadic (blockSize size) := by
  obtain ⟨x, hx⟩ : ∃ x, blockSize size = roundUpToNextPower2 x := ⟨_, rfl⟩
  rw [hx] at h ⊢
  rw [BitVec.le_def, show (PAGE_SIZE : Word).toNat = 4096 from rfl] at h
  set r := roundUpToNextPower2 x with hr
  by_cases hzero : r.toNat = 0
  · exact ⟨13, hzero⟩
  · have hpred : (r - 1).toNat = r.toNat - 1 := by bv_omega
    have hsmear := smears_roundUpToNextPower2 x
    rw [← hr] at hsmear
    have hle := BitVec.le_def.1 (hsmear.le (by decide))
    rcases hsmear.toNat_eq_of_lt (by omega) with ⟨hone, -⟩ | ⟨k, -, hlow, hv⟩
    · exact dyadic_of_mul (i := 12) (by omega)
    · have hk : k < 12 := (Nat.pow_lt_pow_iff_right (a := 2) (by omega)).1
        (by omega)
      have hpos := Nat.two_pow_pos (k + 1)
      refine dyadic_of_mul (i := 11 - k) ?_
      rw [show r.toNat = 2 ^ (k + 1) by omega, ← Nat.pow_add,
        show k + 1 + (11 - k) = 12 by omega]

def DyadicHalves (segs : List Segment) : Prop :=
  ∀ left right liveLeft liveRight,
    .halves left right liveLeft liveRight ∈ segs → Dyadic left ∧ Dyadic right

theorem DyadicHalves.replace_one {pre post : List Segment} {seg seg' : Segment}
    (h : DyadicHalves (pre ++ [seg] ++ post))
    (hseg : ∀ left right liveLeft liveRight,
      seg' = .halves left right liveLeft liveRight →
        Dyadic left ∧ Dyadic right) :
    DyadicHalves (pre ++ [seg'] ++ post) := by
  intro left right liveLeft liveRight hmem
  rw [List.mem_append, List.mem_append, List.mem_singleton] at hmem
  rcases hmem with (hmem | heq) | hmem
  · exact h left right liveLeft liveRight (by simp [hmem])
  · exact hseg left right liveLeft liveRight heq.symm
  · exact h left right liveLeft liveRight (by simp [hmem])

theorem DyadicHalves.halve {segs segs' : List Segment} {k : ℕ}
    (h : DyadicHalves segs) (hhalve : Halve segs k segs') :
    DyadicHalves segs' := by
  cases hhalve with
  | page pre post =>
      refine h.replace_one fun l r ll lr heq => ?_
      obtain ⟨rfl, rfl, -, -⟩ := Segment.halves.inj heq
      exact ⟨dyadic_PAGE_SIZE.half, dyadic_PAGE_SIZE.half⟩
  | left pre post left right liveRight =>
      obtain ⟨hleft, -⟩ := h left right false liveRight (by simp)
      refine h.replace_one fun l r ll lr heq => ?_
      obtain ⟨rfl, rfl, -, -⟩ := Segment.halves.inj heq
      exact ⟨hleft.half, hleft.half⟩
  | right pre post left right liveLeft =>
      obtain ⟨hleft, hright⟩ := h left right liveLeft false (by simp)
      refine h.replace_one fun l r ll lr heq => ?_
      obtain ⟨rfl, rfl, -, -⟩ := Segment.halves.inj heq
      exact ⟨hleft, hright.half⟩

theorem keptBy_dyadicHalves : KeptBy (fun _ _ _ => True) DyadicHalves where
  fresh _ _ _ _ hmem := absurd (List.eq_of_mem_replicate hmem) (by simp)
  halve _ h _ hhalve := h.halve hhalve
  mark hfrom h left right liveLeft liveRight hmem := by
    obtain ⟨ll, lr, hmem'⟩ := hfrom left right liveLeft liveRight hmem
    exact h left right ll lr hmem'

section

variable {m m' : Bytes} {b : Addr} {segs segs' : List Segment} {lastLive : Bool}
  {k : ℕ}

theorem Halve.node (hhalve : Halve segs k segs') (h : PoolAt m b segs lastLive)
    (h' : PoolAt m' b segs' lastLive) :
    head.get m' (slot b k) .size = head.get m (slot b k) .size / 2 ∧
      head.get m' (slot b k) .status ≠ Flag.allocated := by
  cases hhalve with
  | page pre post =>
      have hold := (h.segmentAt (focus_of_mid pre _ post)).node
      have hnew := (h'.segmentAt (focus_of_mid pre _ post)).node
      rw [page_eq_slot] at hold hnew
      exact ⟨by rw [hold.size, hnew.size]; rfl, hnew.status_ne_allocated.2 rfl⟩
  | left pre post left right liveRight =>
      have hold := (h.segmentAt (focus_of_mid pre _ post)).node
      have hnew := (h'.segmentAt (focus_of_mid pre _ post)).node
      rw [page_eq_slot] at hold hnew
      exact ⟨by rw [hold.size, hnew.size]; rfl, hnew.status_ne_allocated.2 rfl⟩
  | right pre post left right liveLeft =>
      obtain ⟨-, -, l, r, -, -, hold⟩ :=
        (h.segmentAt (focus_of_mid pre _ post)).rest
      obtain ⟨-, -, l', r', -, -, hnew⟩ :=
        (h'.segmentAt (focus_of_mid pre _ post)).rest
      rw [rightHalf_eq_slot] at hold hnew
      exact ⟨by rw [hold.size, hnew.size], hnew.status_ne_allocated.2 rfl⟩

theorem PoolAt.dyadic_size (h : PoolAt m b segs lastLive)
    (hdyadic : DyadicHalves segs) (hk : Current segs k)
    (hstatus : head.get m (slot b k) .status ≠ Flag.allocated) :
    Dyadic (head.get m (slot b k) .size) := by
  cases hk with
  | @page j seg hf =>
      have hnode := (h.segmentAt hf).node
      obtain ⟨pre, post, rfl, rfl⟩ := focus_mid hf
      rw [page_eq_slot] at hnode
      rw [hnode.size]
      cases seg with
      | page live => exact dyadic_PAGE_SIZE
      | halves left right liveLeft liveRight =>
          exact (hdyadic left right liveLeft liveRight (by simp)).1
      | run n => exact absurd hnode.status hstatus
  | @right j left right liveLeft hf =>
      obtain ⟨-, -, l, r, -, -, hnode⟩ := (h.segmentAt hf).rest
      obtain ⟨pre, post, rfl, rfl⟩ := focus_mid hf
      rw [rightHalf_eq_slot] at hnode
      rw [hnode.size]
      exact (hdyadic left right liveLeft false (by simp)).2
  | last =>
      have hlast := h.last
      rw [page_eq_slot] at hlast
      exact ⟨13, by rw [hlast.size]; rfl⟩

theorem PoolAt.skipAllocated_of_unused (h : PoolAt m b segs lastLive)
    (hk : Current segs k)
    (hstatus : head.get m (slot b k) .status ≠ Flag.allocated) :
    skipAllocated m (slot b k) = slot b k := by
  obtain ⟨n, hn, -⟩ := h.nodeAt_current hk
  have hle := h.current_le hk
  have hleft := (h.links_current hk).1
  rw [hn.left] at hleft
  exact (hn.isUnused (slot_ne_zero h.base (by omega))
    (hn.status_ne_allocated.1 hstatus) hleft).skipAllocated

theorem PoolAt.add_childSize_ne_zero (h : PoolAt m b segs lastLive)
    (hk : Current segs k) :
    slot b k + head.get m (slot b k) .childSize ≠ 0 := by
  cases hk with
  | @page j seg hf =>
      have hnode := (h.segmentAt hf).node
      have hle := h.focus_le hf
      have hchild : head.get m (page b j) .childSize = 2048 := by
        rw [hnode.childSize]
        cases seg <;> rfl
      rw [← page_eq_slot, hchild]
      exact h.rightHalf_ne_zero (by omega)
  | @right j left right liveLeft hf =>
      obtain ⟨-, -, l, r, -, -, hnode⟩ := (h.segmentAt hf).rest
      have hle := h.focus_le hf
      rw [Segment.span] at hle
      rw [rightHalf_eq_slot] at hnode
      rw [hnode.childSize]
      exact (BitVec.add_zero _).trans_ne (slot_ne_zero h.base (by omega))
  | last =>
      have hlast := h.last
      rw [page_eq_slot] at hlast
      rw [hlast.childSize]
      exact (BitVec.add_zero _).trans_ne (slot_ne_zero h.base (by omega))

/-- A node that is larger than what is looked for is split until it has the
size. -/
theorem PoolAt.exists_loop_at {size : Word} (hpage : size ≤ PAGE_SIZE)
    (hsize : Dyadic size) {n : ℕ} (h : PoolAt m b segs lastLive)
    (hdyadic : DyadicHalves segs) (hk : Current segs k)
    (hstatus : head.get m (slot b k) .status ≠ Flag.allocated)
    (hle : size ≤ head.get m (slot b k) .size)
    (hn : (head.get m (slot b k) .size).toNat ≤ n) :
    ∃ fuel x, mallocLoop size fuel m (slot b k) = .ok x := by
  induction n generalizing m segs with
  | zero =>
      have hzero : head.get m (slot b k) .size = size := by
        rw [BitVec.le_def] at hle
        exact BitVec.eq_of_toNat_eq (by omega)
      have hkle := h.current_le hk
      have hself := h.skipAllocated_of_unused hk hstatus
      have hne := slot_ne_zero h.base (i := k) (by omega)
      exact ⟨1, _, mallocLoop_of_size size 0 hne hpage (hself.symm ▸ hne)
        (hself.symm ▸ hzero)⟩
  | succ n ih =>
      have hkle := h.current_le hk
      have hself := h.skipAllocated_of_unused hk hstatus
      have hne := slot_ne_zero h.base (i := k) (by omega)
      by_cases heq : head.get m (slot b k) .size = size
      · exact ⟨1, _, mallocLoop_of_size size 0 hne hpage (hself.symm ▸ hne)
          (hself.symm ▸ heq)⟩
      · obtain ⟨segs', hhalve, hk', hpool, hleft⟩ := h.split hk hstatus heq hle
        obtain ⟨hhalf, hunused⟩ := hhalve.node h hpool
        have hlt := BitVec.lt_of_le_ne hle (Ne.symm heq)
        have hstep : mallocStep m size (slot b k) =
            .ok (.next (splitNode m (slot b k)) (slot b k)) := by
          rw [mallocStep_of_le hne hpage, hself, takeOrSplit, if_neg hne,
            if_neg heq, if_neg (not_or.2 ⟨hstatus, BitVec.not_lt.2 hle⟩),
            if_neg (h.add_childSize_ne_zero hk), hleft]
        obtain ⟨fuel, x, hloop⟩ := ih hpool (hdyadic.halve hhalve) hk' hunused
          (hhalf.symm ▸ hsize.le_half (h.dyadic_size hdyadic hk hstatus) hlt) (by
            rw [BitVec.lt_def] at hlt
            rw [hhalf, BitVec.toNat_udiv, show (2 : Word).toNat = 2 from rfl]
            omega)
        exact ⟨fuel + 1, x, (mallocLoop_of_next hstep fuel).trans hloop⟩

theorem PoolAt.exists_loop_pages {size : Word} (h : PoolAt m b segs lastLive)
    (hk : Current segs k) (hends : EndsWithPages m size (slot b k)) :
    ∃ fuel x, mallocLoop size fuel m (slot b k) = .ok x := by
  have hle := h.current_le hk
  obtain ⟨result, hmulti⟩ := hends.multiPage_eq
  exact ⟨1, _, mallocLoop_of_done (mallocStep_of_multiPage
    (slot_ne_zero h.base (by omega)) hmulti) 0⟩

theorem PoolAt.exists_loop_node {size : Word}
    (hsize : size ≤ PAGE_SIZE → Dyadic size) (h : PoolAt m b segs lastLive)
    (hdyadic : DyadicHalves segs) (hk : Current segs k)
    (hmulti : multiPage m size (slot b k) = .ok none)
    (htakes : TakesNode m size (skipAllocated m (slot b k))) :
    ∃ fuel x, mallocLoop size fuel m (slot b k) = .ok x := by
  have hkle := h.current_le hk
  have hstep := mallocStep_of_none (slot_ne_zero h.base (by omega)) hmulti
  obtain ⟨l, hl, hskip⟩ := h.exists_skip hk
  have hlle := h.current_le hl
  have hne := slot_ne_zero h.base (i := l) (by omega)
  rw [hskip] at htakes hstep
  by_cases heq : head.get m (slot b l) .size = size
  · rw [takeOrSplit, if_neg hne, if_pos heq] at hstep
    exact ⟨1, _, mallocLoop_of_done hstep 0⟩
  · -- the iteration splits the node, and the search goes on from it
    obtain ⟨hstatus, hlt⟩ := htakes.resolve_left heq
    have hle := BitVec.le_of_lt hlt
    have hpage := BitVec.le_trans hle (h.size_le_of_notAllocated hl hstatus)
    obtain ⟨segs', hhalve, hl', hpool, hleft⟩ := h.split hl hstatus heq hle
    obtain ⟨hhalf, hunused⟩ := hhalve.node h hpool
    rw [takeOrSplit, if_neg hne, if_neg heq,
      if_neg (not_or.2 ⟨hstatus, BitVec.not_lt.2 hle⟩),
      if_neg (h.add_childSize_ne_zero hl), hleft] at hstep
    obtain ⟨fuel, x, hloop⟩ := hpool.exists_loop_at hpage (hsize hpage)
      (hdyadic.halve hhalve) hl' hunused (hhalf.symm ▸
        (hsize hpage).le_half (h.dyadic_size hdyadic hl hstatus) hlt) le_rfl
    exact ⟨fuel + 1, x, (mallocLoop_of_next hstep fuel).trans hloop⟩

theorem PoolAt.step_next {size : Word} (h : PoolAt m b segs lastLive)
    (hk : Current segs k) (hmulti : multiPage m size (slot b k) = .ok none)
    (htakes : ¬ TakesNode m size (skipAllocated m (slot b k))) :
    (∃ l, Current segs l ∧
        head.get m (skipAllocated m (slot b k)) .next = slot b l ∧
        head.get m (skipAllocated m (slot b k)) .next ≠ 0 ∧
        mallocStep m size (slot b k) = .ok (.next m (slot b l))) ∨
      skipAllocated m (slot b k) = slot b 6142 ∧
        head.get m (slot b 6142) .next = 0 ∧
        mallocStep m size (slot b k) = .ok (.next m (slot b 6142)) := by
  have hkle := h.current_le hk
  obtain ⟨l, hl, hskip⟩ := h.exists_skip hk
  have hlle := h.current_le hl
  have hstep := (mallocStep_of_none (slot_ne_zero h.base (by omega)) hmulti).trans
    (takeOrSplit_eq_next (hskip ▸ slot_ne_zero h.base (by omega)) htakes)
  rw [hskip] at hstep ⊢
  obtain ⟨n, hn, ⟨hzero, rfl⟩ | ⟨i, hi, heq, hne⟩⟩ := h.nodeAt_current hl
  · have hnext := hn.next.trans hzero
    exact Or.inr ⟨rfl, hnext, hstep.trans (by rw [if_neg (not_not.2 hnext)])⟩
  · have hnext := hn.next.trans heq
    refine Or.inl ⟨i, hi, hnext, hn.next.trans_ne hne, hstep.trans ?_⟩
    rw [if_pos (hn.next.trans_ne hne), hnext]

theorem PoolAt.exists_loop {size : Word}
    (hsize : size ≤ PAGE_SIZE → Dyadic size) (h : PoolAt m b segs lastLive)
    (hdyadic : DyadicHalves segs) {p : Addr} (hfinds : FindsBlock m size p)
    (hk : Current segs k) (hp : p = slot b k) :
    ∃ fuel x, mallocLoop size fuel m p = .ok x := by
  induction hfinds generalizing k with
  | pages hends => exact hp ▸ h.exists_loop_pages hk (hp ▸ hends)
  | @node p hscan htakes =>
      subst hp
      by_cases hends : EndsWithPages m size (slot b k)
      · exact h.exists_loop_pages hk hends
      · exact h.exists_loop_node hsize hdyadic hk (multiPage_eq_none hends hscan)
          htakes
  | @next p hscan hnext hrest ih =>
      subst hp
      by_cases hends : EndsWithPages m size (slot b k)
      · exact h.exists_loop_pages hk hends
      have hmulti := multiPage_eq_none hends hscan
      by_cases htakes : TakesNode m size (skipAllocated m (slot b k))
      · exact h.exists_loop_node hsize hdyadic hk hmulti htakes
      rcases h.step_next hk hmulti htakes with ⟨l, hl, heq, -, hstep⟩ |
        ⟨hskip, hzero, -⟩
      · obtain ⟨fuel, x, hloop⟩ := ih hl heq
        rw [heq] at hloop
        exact ⟨fuel + 1, x, (mallocLoop_of_next hstep fuel).trans hloop⟩
      · rw [hskip] at hnext
        exact absurd hzero hnext

theorem PoolAt.not_findsBlock_last {size : Word} (h : PoolAt m b segs lastLive)
    (htakes : ¬ TakesNode m size (slot b 6142)) :
    ¬ FindsBlock m size (slot b 6142) := by
  have hlast := h.last
  have hskip := h.skipAllocated_last
  rw [page_eq_slot] at hlast
  generalize slot b 6142 = p at hlast hskip htakes ⊢
  rintro (hends | ⟨-, hnode⟩ | ⟨-, hnext, -⟩)
  · exact hends.1.2.2.2 hlast.next
  · exact htakes (hskip ▸ hnode)
  · exact hnext (hskip.symm ▸ hlast.next)

theorem PoolAt.findsBlock {size : Word} {fuel : ℕ} {x : MallocResult × Bytes}
    (h : PoolAt m b segs lastLive) (hk : Current segs k)
    (hloop : mallocLoop size fuel m (slot b k) = .ok x) :
    FindsBlock m size (slot b k) := by
  induction fuel generalizing k with
  | zero => exact absurd hloop (by simp [mallocLoop])
  | succ fuel ih =>
      by_cases hends : EndsWithPages m size (slot b k)
      · exact .pages hends
      have hscan : ¬ ScansPastEnd m size (slot b k) := by
        intro hpast
        obtain ⟨e, he⟩ := hpast.multiPage_eq
        have hkle := h.current_le hk
        rw [mallocLoop, mallocStep, if_neg (slot_ne_zero h.base (by omega)), he]
          at hloop
        exact absurd hloop (by simp [bind, Except.bind])
      have hmulti := multiPage_eq_none hends hscan
      by_cases htakes : TakesNode m size (skipAllocated m (slot b k))
      · exact .node hscan htakes
      rcases h.step_next hk hmulti htakes with ⟨l, hl, heq, hne, hstep⟩ |
        ⟨hskip, -, hstep⟩
      · rw [mallocLoop_of_next hstep] at hloop
        refine .next hscan hne ?_
        rw [heq]
        exact ih hl hloop
      · -- the search stays at the last page
        rw [mallocLoop_of_next hstep] at hloop
        rw [hskip] at htakes
        exact absurd (ih .last hloop) (h.not_findsBlock_last htakes)

end

theorem UnallocatedNodes.exists_nodeAfter {m : Bytes} {n : ℕ} {p : Addr}
    (h : UnallocatedNodes m n (head.get m p .next)) (hp : p ≠ 0) :
    ∃ last, nodeAfter m n p = .ok last ∧ last ≠ 0 := by
  induction n generalizing p with
  | zero => exact ⟨p, rfl, hp⟩
  | succ n ih =>
      obtain ⟨last, hlast, hne⟩ := ih h.2.2 h.1
      exact ⟨last, by rw [nodeAfter, if_neg hp, hlast], hne⟩

section

variable {α : Type} {A : FrameAllocator α} {s : Machine 64 (HeapGlobals α)}

theorem exists_run_serveRequest {size : Word} {fuel : ℕ} {m : Bytes} {p : Addr}
    {x : MallocResult × Bytes} (hloop : mallocLoop size fuel m p = .ok x) :
    ∃ q s', (serveRequest (.ok x)).run s = .ok q s' ∧
      (q = 0 ∨ head.get s'.mem (q - sizeofHead) .status = Flag.allocated) := by
  obtain ⟨result, m'⟩ := x
  obtain ⟨r, -, hlast⟩ := exists_lastIteration hloop
  cases result with
  | refused => exact ⟨_, _, run_serveRequest_refused m' s, Or.inl rfl⟩
  | node q =>
      refine ⟨_, _, run_serveRequest_node m' q s, Or.inr ?_⟩
      rw [BitVec.add_sub_cancel]
      exact head_get_set_allocated m' q
  | blocks q n =>
      have hmulti := multiPage_of_mallocStep hlast
      have hr : r ≠ 0 := by
        rintro rfl
        rw [mallocStep, if_pos rfl] at hlast
        exact absurd hlast (by simp)
      rcases multiPage_eq_some hmulti with hrefused | ⟨hq, -, -, -, hcan⟩
      · exact absurd hrefused (by simp)
      obtain ⟨rfl, rfl⟩ := MallocResult.blocks.inj hq
      obtain ⟨last, hafter, hne⟩ :=
        (canCoalesce_eq_true_iff.1 hcan).exists_nodeAfter hr
      refine ⟨_, _, run_coalesceBlocks (s := ⟨m', { s.globals with mutex := 0 }⟩)
        rfl hafter hne, Or.inr ?_⟩
      rw [BitVec.add_sub_cancel]
      exact head_get_set_allocated _ q

end

section

variable {τ : Type} {T : SizeTable τ} {fuel : ℕ} {R : UsableRegion} {mem : Bytes}
  {table : τ} {used : ℕ}

/-- In a run that only puts pages together which were never split, a request is
answered exactly when the pool can be set up and the search finds a block. -/
theorem answers_iff {s₀ s : HeapState τ} {cs : List HeapCall} (size : Word)
    (h : HeapBooted R mem table used s₀)
    (hrun : Run (Guarded (CallMeets T fuel fun _ _ _ => True)
      (HeapStep T fuel)) s₀ cs s) :
    Answers T fuel s size ↔ ∃ s₁, SearchStart T fuel s.machine s₁ ∧
      FindsBlock s₁.mem (blockSize size) s₁.globals.freeList := by
  have hinv := HeapInv.run keptBy_dyadicHalves h hrun
  have hmutex : s.machine.globals.mutex = 0 := by
    rcases hinv with hbooted | ⟨segs, lastLive, -, hpool⟩
    · exact hbooted.heap.mutex
    · exact hpool.mutex
  constructor
  · rintro ⟨heapFuel, p, s', hcall, -⟩
    obtain ⟨s₁, result, m, hs₁, hloop, -⟩ := mallocx_eq_ok hcall
    obtain ⟨segs, lastLive, -, hpool, -⟩ := hinv.searchStart
      keptBy_dyadicHalves.fresh hs₁
    rw [← slot_zero s₁.globals.freeList] at hloop
    refine ⟨s₁, hs₁, slot_zero s₁.globals.freeList ▸ ?_⟩
    exact hpool.pool.findsBlock hpool.pool.current_first hloop
  · rintro ⟨s₁, hs₁, hfinds⟩
    obtain ⟨segs, lastLive, hdyadic, hpool, -⟩ := hinv.searchStart
      keptBy_dyadicHalves.fresh hs₁
    obtain ⟨heapFuel, x, hloop⟩ := hpool.pool.exists_loop dyadic_blockSize
      hdyadic hfinds hpool.pool.current_first (slot_zero _).symm
    obtain ⟨p, s', hserve, hanswer⟩ := exists_run_serveRequest (s := s₁) hloop
    refine ⟨heapFuel, p, s', ?_, hanswer⟩
    rw [run_mallocx hmutex hs₁, hloop, hserve]

end

/-- The first request of all for a page is answered. -/
theorem answers_wholePage :
    ∃ s, HeapStep addressSizeTable 0 bootedHeap (.malloc 20000) s ∧
      Answers addressSizeTable 0 s 4000 := by
  obtain ⟨hmeets, s, hstep, -, -, hpool⟩ := exists_setUp
  have hfirst := hpool.pool.nodeAt_first
  have hskip := (hfirst.isUnused hpool.pool.base.ne_zero rfl
    (Or.inl rfl)).skipAllocated
  refine ⟨s, hstep, (answers_iff 4000 heapBooted_bootedHeap
    (.single ⟨hmeets _, hstep⟩)).2 ⟨_, run_ensurePool_of_ne
      hpool.pool.base.ne_zero, .node (fun hscan => ?_) ?_⟩⟩
  · exact absurd hscan.1.1 (by decide)
  · rw [hskip]
    exact Or.inl (hfirst.size.trans
      (show PAGE_SIZE = blockSize 4000 by decide))

def spacedBlocks (k : ℕ) : List Segment :=
  (List.replicate k [.run 3, .page false]).flatten

theorem spacedBlocks_succ (k : ℕ) :
    spacedBlocks (k + 1) = spacedBlocks k ++ [.run 3, .page false] := by
  rw [spacedBlocks, List.replicate_succ', List.flatten_append]
  rfl

theorem spans_spacedBlocks (k : ℕ) : spans (spacedBlocks k) = 5 * k := by
  induction k with
  | zero => rfl
  | succ k ih =>
      rw [spacedBlocks_succ, spans_append, ih]
      rfl

section

variable {m : Bytes} {b : Addr} {pre post : List Segment} {lastLive : Bool}

theorem PoolAt.loop_passBlocks {k : ℕ}
    (h : PoolAt m b (spacedBlocks k ++ post) lastLive) (fuel : ℕ) :
    mallocLoop 16384 (fuel + k) m b =
      mallocLoop 16384 fuel m (page b (5 * k)) := by
  induction k generalizing post fuel with
  | zero => rw [Nat.mul_zero, page_zero, Nat.add_zero]
  | succ k ih =>
      rw [spacedBlocks_succ, List.append_assoc] at h
      have hstep := (h.step_passesRun (by decide : PAGE_SIZE < 16384)).1
      rw [spans_spacedBlocks] at hstep
      rw [← Nat.add_assoc, Nat.add_right_comm, ih h,
        mallocLoop_of_next hstep]
      rfl

theorem PoolAt.step_scansPastEnd
    (h : PoolAt m b (pre ++ [.page false]) false) :
    ∃ e, mallocStep m 16384 (page b (spans pre)) = .error e := by
  have hf : Focus (pre ++ [.page false]) (spans pre) (.page false) :=
    ⟨pre, [], rfl, rfl⟩
  have hle : spans pre + 1 ≤ 3071 := h.focus_le hf
  have hnode := (h.segmentAt hf).node
  have hspans := h.spans_eq
  rw [spans_append, spans_cons, spans_nil, Segment.span] at hspans
  have hnext : head.get m (page b (spans pre)) .next = page b 3071 := by
    rw [hnode.next, ← hspans]
    rfl
  have hscan : ScansPastEnd m 16384 (page b (spans pre)) := by
    refine ⟨⟨by decide, hnode.level, hnode.status_ne_allocated.2 rfl, ?_⟩,
      by decide, ?_⟩
    · rw [hnext]
      exact h.page_ne_zero le_rfl
    · rw [hnext]
      exact Or.inr ⟨h.last.status_ne_allocated.2 rfl, Or.inl h.last.next⟩
  obtain ⟨e, he⟩ := hscan.multiPage_eq
  exact ⟨e, by rw [mallocStep, if_neg (h.page_ne_zero (by omega)), he]; rfl⟩

end

theorem PoolState.takesFour {α : Type} {A : FrameAllocator α}
    {s : Machine 64 (HeapGlobals α)} {live : Set Addr} {post : List Segment}
    {lastLive : Bool} {k : ℕ}
    (h : PoolState s live
      (spacedBlocks k ++ List.replicate 4 (.page false) ++ post) lastLive) :
    ∃ p s', (OptimistOS.mallocx A (1 + k) 16000).run s = .ok p s' ∧
      PoolState s' (liveAfter live p) (spacedBlocks k ++ [.run 3] ++ post)
        lastLive := by
  have hpasses : PoolAt s.mem s.globals.freeList
      (spacedBlocks k ++ (List.replicate 4 (.page false) ++ post)) lastLive := by
    rw [← List.append_assoc]
    exact h.pool
  have hloop := hpasses.loop_passBlocks 1
  have hdone := h.pool.step_takesRun (t := 3) le_rfl
    (by decide : PAGE_SIZE < 16384) (by decide)
  rw [← spans_spacedBlocks, mallocLoop_of_done hdone 0,
    show (16384 : Word) = blockSize 16000 by decide] at hloop
  obtain ⟨s', hrun, -, hpool⟩ := h.mergesPages (A := A) (by decide) hloop
  exact ⟨_, s', hrun, hpool⟩

theorem exists_spacedBlocks {k : ℕ} (hk : k ≤ 614) :
    ∃ s, Run (HeapStep addressSizeTable 0) bootedHeap
        (.malloc 20000 :: List.replicate k (.malloc 16000)) s ∧
      PoolState s.machine s.live
        (spacedBlocks k ++ List.replicate (3071 - 5 * k) (.page false))
        false := by
  induction k with
  | zero =>
      obtain ⟨-, s, hstep, -, -, hpool⟩ := exists_setUp
      exact ⟨s, .single hstep, hpool⟩
  | succ k ih =>
      obtain ⟨s, hrun, hpool⟩ := ih (by omega)
      obtain ⟨n, hn⟩ : ∃ n, 3071 - 5 * k = 4 + (1 + n) :=
        ⟨3071 - 5 * (k + 1), by omega⟩
      rw [hn, List.replicate_add, ← List.append_assoc] at hpool
      obtain ⟨p, t, hcall, hpool'⟩ := hpool.takesFour
        (A := heapAllocator addressSizeTable 0)
      refine ⟨⟨t, liveAfter s.live p⟩, ?_, ?_⟩
      · rw [List.replicate_succ', ← List.cons_append]
        exact .snoc hrun (heapStep_malloc _ hcall)
      · rw [show 3071 - 5 * (k + 1) = n by omega, spacedBlocks_succ,
          List.append_assoc]
        rwa [List.replicate_add, List.append_assoc] at hpool'

/-- After 614 requests for four pages the next one reads the null pointer. -/
theorem exists_not_answers :
    ∃ s, Run (HeapStep addressSizeTable 0) bootedHeap
        (.malloc 20000 :: List.replicate 614 (.malloc 16000)) s ∧
      ¬ Answers addressSizeTable 0 s 16000 := by
  obtain ⟨s, hrun, hpool⟩ := exists_spacedBlocks (k := 614) le_rfl
  refine ⟨s, hrun, ?_⟩
  rintro ⟨heapFuel, p, s', hcall, -⟩
  obtain ⟨s₁, result, m, hs₁, hloop, -⟩ := mallocx_eq_ok hcall
  obtain rfl := SearchStart.eq hs₁ hpool.pool.base.ne_zero
  obtain ⟨e, he⟩ := hpool.pool.step_scansPastEnd
  have hlong := mallocLoop_add hloop (1 + 614)
  rw [show blockSize 16000 = 16384 by decide, ← Nat.add_assoc,
    hpool.pool.loop_passBlocks, ← spans_spacedBlocks, mallocLoop, he] at hlong
  exact absurd hlong (by simp [bind, Except.bind])

end OptimistOS
