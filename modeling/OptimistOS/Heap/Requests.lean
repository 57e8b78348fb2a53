import OptimistOS.Heap.Pool

/-!
# Requests to the heap

How `mallocx` is put together, and its first answers from a fresh pool. A
request for half a page or less splits the first page and takes its left half.
The next one of the same size takes the right half, the third one splits the
second page and takes its left half. From then on the search passes the first
page and ends at the second page, because it compares the size of that node
before it looks at its status.
-/

namespace OptimistOS

open ByteMemory ByteMemory.Code

section

variable {α : Type} {A : FrameAllocator α}

theorem run_mallocx {fuel : ℕ} {size : Word}
    {s s₁ : Machine 64 (HeapGlobals α)} (hmutex : s.globals.mutex = 0)
    (hpool : (ensurePool A).run
      ⟨s.mem, { s.globals with mutex := 1 }⟩ = .ok () s₁) :
    (mallocx A fuel size).run s =
      (serveRequest (mallocLoop (blockSize size) fuel s₁.mem
        s₁.globals.freeList)).run s₁ := by
  rw [mallocx, lockHeap, run_bind_of_ok (run_lock_of_free hmutex),
    run_bind_of_ok hpool, EStateM.run_bind, EStateM.run_get]

theorem run_ensurePool_of_ne {s : Machine 64 (HeapGlobals α)}
    (h : s.globals.freeList ≠ 0) : (ensurePool A).run s = .ok () s := by
  rw [ensurePool, EStateM.run_bind, EStateM.run_get]
  simp only [if_neg h, EStateM.run_pure]

theorem run_ensurePool_of_eq {s : Machine 64 (HeapGlobals α)}
    (h : s.globals.freeList = 0) :
    (ensurePool A).run s = (initNodes A).run s := by
  rw [ensurePool, EStateM.run_bind, EStateM.run_get]
  simp only [if_pos h]

theorem run_serveRequest_node (m : Bytes) (p : Addr)
    (s : Machine 64 (HeapGlobals α)) :
    (serveRequest (.ok (.node p, m))).run s =
      .ok (p + sizeofHead) ⟨head.set m p .status Flag.allocated,
        { s.globals with mutex := 0 }⟩ := rfl

theorem run_serveRequest_refused (m : Bytes)
    (s : Machine 64 (HeapGlobals α)) :
    (serveRequest (.ok (.refused, m))).run s =
      .ok 0 ⟨m, { s.globals with mutex := 0 }⟩ := rfl

theorem run_mallocx_node {fuel : ℕ} {size : Word}
    {s : Machine 64 (HeapGlobals α)} {m : Bytes} {p : Addr}
    (hmutex : s.globals.mutex = 0) (hpool : s.globals.freeList ≠ 0)
    (hloop : mallocLoop (blockSize size) fuel s.mem s.globals.freeList =
      .ok (.node p, m)) :
    (mallocx A fuel size).run s =
      .ok (p + sizeofHead) ⟨head.set m p .status Flag.allocated, s.globals⟩ := by
  rw [run_mallocx hmutex (run_ensurePool_of_ne hpool), hloop,
    run_serveRequest_node, ← hmutex]

end

theorem mallocLoop_add {size : Word} {fuel : ℕ} {m : Bytes} {p : Addr}
    {x : MallocResult × Bytes} (h : mallocLoop size fuel m p = .ok x) (k : ℕ) :
    mallocLoop size (fuel + k) m p = .ok x := by
  induction fuel generalizing m p with
  | zero => exact absurd h (by simp [mallocLoop])
  | succ fuel ih =>
      rw [Nat.add_right_comm]
      rw [mallocLoop] at h ⊢
      cases hstep : mallocStep m size p with
      | error e =>
          rw [hstep] at h
          exact absurd h (by simp [bind, Except.bind])
      | ok step =>
          rw [hstep] at h
          cases step with
          | done result => exact h
          | next m' p' => exact ih h

def rightHalf (p : Addr) : Addr := p + 2048

/-- The first page is split, and its left half is allocated. -/
structure LeftTaken (m : Bytes) (b : Addr) (size : Word) : Prop where
  left : head.get m b .left = b
  right : head.get m b .right = rightHalf b
  next : head.get m b .next = page b 1
  status : head.get m b .status = Flag.allocated
  rightStatus : head.get m (rightHalf b) .status = Flag.unused
  rightSize : head.get m (rightHalf b) .size = size
  second : FreshPage m (page b 1)

/-- Both halves of the first page are allocated. -/
structure BothTaken (m : Bytes) (b : Addr) : Prop where
  left : head.get m b .left = b
  right : head.get m b .right = rightHalf b
  next : head.get m b .next = page b 1
  status : head.get m b .status = Flag.allocated
  rightStatus : head.get m (rightHalf b) .status = Flag.allocated

/-- The addresses of the first two pages and of their right halves. -/
structure PoolPointers (b : Addr) : Prop where
  ne_zero : b ≠ 0
  right_ne : rightHalf b ≠ 0
  second_ne : page b 1 ≠ 0
  secondRight_ne : rightHalf (page b 1) ≠ 0

theorem rightHalf_eq (b : Addr) (j : ℕ) :
    rightHalf (page b j) = b + BitVec.ofNat 64 (4096 * j + 2048) := by
  rw [rightHalf, page, ← add_ofNat_add_ofNat]
  rfl

theorem FreshPool.add_ne_zero {m : Bytes} {b : Addr} (h : FreshPool m b)
    {o : ℕ} (ho : o ≤ poolBytes.toNat) : b + BitVec.ofNat 64 o ≠ 0 := by
  intro h0
  have hfits := h.fits
  have hb : b.toNat ≠ 0 := fun hb => h.ne_zero (BitVec.eq_of_toNat_eq hb)
  have hsum := congrArg BitVec.toNat h0
  rw [BitVec.toNat_add, BitVec.toNat_ofNat,
    Nat.mod_eq_of_lt (lt_of_le_of_lt ho poolBytes.isLt),
    Nat.mod_eq_of_lt (by omega)] at hsum
  have hzero : (0 : Addr).toNat = 0 := rfl
  omega

theorem FreshPool.pointers {m : Bytes} {b : Addr} (h : FreshPool m b) :
    PoolPointers b := by
  have hsize : poolBytes.toNat = 12779520 := by decide
  have hright := rightHalf_eq b 0
  rw [page_zero] at hright
  refine ⟨h.ne_zero, ?_, h.add_ne_zero (by omega), ?_⟩
  · rw [hright]
    exact h.add_ne_zero (by omega)
  · rw [rightHalf_eq]
    exact h.add_ne_zero (by omega)

theorem disjoint_header (b : Addr) {i j : ℕ} (h : i + 64 ≤ j)
    (hj : j + 64 ≤ 2 ^ 64) :
    Disjoint (head.recordRegion (b + BitVec.ofNat 64 i))
      (head.recordRegion (b + BitVec.ofNat 64 j)) :=
  disjoint_region_of_le b h hj

theorem disjoint_halves (p : Addr) :
    Disjoint (head.recordRegion p) (head.recordRegion (rightHalf p)) := by
  have h := disjoint_header p (i := 0) (j := 2048) (by decide) (by decide)
  rwa [show BitVec.ofNat 64 0 = 0#64 from rfl, BitVec.add_zero] at h

theorem FreshPool.rightStatus {m : Bytes} {b : Addr} (h : FreshPool m b) :
    head.get m (rightHalf b) .status = Flag.unused := by
  have hsize : poolBytes.toNat = 12779520 := by decide
  have hright := rightHalf_eq b 0
  rw [page_zero] at hright
  refine head.get_of_forall_zero (fun x hx => h.zero x ?_ ?_) .status
  · rw [hright] at hx
    exact region_subset_of_le b (by rw [hsize]; decide) poolBytes.isLt.le hx
  · rintro ⟨j, hj, hx'⟩
    have hj' : j < 3071 := hj
    rw [hright] at hx
    rcases j with _ | j
    · exact Set.disjoint_left.1
        (disjoint_header b (i := 4096 * 0) (j := 2048) (by decide) (by decide))
        hx' hx
    · exact Set.disjoint_left.1
        (disjoint_header b (i := 2048) (j := 4096 * (j + 1)) (by omega)
          (by omega)) hx hx'

theorem mallocLoop_of_skipAllocated {m : Bytes} {size : Word} {p q : Addr}
    (fuel : ℕ) (h : size ≤ PAGE_SIZE) (hp : p ≠ 0) (hq : q ≠ 0)
    (hskip : skipAllocated m p = skipAllocated m q) :
    mallocLoop size (fuel + 1) m p = mallocLoop size (fuel + 1) m q := by
  rw [mallocLoop, mallocLoop, mallocStep_of_le hp h, mallocStep_of_le hq h,
    hskip]

theorem FreshPage.isUnused {m : Bytes} {p : Addr} (h : FreshPage m p)
    (hp : p ≠ 0) : IsUnused m p :=
  ⟨hp, h.status, Or.inl h.left⟩

theorem FreshPage.search {m : Bytes} {p : Addr} (h : FreshPage m p)
    (hp : p ≠ 0) (hright : rightHalf p ≠ 0) {size : Word} {k : ℕ}
    (hk : k ≠ 0) (hsize : size.toNat * 2 ^ k = 4096) (fuel : ℕ) :
    ∃ m', mallocLoop size (fuel + k + 1) m p = .ok (.node p, m') ∧
      head.get m' p .size = size ∧ IsSplit m p 2048 m' := by
  have hpos : 0 < 2 ^ k := Nat.two_pow_pos k
  have hle : size.toNat ≤ size.toNat * 2 ^ k := Nat.le_mul_of_pos_right _ hpos
  have hpage : (PAGE_SIZE : Word).toNat = 4096 := rfl
  obtain ⟨m', hloop, hget, hm'⟩ := mallocLoop_split size k fuel
    (by rw [BitVec.le_def]; omega) (h.isUnused hp)
    (by rintro rfl; exact absurd hsize (by simp))
    (by rw [h.size, hpage, hsize]) h.childSize hright (disjoint_halves p)
  exact ⟨m', hloop, hget, hm'.resolve_left fun hm => hk hm.2⟩

section Small

variable {m : Bytes} {b : Addr} {size : Word} {k : ℕ}

theorem size_le_of_mul (hsize : size.toNat * 2 ^ k = 4096) :
    size ≤ PAGE_SIZE := by
  have hle : size.toNat ≤ size.toNat * 2 ^ k :=
    Nat.le_mul_of_pos_right _ (Nat.two_pow_pos k)
  have hpage : (PAGE_SIZE : Word).toNat = 4096 := rfl
  rw [BitVec.le_def]
  omega

theorem page_one (b : Addr) : page b 1 = b + PAGE_SIZE := rfl

theorem disjoint_second (b : Addr) :
    Disjoint (head.recordRegion (page b 1)) (head.recordRegion b) ∧
      Disjoint (head.recordRegion (page b 1))
        (head.recordRegion (rightHalf b)) := by
  have hright := rightHalf_eq b 0
  rw [page_zero] at hright
  have h0 := disjoint_header b (i := 0) (j := 4096) (by decide) (by decide)
  rw [show BitVec.ofNat 64 0 = 0#64 from rfl, BitVec.add_zero] at h0
  refine ⟨h0.symm, ?_⟩
  rw [hright]
  exact (disjoint_header b (i := 2048) (j := 4096) (by decide)
    (by decide)).symm

theorem FreshPool.search (h : FreshPool m b) (hk : k ≠ 0)
    (hsize : size.toNat * 2 ^ k = 4096) (fuel : ℕ) :
    ∃ m', mallocLoop size (fuel + k + 1) m b = .ok (.node b, m') ∧
      LeftTaken (head.set m' b .status Flag.allocated) b size := by
  have hpage : FreshPage m b := page_zero b ▸ h.page 0 (by decide)
  have hsecond := h.page 1 (by decide)
  have hptr := h.pointers
  obtain ⟨m', hloop, hget, hsplit⟩ := hpage.search hptr.ne_zero
    hptr.right_ne hk hsize fuel
  have hset := head.agreeOff_set m' b .status Flag.allocated
  have hother : ∀ f, f ≠ .status →
      head.get (head.set m' b .status Flag.allocated) b f = head.get m' b f :=
    fun f hf => head.get_set_of_ne m' b _ hf
  have hright : ∀ f,
      head.get (head.set m' b .status Flag.allocated) (rightHalf b) f =
        head.get m' (rightHalf b) f :=
    fun f => head.get_congr hset _ f (disjoint_halves b).symm
  refine ⟨m', hloop, ?_, ?_, ?_, head_get_set_allocated m' b, ?_, ?_, ?_⟩
  · rw [hother _ (by decide), hsplit.left]
  · rw [hother _ (by decide), hsplit.right, rightHalf]
  · rw [hother _ (by decide), hsplit.kept _ (by decide) (by decide) (by decide)
      (by decide), hpage.next, page_one]
  · rw [hright]
    exact (hsplit.rightKept _ (by decide) (by decide)).trans h.rightStatus
  · rw [hright]
    exact hsplit.rightSize.trans hget
  · exact (hsecond.congr hsplit.frame (Disjoint.sup_right
      (disjoint_second b).1 (disjoint_second b).2)).congr hset
        (disjoint_second b).1

theorem LeftTaken.search (h : LeftTaken m b size) (hptr : PoolPointers b)
    (hsize : size ≤ PAGE_SIZE) (fuel : ℕ) :
    mallocLoop size (fuel + 1) m b = .ok (.node (rightHalf b), m) ∧
      BothTaken (head.set m (rightHalf b) .status Flag.allocated) b ∧
      FreshPage (head.set m (rightHalf b) .status Flag.allocated)
        (page b 1) := by
  have hskip : skipAllocated m b = rightHalf b := by
    rw [skipAllocated, h.left, h.right, if_pos ⟨hptr.ne_zero, h.status⟩,
      if_pos hptr.right_ne, if_pos h.rightStatus]
  have hloop := mallocLoop_of_size size fuel hptr.ne_zero hsize
    (hskip.symm ▸ hptr.right_ne) (hskip.symm ▸ h.rightSize)
  rw [hskip] at hloop
  have hset := head.agreeOff_set m (rightHalf b) .status Flag.allocated
  have hkept : ∀ f,
      head.get (head.set m (rightHalf b) .status Flag.allocated) b f =
        head.get m b f :=
    fun f => head.get_congr hset _ f (disjoint_halves b)
  exact ⟨hloop, ⟨(hkept _).trans h.left, (hkept _).trans h.right,
    (hkept _).trans h.next, (hkept _).trans h.status,
    head_get_set_allocated m _⟩, h.second.congr hset (disjoint_second b).2⟩

theorem BothTaken.skips (h : BothTaken m b) (hptr : PoolPointers b) :
    skipAllocated m b = page b 1 := by
  have hne : Flag.allocated ≠ Flag.unused := by decide
  rw [skipAllocated, h.left, h.right,
    if_pos ⟨hptr.ne_zero, h.status⟩, if_pos hptr.right_ne, h.rightStatus,
    if_neg hne, h.next]

theorem BothTaken.congr {m' : Bytes} {s : Set Addr} (h : BothTaken m b)
    (hm : AgreeOff s m m') (hb : Disjoint (head.recordRegion b) s)
    (hright : Disjoint (head.recordRegion (rightHalf b)) s) :
    BothTaken m' b :=
  ⟨(head.get_congr hm b _ hb).trans h.left,
    (head.get_congr hm b _ hb).trans h.right,
    (head.get_congr hm b _ hb).trans h.next,
    (head.get_congr hm b _ hb).trans h.status,
    (head.get_congr hm _ _ hright).trans h.rightStatus⟩

/-- The third request splits the second page. -/
theorem BothTaken.search (h : BothTaken m b) (hptr : PoolPointers b)
    (hsecond : FreshPage m (page b 1)) (hk : k ≠ 0)
    (hsize : size.toNat * 2 ^ k = 4096) (fuel : ℕ) :
    ∃ m', mallocLoop size (fuel + k + 1) m b = .ok (.node (page b 1), m') ∧
      BothTaken (head.set m' (page b 1) .status Flag.allocated) b ∧
      head.get (head.set m' (page b 1) .status Flag.allocated) (page b 1)
        .size = size := by
  obtain ⟨m', hloop, hget, hsplit⟩ := hsecond.search hptr.second_ne
    hptr.secondRight_ne hk hsize fuel
  have hskip : skipAllocated m b =
      skipAllocated m (page b 1) := by
    rw [h.skips hptr, (hsecond.isUnused hptr.second_ne).skipAllocated]
  have hset := head.agreeOff_set m' (page b 1) .status Flag.allocated
  have hfar : ∀ {i : ℕ}, i + 64 ≤ 4096 →
      Disjoint (head.recordRegion (b + BitVec.ofNat 64 i))
        (head.recordRegion (page b 1) ∪
          head.recordRegion (page b 1 + 2048)) := by
    intro i hi
    have hsecondRight := rightHalf_eq b 1
    rw [rightHalf] at hsecondRight
    rw [hsecondRight]
    exact Disjoint.sup_right
      (disjoint_header b (i := i) (j := 4096 * 1) (by omega) (by decide))
      (disjoint_header b (i := i) (j := 4096 * 1 + 2048) (by omega)
        (by decide))
  have hb := hfar (i := 0) (by decide)
  rw [show BitVec.ofNat 64 0 = 0#64 from rfl, BitVec.add_zero] at hb
  have hright := hfar (i := 2048) (by decide)
  refine ⟨m', ?_, ?_, ?_⟩
  · rw [mallocLoop_of_skipAllocated (fuel + k) (size_le_of_mul hsize)
      hptr.ne_zero hptr.second_ne hskip]
    exact hloop
  · exact (h.congr hsplit.frame hb hright).congr hset
      (disjoint_second b).1.symm (disjoint_second b).2.symm
  · rw [head.get_set_of_ne m' (page b 1) _ (by decide : Head.size ≠ .status),
      hget]

theorem BothTaken.search_second (h : BothTaken m b)
    (hptr : PoolPointers b) (hget : head.get m (page b 1) .size = size)
    (hsize : size ≤ PAGE_SIZE) (fuel : ℕ) :
    mallocLoop size (fuel + 1) m b = .ok (.node (page b 1), m) ∧
      BothTaken (head.set m (page b 1) .status Flag.allocated) b ∧
      head.get (head.set m (page b 1) .status Flag.allocated) (page b 1)
        .size = size := by
  have hskip := h.skips hptr
  have hloop := mallocLoop_of_size size fuel hptr.ne_zero hsize
    (hskip.symm ▸ hptr.second_ne) (hskip.symm ▸ hget)
  rw [hskip] at hloop
  refine ⟨hloop, h.congr (head.agreeOff_set m _ .status _)
    (disjoint_second b).1.symm (disjoint_second b).2.symm, ?_⟩
  rw [head.get_set_of_ne m (page b 1) _ (by decide : Head.size ≠ .status),
    hget]

end Small

theorem FreshPage.multiPage_refused {m : Bytes} {p : Addr} {size : Word}
    (h : FreshPage m p) (hnext : p + PAGE_SIZE ≠ 0) (hsize : PAGE_SIZE < size)
    (hblocks : MAXIMUM_COALESCE_BLOCKS < size / PAGE_SIZE) :
    multiPage m size p = .ok (some .refused) := by
  have hne : Flag.unused ≠ Flag.allocated := by decide
  rw [multiPage, if_pos ⟨hsize, h.level, h.status ▸ hne, h.next ▸ hnext⟩,
    if_pos hblocks]

theorem FreshPage.search_refused {m : Bytes} {p : Addr} {size : Word}
    (h : FreshPage m p) (hp : p ≠ 0) (hnext : p + PAGE_SIZE ≠ 0)
    (hsize : PAGE_SIZE < size)
    (hblocks : MAXIMUM_COALESCE_BLOCKS < size / PAGE_SIZE) (fuel : ℕ) :
    mallocLoop size (fuel + 1) m p = .ok (.refused, m) := by
  rw [mallocLoop, mallocStep, if_neg hp,
    h.multiPage_refused hnext hsize hblocks]
  rfl

theorem FreshPool.search_refused {m : Bytes} {b : Addr} {size : Word}
    (h : FreshPool m b) (hsize : PAGE_SIZE < size)
    (hblocks : MAXIMUM_COALESCE_BLOCKS < size / PAGE_SIZE) {fuel : ℕ}
    {x : MallocResult × Bytes} (hx : mallocLoop size fuel m b = .ok x) :
    x = (.refused, m) := by
  have hpage : FreshPage m b := page_zero b ▸ h.page 0 (by decide)
  cases fuel with
  | zero => exact absurd hx (by simp [mallocLoop])
  | succ fuel =>
      rw [hpage.search_refused h.ne_zero h.pointers.second_ne hsize hblocks]
        at hx
      exact (Except.ok.inj hx).symm

end OptimistOS
