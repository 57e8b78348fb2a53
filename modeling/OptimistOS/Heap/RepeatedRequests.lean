import OptimistOS.Process.KernelMemory

/-!
# Requests of one size class

A program that asks an untouched heap for blocks of one size class, writes to
the blocks it has got and frees none. In a class of half a page or less, the
first request is answered with the left half of the first page, the second one
with its right half, and all later ones with the left half of the second page;
in the class of a whole page, the first request is answered with the first page
and all later ones with the second page.
-/

namespace OptimistOS

open ByteMemory ByteMemory.Code Transition

/-- The node that the request after `n` others of the class `c` is answered
with, in the pool at `b`. -/
def requestNode (b : Addr) (c : Word) (n : ℕ) : Addr :=
  if n = 0 then b
  else if c = PAGE_SIZE ∨ 2 ≤ n then page b 1
  else rightHalf b

def requestBlock (b : Addr) (c : Word) (n : ℕ) : Addr :=
  requestNode b c n + sizeofHead

/-- The first page is allocated as a whole, and the second one is not split. -/
structure PageTaken (m : Bytes) (b : Addr) : Prop where
  left : head.get m b .left = 0
  next : head.get m b .next = page b 1
  status : head.get m b .status = Flag.allocated
  size : head.get m (page b 1) .size = PAGE_SIZE

def ServedRequests (c : Word) (m : Bytes) (b : Addr) : ℕ → Prop
  | 0 => FreshPool m b
  | 1 => if c = PAGE_SIZE then PageTaken m b else LeftTaken m b c
  | 2 => if c = PAGE_SIZE then PageTaken m b
      else BothTaken m b ∧ FreshPage m (page b 1)
  | _ + 3 => if c = PAGE_SIZE then PageTaken m b
      else BothTaken m b ∧ head.get m (page b 1) .size = c

def requestHeaders (b : Addr) (c : Word) : Set Addr :=
  {x | ∃ n, x ∈ head.recordRegion (requestNode b c n)}

theorem requestNode_of_half (b : Addr) {c : Word} (h : c ≠ PAGE_SIZE) :
    requestNode b c 1 = rightHalf b := by
  rw [requestNode, if_neg (by decide), if_neg (by simp [h])]

theorem requestNode_of_page (b : Addr) (n : ℕ) :
    requestNode b PAGE_SIZE (n + 1) = page b 1 := by
  rw [requestNode, if_neg (by omega), if_pos (.inl rfl)]

theorem requestNode_of_le (b : Addr) (c : Word) (n : ℕ) :
    requestNode b c (n + 2) = page b 1 := by
  rw [requestNode, if_neg (by omega), if_pos (.inr (by omega))]

theorem disjoint_requestHeaders (b : Addr) (c : Word) (n : ℕ) :
    Disjoint (head.recordRegion (requestNode b c n)) (requestHeaders b c)ᶜ :=
  Set.disjoint_compl_right_iff_subset.2 fun _ hx => ⟨n, hx⟩

section

variable {m m' : Bytes} {b : Addr} {c : Word} {k n : ℕ}

theorem servedRequests_page :
    ServedRequests PAGE_SIZE m b (n + 1) ↔ PageTaken m b := by
  match n with
  | 0 => rw [ServedRequests, if_pos rfl]
  | 1 => rw [ServedRequests, if_pos rfl]
  | n + 2 => rw [ServedRequests, if_pos rfl]

/-- Once there was a request, only these headers matter. -/
theorem ServedRequests.congr (h : ServedRequests c m b (n + 1))
    (hm : AgreeOff (requestHeaders b c)ᶜ m m') :
    ServedRequests c m' b (n + 1) := by
  have hfirst : Disjoint (head.recordRegion b) (requestHeaders b c)ᶜ :=
    disjoint_requestHeaders b c 0
  have hsecond : Disjoint (head.recordRegion (page b 1))
      (requestHeaders b c)ᶜ :=
    requestNode_of_le b c 0 ▸ disjoint_requestHeaders b c 2
  by_cases hc : c = PAGE_SIZE
  · subst hc
    rw [servedRequests_page] at h ⊢
    exact ⟨(head.get_congr hm b _ hfirst).trans h.left,
      (head.get_congr hm b _ hfirst).trans h.next,
      (head.get_congr hm b _ hfirst).trans h.status,
      (head.get_congr hm _ _ hsecond).trans h.size⟩
  · have hright : Disjoint (head.recordRegion (rightHalf b))
        (requestHeaders b c)ᶜ :=
      requestNode_of_half b hc ▸ disjoint_requestHeaders b c 1
    match n, h with
    | 0, h =>
        rw [ServedRequests, if_neg hc] at h ⊢
        exact ⟨(head.get_congr hm b _ hfirst).trans h.left,
          (head.get_congr hm b _ hfirst).trans h.right,
          (head.get_congr hm b _ hfirst).trans h.next,
          (head.get_congr hm b _ hfirst).trans h.status,
          (head.get_congr hm _ _ hright).trans h.rightStatus,
          (head.get_congr hm _ _ hright).trans h.rightSize,
          h.second.congr hm hsecond⟩
    | 1, h =>
        rw [ServedRequests, if_neg hc] at h ⊢
        exact ⟨h.1.congr hm hfirst hright, h.2.congr hm hsecond⟩
    | n + 2, h =>
        rw [ServedRequests, if_neg hc] at h ⊢
        exact ⟨h.1.congr hm hfirst hright,
          (head.get_congr hm _ _ hsecond).trans h.2⟩

/-- A request for a whole page. -/
theorem ServedRequests.search_page (h : ServedRequests PAGE_SIZE m b n)
    (hptr : PoolPointers b) (fuel : ℕ) :
    mallocLoop PAGE_SIZE (fuel + 1) m b =
        .ok (.node (requestNode b PAGE_SIZE n), m) ∧
      PageTaken (head.set m (requestNode b PAGE_SIZE n) .status
        Flag.allocated) b := by
  have hle : (PAGE_SIZE : Word) ≤ PAGE_SIZE := by decide
  cases n with
  | zero =>
      have hpage : FreshPage m b := page_zero b ▸ h.page 0 (by decide)
      have hsecond : FreshPage m (page b 1) := h.page 1 (by decide)
      have hskip := (hpage.isUnused hptr.ne_zero).skipAllocated
      have hloop := mallocLoop_of_size PAGE_SIZE fuel hptr.ne_zero hle
        (hskip.symm ▸ hptr.ne_zero) (hskip.symm ▸ hpage.size)
      rw [hskip] at hloop
      refine ⟨hloop, ?_, ?_, head_get_set_allocated m b, ?_⟩
      · rw [requestNode, if_pos rfl, head.get_set_of_ne m b _ (by decide),
          hpage.left]
      · rw [requestNode, if_pos rfl, head.get_set_of_ne m b _ (by decide),
          hpage.next, page_one]
      · rw [requestNode, if_pos rfl, head.get_congr (head.agreeOff_set m b _ _)
          _ _ (disjoint_second b).1, hsecond.size]
  | succ n =>
      have htaken : PageTaken m b := servedRequests_page.1 h
      have hnode := requestNode_of_page b n
      have hskip : skipAllocated m b = page b 1 := by
        rw [skipAllocated, htaken.left, if_neg (fun hand => hand.1 rfl),
          if_pos htaken.status, htaken.next, if_pos hptr.second_ne]
      have hloop := mallocLoop_of_size PAGE_SIZE fuel hptr.ne_zero hle
        (hskip.symm ▸ hptr.second_ne) (hskip.symm ▸ htaken.size)
      rw [hskip] at hloop
      have hset := head.agreeOff_set m (page b 1) .status Flag.allocated
      rw [hnode]
      exact ⟨hloop, (head.get_congr hset b _ (disjoint_second b).1.symm).trans
          htaken.left,
        (head.get_congr hset b _ (disjoint_second b).1.symm).trans htaken.next,
        (head.get_congr hset b _ (disjoint_second b).1.symm).trans
          htaken.status,
        (head.get_set_of_ne m _ _ (by decide)).trans htaken.size⟩

/-- A request for half a page or less. -/
theorem ServedRequests.search_half (h : ServedRequests c m b n)
    (hptr : PoolPointers b) (hk : k ≠ 0) (hc : c.toNat * 2 ^ k = 4096)
    (hne : c ≠ PAGE_SIZE) (fuel : ℕ) :
    ∃ m', mallocLoop c (fuel + k + 1) m b =
        .ok (.node (requestNode b c n), m') ∧
      ServedRequests c (head.set m' (requestNode b c n) .status
        Flag.allocated) b (n + 1) := by
  match n, h with
  | 0, h =>
      obtain ⟨m', hloop, htaken⟩ := FreshPool.search h hk hc fuel
      refine ⟨m', hloop, ?_⟩
      rw [ServedRequests, if_neg hne]
      exact htaken
  | 1, h =>
      rw [ServedRequests, if_neg hne] at h
      obtain ⟨hloop, hserved⟩ := h.search hptr (size_le_of_mul hc) (fuel + k)
      rw [requestNode_of_half b hne]
      refine ⟨m, hloop, ?_⟩
      rw [ServedRequests, if_neg hne]
      exact hserved
  | n + 2, h =>
      rw [requestNode_of_le]
      cases n with
      | zero =>
          rw [ServedRequests, if_neg hne] at h
          obtain ⟨m', hloop, hserved⟩ := h.1.search hptr h.2 hk hc fuel
          refine ⟨m', hloop, ?_⟩
          rw [ServedRequests, if_neg hne]
          exact hserved
      | succ n =>
          rw [ServedRequests, if_neg hne] at h
          obtain ⟨hloop, hserved⟩ := h.1.search_second hptr h.2
            (size_le_of_mul hc) (fuel + k)
          refine ⟨m, hloop, ?_⟩
          rw [ServedRequests, if_neg hne]
          exact hserved

theorem ServedRequests.search (h : ServedRequests c m b n)
    (hptr : PoolPointers b) (hc : c.toNat * 2 ^ k = 4096) (fuel : ℕ) :
    ∃ m', mallocLoop c (fuel + k + 1) m b =
        .ok (.node (requestNode b c n), m') ∧
      ServedRequests c (head.set m' (requestNode b c n) .status
        Flag.allocated) b (n + 1) := by
  by_cases hk : k = 0
  · subst hk
    rw [pow_zero, mul_one] at hc
    have hsize : (PAGE_SIZE : Word).toNat = 4096 := rfl
    obtain rfl : c = PAGE_SIZE := BitVec.eq_of_toNat_eq (hc.trans hsize.symm)
    obtain ⟨hloop, htaken⟩ := h.search_page hptr fuel
    exact ⟨m, hloop, servedRequests_page.2 htaken⟩
  · refine h.search_half hptr hk hc ?_ fuel
    rintro rfl
    rw [show (PAGE_SIZE : Word).toNat = 4096 from rfl] at hc
    have hpow : 2 ≤ 2 ^ k := Nat.le_self_pow hk 2
    omega

end

def requestOffset (c : Word) (n : ℕ) : ℕ :=
  if n = 0 then 0
  else if c = PAGE_SIZE ∨ 2 ≤ n then 4096
  else 2048

theorem requestNode_eq (b : Addr) (c : Word) (n : ℕ) :
    requestNode b c n = b + BitVec.ofNat 64 (requestOffset c n) := by
  rw [requestNode, requestOffset]
  split_ifs with hn hc
  · exact (BitVec.add_zero b).symm
  · rw [page]
  · have h := rightHalf_eq b 0
    rwa [page_zero] at h

theorem requestOffset_le (c : Word) (n : ℕ) : requestOffset c n ≤ 4096 := by
  rw [requestOffset]
  split_ifs <;> omega

theorem requestBlock_eq (b : Addr) (c : Word) (n : ℕ) :
    requestBlock b c n = b + BitVec.ofNat 64 (requestOffset c n + 64) := by
  rw [requestBlock, requestNode_eq, ← add_ofNat_add_ofNat]
  rfl

/-- A class that a page is split down to is at most as large as the distance
between two of the nodes. -/
theorem requestOffset_add_le {c : Word} {k i j : ℕ}
    (hc : c.toNat * 2 ^ k = 4096)
    (h : requestOffset c i < requestOffset c j) :
    requestOffset c i + c.toNat ≤ requestOffset c j := by
  have hle : c.toNat ≤ 4096 := hc ▸ Nat.le_mul_of_pos_right _ (Nat.two_pow_pos k)
  by_cases hpage : c = PAGE_SIZE
  · rw [requestOffset, requestOffset] at *
    simp only [hpage, true_or, if_true] at *
    split_ifs at * <;> omega
  · have hhalf : c.toNat ≤ 2048 := by
      cases k with
      | zero =>
          rw [pow_zero, mul_one] at hc
          exact absurd (BitVec.eq_of_toNat_eq (hc.trans rfl)) hpage
      | succ k =>
          rw [pow_succ] at hc
          have := Nat.le_mul_of_pos_right c.toNat (Nat.two_pow_pos k)
          have hassoc : c.toNat * (2 ^ k * 2) = c.toNat * 2 ^ k * 2 := by ring
          omega
    rw [requestOffset, requestOffset] at *
    simp only [hpage, false_or] at *
    split_ifs at * <;> omega

theorem disjoint_requestRoom (b : Addr) {c : Word} {k : ℕ}
    (hc : c.toNat * 2 ^ k = 4096) (n : ℕ) :
    Disjoint (region (requestBlock b c n) (c.toNat - 64))
      (requestHeaders b c) := by
  rw [Set.disjoint_right]
  rintro x ⟨j, hx⟩
  have hn := requestOffset_le c n
  have hj := requestOffset_le c j
  have hle : c.toNat ≤ 4096 := hc ▸ Nat.le_mul_of_pos_right _ (Nat.two_pow_pos k)
  rw [requestBlock_eq]
  rw [requestNode_eq] at hx
  rcases Nat.lt_or_ge (requestOffset c n) (requestOffset c j) with hlt | hge
  · have hfar := requestOffset_add_le hc hlt
    by_cases hc64 : c.toNat ≤ 64
    · rw [mem_region]
      omega
    · refine Set.disjoint_right.1 (disjoint_region_of_le b ?_ ?_) hx
      · omega
      · rw [show head.sizeof = 64 from rfl]
        omega
  · refine Set.disjoint_left.1 (disjoint_region_of_le b ?_ ?_) hx
    · rw [show head.sizeof = 64 from rfl]
      omega
    · omega

/-- What the program does with the heap: it asks for a block of `size` bytes, or
leaves the memory `m` behind when it has written to the block at `p`. -/
inductive HeapUse
  | request (size : Word)
  | write (p : Addr) (m : Bytes)

/-- The machine and the blocks that the requests were answered with. -/
structure HeapUser (α : Type) where
  machine : Machine 64 (HeapGlobals α)
  answers : List Addr

inductive UseStep {α : Type} (A : FrameAllocator α) (fuel : ℕ) (c : Word)
    (s : HeapUser α) : HeapUse → HeapUser α → Prop
  | request {size : Word} {p : Addr} {t : Machine 64 (HeapGlobals α)}
      (hsize : blockSize size = c)
      (hrun : (mallocx A fuel size).run s.machine = .ok p t) :
      UseStep A fuel c s (.request size) ⟨t, s.answers ++ [p]⟩
  | write {p : Addr} {m : Bytes} (hp : p ∈ s.answers)
      (hm : AgreeOff (region p (c.toNat - 64)) s.machine.mem m) :
      UseStep A fuel c s (.write p m) ⟨⟨m, s.machine.globals⟩, s.answers⟩

theorem run_mallocx_served {α : Type} {A : FrameAllocator α} {fuel k n : ℕ}
    {c size : Word} {b : Addr} {s : Machine 64 (HeapGlobals α)}
    (hc : c.toNat * 2 ^ k = 4096) (hfuel : k < fuel) (hsize : blockSize size = c)
    (hmutex : s.globals.mutex = 0) (hlist : s.globals.freeList = b)
    (hptr : PoolPointers b) (h : ServedRequests c s.mem b n) :
    ∃ m', (mallocx A fuel size).run s =
        .ok (requestBlock b c n) ⟨m', s.globals⟩ ∧
      ServedRequests c m' b (n + 1) := by
  subst hlist hsize
  obtain ⟨m', hloop, hserved⟩ := h.search hptr hc (fuel - k - 1)
  rw [show fuel - k - 1 + k + 1 = fuel by omega] at hloop
  exact ⟨_, run_mallocx_node hmutex hptr.ne_zero hloop, hserved⟩

section

variable {τ : Type} (T : SizeTable τ) (fuel : ℕ) {heapFuel : ℕ}
  {R : UsableRegion} {mem : Bytes} {table : τ} {used k : ℕ} {c : Word}

/-- The heap between the requests: untouched, or with the pool at `R.addr used`
after as many requests as there are answers. -/
def HeapUser.Serving (R : UsableRegion) (used : ℕ) (c : Word)
    (u s : HeapUser (PagingGlobals (FrameGlobals τ))) : Prop :=
  u.answers =
      (List.range u.answers.length).map (requestBlock (R.addr used) c) ∧
    (u = s ∨ (u.answers ≠ [] ∧ u.machine.globals.mutex = 0 ∧
      u.machine.globals.freeList = R.addr used ∧ PoolPointers (R.addr used) ∧
      ServedRequests c u.machine.mem (R.addr used) u.answers.length))

/-- What a request does to such a heap. -/
theorem HeapUser.Serving.request
    {s : Machine 64 (KernelGlobals τ)} {u : HeapUser (PagingGlobals (FrameGlobals τ))}
    (hheap : HeapUntouched s.globals)
    (hs : AllocState R mem table (frameMachine s) used)
    (hmod : used % 4096 = 0)
    (hroom : used + poolBytes.toNat ≤ R.length.toNat)
    (hc : c.toNat * 2 ^ k = 4096) (hfuel : k < heapFuel)
    (hu : u.Serving R used c ⟨s, []⟩) {size : Word} (hsize : blockSize size = c) :
    ∃ t, (mallocx (heapAllocator T fuel) heapFuel size).run u.machine =
        .ok (requestBlock (R.addr used) c u.answers.length) t ∧
      HeapUser.Serving R used c ⟨t, u.answers ++
        [requestBlock (R.addr used) c u.answers.length]⟩ ⟨s, []⟩ := by
  obtain ⟨hanswers, hstate⟩ := hu
  have hnext : u.answers ++ [requestBlock (R.addr used) c u.answers.length] =
      (List.range (u.answers.length + 1)).map
        (requestBlock (R.addr used) c) := by
    rw [List.range_succ, List.map_append, ← hanswers, List.map_singleton]
  rcases hstate with rfl | ⟨-, hmutex, hlist, hptr, hserved⟩
  · obtain ⟨s₁, hlist, hpool, -, hrun⟩ := run_mallocx_first T fuel heapFuel size
      hheap hs hmod hroom
    have hfirst : ServedRequests c s₁.mem (R.addr used) 0 := hpool
    obtain ⟨m', hloop, hserved⟩ := hfirst.search hpool.pointers hc
      (heapFuel - k - 1)
    rw [show heapFuel - k - 1 + k + 1 = heapFuel by omega] at hloop
    rw [hsize, hloop, run_serveRequest_node] at hrun
    exact ⟨_, hrun, by simp, .inr ⟨by simp, rfl, hlist,
      hpool.pointers, hserved⟩⟩
  · obtain ⟨m', hrun, hserved'⟩ := run_mallocx_served
      (A := heapAllocator T fuel) hc hfuel hsize hmutex hlist hptr hserved
    exact ⟨_, hrun, by simpa using hnext, .inr ⟨by simp, hmutex, hlist, hptr,
      by simpa using hserved'⟩⟩

/-- Every step keeps the heap so. -/
theorem HeapUser.Serving.step
    {s : Machine 64 (KernelGlobals τ)}
    {u u' : HeapUser (PagingGlobals (FrameGlobals τ))} {l : HeapUse}
    (hheap : HeapUntouched s.globals)
    (hs : AllocState R mem table (frameMachine s) used)
    (hmod : used % 4096 = 0)
    (hroom : used + poolBytes.toNat ≤ R.length.toNat)
    (hc : c.toNat * 2 ^ k = 4096) (hfuel : k < heapFuel)
    (hu : u.Serving R used c ⟨s, []⟩)
    (hstep : UseStep (heapAllocator T fuel) heapFuel c u l u') :
    u'.Serving R used c ⟨s, []⟩ := by
  cases hstep with
  | request hsize hrun =>
      obtain ⟨t, hrun', hserving⟩ := hu.request T fuel hheap hs hmod hroom hc
        hfuel hsize
      rw [hrun, EStateM.Result.ok.injEq] at hrun'
      obtain ⟨rfl, rfl⟩ := hrun'
      exact hserving
  | @write p m hp hm =>
      obtain ⟨hanswers, hstate⟩ := hu
      refine ⟨hanswers, ?_⟩
      rcases hstate with rfl | ⟨hne, hmutex, hlist, hptr, hserved⟩
      · exact absurd hp (by simp)
      · obtain ⟨n, hn⟩ : ∃ n, u.answers.length = n + 1 :=
          ⟨u.answers.length - 1, by
            have := List.length_pos_of_ne_nil hne
            omega⟩
        rw [hanswers] at hp
        obtain ⟨i, -, rfl⟩ := List.mem_map.1 hp
        rw [hn] at hserved
        refine .inr ⟨hne, hmutex, hlist, hptr, ?_⟩
        rw [hn]
        exact hserved.congr (hm.mono (Set.subset_compl_iff_disjoint_right.2
          (disjoint_requestRoom (R.addr used) hc i)))

end

theorem requestBlock_inj {b : Addr} {c : Word} {i j : ℕ} :
    requestBlock b c i = requestBlock b c j ↔
      requestOffset c i = requestOffset c j := by
  rw [requestBlock_eq, requestBlock_eq]
  have hi := requestOffset_le c i
  have hj := requestOffset_le c j
  constructor
  · intro h
    have := add_ofNat_inj b (by omega) (by omega) h
    omega
  · intro h
    rw [h]

/-- The blocks are different as long as there are at most three, or two whole
pages. -/
theorem nodup_requestBlocks (b : Addr) (c : Word) (n : ℕ) :
    ((List.range n).map (requestBlock b c)).Nodup ↔
      n ≤ if c = PAGE_SIZE then 2 else 3 := by
  rw [List.nodup_map_iff_inj_on List.nodup_range]
  simp only [List.mem_range, requestBlock_inj]
  constructor
  · intro h
    by_contra hn
    split_ifs at hn with hc
    · have := h 1 (by omega) 2 (by omega) (by simp [requestOffset, hc])
      omega
    · have := h 2 (by omega) 3 (by omega) (by simp [requestOffset])
      omega
  · intro hn i hi j hj h
    rw [requestOffset, requestOffset] at h
    by_cases hc : c = PAGE_SIZE
    · simp only [hc, if_true, true_or] at hn h
      split_ifs at h <;> omega
    · simp only [hc, if_false, false_or] at hn h
      split_ifs at h <;> omega

section

variable {τ : Type} (T : SizeTable τ) (fuel : ℕ) {heapFuel : ℕ}
  {R : UsableRegion} {mem : Bytes} {table : τ} {used k : ℕ} {c : Word}

/-- Every request is answered, the blocks come in this order, and they are
different exactly as long as there were at most three of them, or two whole
pages. -/
theorem answers_of_run {s : Machine 64 (KernelGlobals τ)}
    (hheap : HeapUntouched s.globals)
    (hs : AllocState R mem table (frameMachine s) used)
    (hmod : used % 4096 = 0)
    (hroom : used + poolBytes.toNat ≤ R.length.toNat)
    (hc : c.toNat * 2 ^ k = 4096) (hfuel : k < heapFuel) {us : List HeapUse}
    {u : HeapUser (PagingGlobals (FrameGlobals τ))}
    (hrun : Run (UseStep (heapAllocator T fuel) heapFuel c) ⟨s, []⟩ us u) :
    (∀ size, blockSize size = c → ∃ t,
      (mallocx (heapAllocator T fuel) heapFuel size).run u.machine =
        .ok (requestBlock (R.addr used) c u.answers.length) t) ∧
      u.answers =
        (List.range u.answers.length).map (requestBlock (R.addr used) c) ∧
      (u.answers.Nodup ↔
        u.answers.length ≤ if c = PAGE_SIZE then 2 else 3) := by
  have hserving : u.Serving R used c ⟨s, []⟩ := hrun.invariant
    (fun u => u.Serving R used c ⟨s, []⟩) ⟨rfl, .inl rfl⟩
    fun _ _ _ hu hstep => hu.step T fuel hheap hs hmod hroom hc hfuel hstep
  refine ⟨fun size hsize => ?_, hserving.1, ?_⟩
  · obtain ⟨t, ht, -⟩ := hserving.request T fuel hheap hs hmod hroom hc hfuel
      hsize
    exact ⟨t, ht⟩
  · rw [← nodup_requestBlocks (R.addr used) c u.answers.length,
      ← hserving.1]

end

/-- Three requests of the class of 256 bytes. The first two blocks are filled as
soon as they are there. -/
theorem answers_of_run_freshKernel :
    ∃ (u : HeapUser (PagingGlobals (FrameGlobals HashTable))) (p q r : Addr)
      (m m' : Bytes),
      Run (UseStep (heapAllocator addressSizeTable 0) 6 256)
        ⟨⟨freshKernel.mem, freshKernel.globals.memory⟩, []⟩
        [.request 100, .write p m, .request 128, .write q m', .request 192] u ∧
      (∀ x ∈ region p 192, m x = 0xFF) ∧ (∀ x ∈ region q 192, m' x = 0xFF) ∧
      u.answers = [p, q, r] ∧ u.answers.Nodup := by
  have hheap : HeapUntouched freshKernel.globals.memory := ⟨rfl, rfl⟩
  have hs : AllocState largeRegion (fun _ => 0) HashTable.zero
      (frameMachine ⟨freshKernel.mem, freshKernel.globals.memory⟩) 0 :=
    Or.inl ⟨rfl, rfl⟩
  have hserves := fun us u
      (hrun : Run (UseStep (heapAllocator addressSizeTable 0) 6 256)
        ⟨⟨freshKernel.mem, freshKernel.globals.memory⟩, []⟩ us u) =>
    answers_of_run addressSizeTable 0 hheap hs rfl (by decide)
      (by decide : (256 : Word).toNat * 2 ^ 4 = 4096) (by decide : 4 < 6) hrun
  obtain ⟨t₁, ht₁⟩ := (hserves _ _ .nil).1 100 (by decide)
  have hrun₁ := Run.single (UseStep.request (c := 256) (by decide) ht₁)
  have hrun₂ := hrun₁.snoc (.write (List.mem_singleton_self _)
    (agreeOff_fill t₁.mem _ 192 0xFF))
  obtain ⟨t₂, ht₂⟩ := (hserves _ _ hrun₂).1 128 (by decide)
  have hrun₃ := hrun₂.snoc (.request (by decide) ht₂)
  have hrun₄ := hrun₃.snoc (.write (List.mem_cons_of_mem _
    (List.mem_singleton_self _)) (agreeOff_fill t₂.mem _ 192 0xFF))
  obtain ⟨t₃, ht₃⟩ := (hserves _ _ hrun₄).1 192 (by decide)
  have hrun₅ := hrun₄.snoc (.request (by decide) ht₃)
  refine ⟨_, _, _, _, _, _, hrun₅, fun x => fill_of_mem t₁.mem 0xFF,
    fun x => fill_of_mem t₂.mem 0xFF, rfl, (hserves _ _ hrun₅).2.2.2 ?_⟩
  change 3 ≤ if (256 : Word) = PAGE_SIZE then 2 else 3
  decide

end OptimistOS
