import OptimistOS.Process.KernelMemory

/-!
# The nodes of the thread list

`addThreadToList` on the kernel's own heap. The first node lies in a frame, the
next three in the blocks that the first three requests to the heap are answered
with. Every later request is answered with the block of the last node once more,
so the list does not grow: the new thread replaces the last one.
-/

namespace OptimistOS

open ByteMemory ByteMemory.Code LinkedList

structure ListsThreads {α : Type} (g : ProcessGlobals α)
    (ts nodes : List Addr) : Prop where
  chain : Chain 0 (fun p => (g.threadList p).next) g.threadHead nodes
  threadInfo : nodes.map (fun p => (g.threadList p).threadInfo) = ts

/-- The list reachable from `threadHead` is null-terminated and carries the
threads `ts`. -/
def CarriesThreads {α : Type} (g : ProcessGlobals α) (ts : List Addr) : Prop :=
  ∃ nodes, ListsThreads g ts nodes

def addThreads {α : Type} (M : MemoryManager α) (fuel : ℕ) :
    List Addr → Code 64 (ProcessGlobals α) Unit
  | [] => return ()
  | t :: ts => do
      addThreadToList M fuel t
      addThreads M fuel ts

section

variable {α : Type} {M : MemoryManager α}

/-- `addThreadToList` on a list with a node. -/
theorem run_addThreadToList {s : Machine 64 (ProcessGlobals α)}
    {t : Machine 64 α} {fuel : ℕ} {l p : Addr} (ns : List Addr)
    (thread : Addr) (hmutex : s.globals.threadMutex = 0)
    (hchain : Chain 0 (fun p => (s.globals.threadList p).next)
      s.globals.threadHead (ns ++ [l]))
    (hfuel : ns.length < fuel)
    (hmalloc : (M.mallocx sizeofThreadList).run
      ⟨s.mem, s.globals.memory⟩ = .ok p t) :
    (addThreadToList M fuel thread).run s =
      .ok () ⟨t.mem, { s.globals with
        memory := t.globals
        threadList := linkNode s.globals.threadList l p thread }⟩ := by
  have hhead : s.globals.threadHead ≠ 0 := by
    cases ns with
    | nil => exact hchain.1 ▸ hchain.2.1
    | cons q qs => exact hchain.1 ▸ hchain.2.1
  have hlast := hchain.lastNode_eq hfuel
  have hcall : (callMemory (M.mallocx sizeofThreadList)).run
      ⟨s.mem, { s.globals with threadMutex := 1 }⟩ =
        .ok p ⟨t.mem, { s.globals with threadMutex := 1, memory := t.globals }⟩ :=
    run_zoom_of_ok hmalloc
  rw [addThreadToList, lockThreads, run_bind_of_ok (run_lock_of_free hmutex),
    EStateM.run_bind, EStateM.run_get]
  simp only [if_neg hhead]
  rw [EStateM.run_bind, EStateM.run_get]
  simp only [hlast]
  rw [run_bind_of_ok hcall]
  simp only [EStateM.run_bind, run_modifyGlobals, unlockThreads, run_unlock,
    ProcessGlobals.modifyNode, Function.update_self]
  simp only [linkNode, ← hmutex]
  by_cases hpl : p = l
  · subst hpl
    simp
  · simp [Function.update_of_ne, hpl, Ne.symm hpl]

/-- A new node at the end of the list. -/
theorem ListsThreads.append {g g' : ProcessGlobals α} {ts : List Addr}
    {l p thread : Addr} (ns : List Addr) (h : ListsThreads g ts (ns ++ [l])) (hp : p ≠ 0)
    (hnew : p ∉ ns ++ [l]) (hhead : g'.threadHead = g.threadHead)
    (hlist : g'.threadList = linkNode g.threadList l p thread) :
    ListsThreads g' (ts ++ [thread]) (ns ++ [l] ++ [p]) := by
  have hnodup := h.chain.nodup
  have hlp : l ≠ p := fun hlp => hnew (by simp [hlp])
  have hns : ∀ q ∈ ns, q ≠ l ∧ q ≠ p := by
    intro q hq
    refine ⟨?_, fun hqp => hnew (by simp [← hqp, hq])⟩
    rintro rfl
    exact List.disjoint_of_nodup_append hnodup hq (by simp)
  have hkept : ∀ q ∈ ns, g'.threadList q = g.threadList q := by
    intro q hq
    rw [hlist, linkNode, Function.update_of_ne (hns q hq).2,
      Function.update_of_ne (hns q hq).1]
  have hlast : g'.threadList l = { g.threadList l with next := p } := by
    rw [hlist, linkNode, Function.update_of_ne hlp, Function.update_self]
  have hend : g'.threadList p = ⟨thread, 0⟩ := by
    rw [hlist, linkNode, Function.update_self]
  refine ⟨?_, ?_⟩
  · rw [hhead]
    exact h.chain.snoc hp hnew (by rw [hlast]) (by rw [hend])
      fun q hq => by rw [hkept q hq]
  · have hmap : (ns ++ [l]).map (fun p => (g'.threadList p).threadInfo) =
        (ns ++ [l]).map (fun p => (g.threadList p).threadInfo) := by
      refine List.map_congr_left fun q hq => ?_
      rcases List.mem_append.1 hq with hq | hq
      · rw [hkept q hq]
      · rw [List.mem_singleton.1 hq, hlast]
    rw [List.map_append, hmap, h.threadInfo, List.map_singleton, hend]

/-- The last node once more. -/
theorem ListsThreads.replace {g g' : ProcessGlobals α} {ts ns : List Addr}
    {l thread : Addr} (h : ListsThreads g ts (ns ++ [l]))
    (hhead : g'.threadHead = g.threadHead)
    (hlist : g'.threadList = linkNode g.threadList l l thread) :
    ListsThreads g' (ts.dropLast ++ [thread]) (ns ++ [l]) := by
  have hnodup := h.chain.nodup
  have hkept : ∀ q ∈ ns, g'.threadList q = g.threadList q := by
    intro q hq
    have hql : q ≠ l := by
      rintro rfl
      exact List.disjoint_of_nodup_append hnodup hq (by simp)
    rw [hlist, linkNode, Function.update_of_ne hql, Function.update_of_ne hql]
  have hlast : g'.threadList l = ⟨thread, 0⟩ := by
    rw [hlist, linkNode, Function.update_self]
  have hend : (g.threadList l).next = 0 := by
    have hdrop : Chain 0 (fun q => (g.threadList q).next) l [l] :=
      h.chain.drop
    exact hdrop.2.2
  refine ⟨?_, ?_⟩
  · rw [hhead]
    refine h.chain.congr fun q hq => ?_
    rcases List.mem_append.1 hq with hq | hq
    · rw [hkept q hq]
    · rw [List.mem_singleton.1 hq, hlast, hend]
  · have hmap : ns.map (fun p => (g'.threadList p).threadInfo) =
        ns.map (fun p => (g.threadList p).threadInfo) :=
      List.map_congr_left fun q hq => by rw [hkept q hq]
    have hts := h.threadInfo
    rw [List.map_append, List.map_singleton] at hts
    rw [List.map_append, List.map_singleton, hmap, hlast, ← hts,
      List.dropLast_concat]

end

section

variable {τ : Type} {T : SizeTable τ} {fuel heapFuel : ℕ} {R : UsableRegion}
  {mem : Bytes} {table : τ} {used : ℕ}

theorem blockSize_threadList : blockSize sizeofThreadList = 128 := by
  decide

/-- The heap after it has served `k` list nodes from the pool at `b`; from the
third one on it stays as it is. -/
def ServedNodes (s : Machine 64 (KernelGlobals τ)) (b : Addr) : ℕ → Prop
  | 0 => False
  | 1 => LeftTaken s.mem b 128
  | 2 => BothTaken s.mem b ∧ FreshPage s.mem (page b 1)
  | _ + 3 => BothTaken s.mem b ∧ head.get s.mem (page b 1) .size = 128

/-- The pointer that the `k`-th request for a list node returns, from the third
one on always the same one. -/
def nodeBlock (b : Addr) : ℕ → Addr
  | 0 => b + sizeofHead
  | 1 => rightHalf b + sizeofHead
  | _ + 2 => page b 1 + sizeofHead

variable (T fuel heapFuel)

theorem run_mallocx_node_first {s : Machine 64 (KernelGlobals τ)}
    (hheap : HeapUntouched s.globals)
    (hs : AllocState R mem table (frameMachine s) used)
    (hmod : used % 4096 = 0)
    (hroom : used + poolBytes.toNat ≤ R.length.toNat) :
    ∃ t : Machine 64 (KernelGlobals τ),
      (mallocx (heapAllocator T fuel) (heapFuel + 6) sizeofThreadList).run s =
        .ok (nodeBlock (R.addr used) 0) t ∧
      t.globals.mutex = 0 ∧ t.globals.freeList = R.addr used ∧
      ServedNodes t (R.addr used) 1 ∧ PoolPointers (R.addr used) := by
  obtain ⟨s₁, hlist, hpool, -, hrun⟩ := run_mallocx_first T fuel (heapFuel + 6)
    sizeofThreadList hheap hs hmod hroom
  obtain ⟨m', hloop, htaken⟩ := hpool.search (k := 5) (by decide)
    (by decide : (128 : Word).toNat * 2 ^ 5 = 4096) heapFuel
  rw [blockSize_threadList, hloop, run_serveRequest_node] at hrun
  exact ⟨_, hrun, rfl, hlist, htaken, hpool.pointers⟩

theorem run_mallocx_node_next {s : Machine 64 (KernelGlobals τ)} {b : Addr}
    {k : ℕ} (hmutex : s.globals.mutex = 0) (hlist : s.globals.freeList = b)
    (hptr : PoolPointers b) (hserved : ServedNodes s b (k + 1)) :
    ∃ t : Machine 64 (KernelGlobals τ),
      (mallocx (heapAllocator T fuel) (heapFuel + 6) sizeofThreadList).run s =
        .ok (nodeBlock b (k + 1)) t ∧
      t.globals.mutex = 0 ∧ t.globals.freeList = b ∧
      ServedNodes t b (k + 2) := by
  subst hlist
  have hnode : ∀ p m, mallocLoop 128 (heapFuel + 6) s.mem s.globals.freeList =
      .ok (.node p, m) →
      (mallocx (heapAllocator T fuel) (heapFuel + 6) sizeofThreadList).run s =
        .ok (p + sizeofHead)
          ⟨head.set m p .status Flag.allocated, s.globals⟩ := fun p m h =>
    run_mallocx_node hmutex hptr.ne_zero (blockSize_threadList ▸ h)
  match k, hserved with
  | 0, hserved =>
      obtain ⟨hloop, hboth, hfresh⟩ := LeftTaken.search hserved hptr
        (by decide) (heapFuel + 5)
      exact ⟨_, hnode _ _ hloop, hmutex, rfl, hboth, hfresh⟩
  | 1, hserved =>
      obtain ⟨m', hloop, hboth, hsize⟩ := hserved.1.search hptr hserved.2
        (k := 5) (by decide)
        (by decide : (128 : Word).toNat * 2 ^ 5 = 4096) heapFuel
      exact ⟨_, hnode _ _ hloop, hmutex, rfl, hboth, hsize⟩
  | k + 2, hserved =>
      obtain ⟨hloop, hboth, hsize⟩ := hserved.1.search_second hptr hserved.2
        (by decide) (heapFuel + 5)
      exact ⟨_, hnode _ _ hloop, hmutex, rfl, hboth, hsize⟩

end

section

variable {τ : Type} (T : SizeTable τ) (fuel heapFuel walkFuel : ℕ)
  {R : UsableRegion} {mem : Bytes} {table : τ} {used : ℕ}

def nodeOffset : ℕ → ℕ
  | 0 => 0
  | k + 1 => 4096 + 2048 * k + 64

/-- The `k`-th node of the list, with `used` bytes of the region handed out
before the first node. -/
def listNode (R : UsableRegion) (used k : ℕ) : Addr :=
  R.addr (used + nodeOffset k)

theorem nodeBlock_eq (R : UsableRegion) (used : ℕ) {k : ℕ} (hk : k ≤ 2) :
    nodeBlock (R.addr (used + 4096)) k = listNode R used (k + 1) := by
  have hhead : sizeofHead.toNat = 64 := by decide
  have hhalf : (2048 : Word).toNat = 2048 := by decide
  have hpage : page (R.addr (used + 4096)) 1 =
      R.addr (used + 4096) + PAGE_SIZE := page_one _
  have hsize : (PAGE_SIZE : Word).toNat = 4096 := rfl
  match k, hk with
  | 0, _ =>
      rw [nodeBlock, R.addr_add, hhead]
      rfl
  | 1, _ =>
      rw [nodeBlock, rightHalf, R.addr_add, R.addr_add, hhead, hhalf]
      rfl
  | 2, _ =>
      rw [nodeBlock, hpage, R.addr_add, R.addr_add, hhead, hsize]
      rfl

theorem listNode_inj (hroom : used + 16384 ≤ R.length.toNat) {i j : ℕ}
    (hi : i ≤ 3) (hj : j ≤ 3) (h : listNode R used i = listNode R used j) :
    i = j := by
  have hoff : ∀ k ≤ 3, nodeOffset k ≤ 16384 := by decide
  have heq := R.addr_inj (by have := hoff i hi; omega)
    (by have := hoff j hj; omega) h
  have hinj : ∀ i ≤ 3, ∀ j ≤ 3, nodeOffset i = nodeOffset j → i = j := by
    decide
  exact hinj i hi j hj (by omega)

theorem listNode_ne_zero (hroom : used + 16384 ≤ R.length.toNat) {k : ℕ}
    (hk : k ≤ 3) : listNode R used k ≠ 0 := by
  have hoff : ∀ k ≤ 3, nodeOffset k ≤ 16384 := by decide
  have := hoff k hk
  exact R.addr_ne_zero (by omega)

/-- The kernel before the first thread: there is no list, nothing was asked of
the heap, and the pool and a frame before it still fit into what the frame
allocator has left. -/
structure NoThreads (R : UsableRegion) (mem : Bytes) (table : τ)
    (s : Machine 64 (ProcessGlobals (KernelGlobals τ))) (used : ℕ) : Prop where
  threadMutex : s.globals.threadMutex = 0
  threadHead : s.globals.threadHead = 0
  heap : HeapUntouched s.globals.memory
  frames : AllocState R mem table (frameMachine ⟨s.mem, s.globals.memory⟩) used
  aligned : used % 4096 = 0
  room : used + 4096 + poolBytes.toNat ≤ R.length.toNat

/-- The kernel after the heap has served `k` list nodes; `ts` is the list. -/
structure HeapServed (R : UsableRegion) (used : ℕ)
    (s : Machine 64 (ProcessGlobals (KernelGlobals τ))) (k : ℕ)
    (ts : List Addr) : Prop where
  threadMutex : s.globals.threadMutex = 0
  mutex : s.globals.memory.mutex = 0
  freeList : s.globals.memory.freeList = R.addr (used + 4096)
  served : ServedNodes ⟨s.mem, s.globals.memory⟩ (R.addr (used + 4096)) k
  lists : ListsThreads s.globals ts
    ((List.range (min (k + 1) 4)).map (listNode R used))

/-- The first thread: its node lies in a frame of its own. -/
theorem run_addThreadToList_first
    {s : Machine 64 (ProcessGlobals (KernelGlobals τ))}
    (h : NoThreads R mem table s used) (thread : Addr) :
    ∃ s', (addThreadToList (kernelMemory T fuel heapFuel) walkFuel thread).run
        s = .ok () s' ∧
      s'.globals.threadMutex = 0 ∧ HeapUntouched s'.globals.memory ∧
      BumpState R (frameMachine ⟨s'.mem, s'.globals.memory⟩) (used + 4096) ∧
      ListsThreads s'.globals [thread] [listNode R used 0] := by
  have hroom := h.room
  have hround : (roundUpToPageBoundary sizeofThreadList).toNat = 4096 := by
    decide
  obtain ⟨t, halloc, hg⟩ := run_allocateVirtual T fuel heapFuel
    sizeofThreadList (s := ⟨s.mem, { s.globals with threadMutex := 1 }⟩)
    h.frames h.aligned (by rw [hround]; omega)
  have hstate := hg.state
  rw [hround] at hstate
  have hne := R.addr_ne_zero h.frames.used_le
  have hnode : listNode R used 0 = R.addr used := rfl
  let g : ProcessGlobals (KernelGlobals τ) :=
    { s.globals with
      threadMutex := 1
      memory := setFrames s.globals.memory t.globals }
  refine ⟨⟨t.mem, { g with
    threadMutex := 0
    threadHead := R.addr used
    threadList := Function.update s.globals.threadList (R.addr used)
      ⟨thread, 0⟩ }⟩, ?_, rfl, ⟨h.heap.freeList, h.heap.mutex⟩, hstate,
    ⟨⟨rfl, hne, ?_⟩, ?_⟩⟩
  · rw [addThreadToList, lockThreads,
      run_bind_of_ok (run_lock_of_free h.threadMutex), EStateM.run_bind,
      EStateM.run_get]
    simp only [if_pos h.threadHead]
    rw [run_bind_of_ok halloc]
    simp only [EStateM.run_bind, run_modifyGlobals, unlockThreads, run_unlock,
      ProcessGlobals.modifyNode, Function.update_self, Function.update_idem]
    rfl
  · simp [hnode, Chain]
  · simp [hnode]

/-- The second thread: its node is the first block of the heap. -/
theorem heapServed_first
    {s : Machine 64 (ProcessGlobals (KernelGlobals τ))} {ts : List Addr}
    (hmutex : s.globals.threadMutex = 0)
    (hheap : HeapUntouched s.globals.memory)
    (hs : BumpState R (frameMachine ⟨s.mem, s.globals.memory⟩) (used + 4096))
    (hmod : used % 4096 = 0)
    (hroom : used + 4096 + poolBytes.toNat ≤ R.length.toNat)
    (hlists : ListsThreads s.globals ts [listNode R used 0]) (thread : Addr) :
    ∃ s', (addThreadToList (kernelMemory T fuel (heapFuel + 6)) (walkFuel + 4)
        thread).run s = .ok () s' ∧
      HeapServed R used s' 1 (ts ++ [thread]) ∧
      PoolPointers (R.addr (used + 4096)) := by
  have hsize : poolBytes.toNat = 12779520 := by decide
  have hframes : AllocState R s.mem s.globals.memory.frames.frames.addressSizeHT
      (frameMachine ⟨s.mem, s.globals.memory⟩) (used + 4096) := Or.inr hs
  obtain ⟨t, hmalloc, hmutex', hlist, hserved, hptr⟩ :=
    run_mallocx_node_first T fuel heapFuel (s := ⟨s.mem, s.globals.memory⟩) hheap
      hframes (by omega) hroom
  rw [nodeBlock_eq R used (by decide)] at hmalloc
  have hrun := run_addThreadToList
    (M := kernelMemory T fuel (heapFuel + 6)) [] thread hmutex
    hlists.chain (Nat.succ_pos (walkFuel + 3)) hmalloc
  refine ⟨_, hrun, ⟨hmutex, hmutex', hlist, hserved, ?_⟩, hptr⟩
  have hnew : listNode R used (0 + 1) ≠ 0 :=
    listNode_ne_zero (by omega) (by decide)
  refine hlists.append [] (p := listNode R used (0 + 1)) hnew
    (fun hmem => ?_) rfl rfl
  have heq := listNode_inj (by omega) (by decide) (by decide)
    (List.mem_singleton.1 hmem)
  omega

/-- A further thread, with a node that is new up to the third block of the
heap. -/
theorem HeapServed.step
    {s : Machine 64 (ProcessGlobals (KernelGlobals τ))} {k : ℕ}
    {ts : List Addr} (h : HeapServed R used s (k + 1) ts)
    (hptr : PoolPointers (R.addr (used + 4096)))
    (hroom : used + 16384 ≤ R.length.toNat) (thread : Addr) :
    ∃ s' ts', (addThreadToList (kernelMemory T fuel (heapFuel + 6))
        (walkFuel + 4) thread).run s = .ok () s' ∧
      HeapServed R used s' (k + 2) ts' ∧
      (k + 2 ≤ 3 → ts' = ts ++ [thread]) := by
  obtain ⟨t, hmalloc, hmutex, hlist, hserved⟩ := run_mallocx_node_next T fuel
    heapFuel
    (s := ⟨s.mem, s.globals.memory⟩) h.mutex h.freeList hptr h.served
  have hlists := h.lists
  by_cases hk : k + 2 ≤ 3
  · have hmin : min (k + 1 + 1) 4 = (k + 1) + 1 := by omega
    have hmin' : min (k + 2 + 1) 4 = (k + 2) + 1 := by omega
    rw [nodeBlock_eq R used (by omega)] at hmalloc
    rw [hmin, List.range_succ, List.map_append, List.map_singleton] at hlists
    have hrun := run_addThreadToList
      (M := kernelMemory T fuel (heapFuel + 6)) _ thread h.threadMutex
      hlists.chain (by rw [List.length_map, List.length_range]; omega :
        _ < walkFuel + 4) hmalloc
    refine ⟨_, ts ++ [thread], hrun,
      ⟨h.threadMutex, hmutex, hlist, hserved, ?_⟩, fun _ => rfl⟩
    rw [hmin', List.range_succ, List.map_append, List.map_singleton,
      List.range_succ, List.map_append, List.map_singleton]
    have hnew : listNode R used (k + 1 + 1) ≠ 0 :=
      listNode_ne_zero hroom (by omega)
    refine hlists.append _ (p := listNode R used (k + 1 + 1)) hnew
      (fun hmem => ?_) rfl rfl
    rw [← List.map_singleton, ← List.map_append, ← List.range_succ,
      List.mem_map] at hmem
    obtain ⟨i, hi, heq⟩ := hmem
    have hi' := List.mem_range.1 hi
    have := listNode_inj hroom (by omega) (by omega) heq
    omega
  · have hmin : min (k + 1 + 1) 4 = 3 + 1 := by omega
    have hmin' : min (k + 2 + 1) 4 = 3 + 1 := by omega
    obtain ⟨j, rfl⟩ : ∃ j, k = j + 2 := ⟨k - 2, by omega⟩
    have hblock : nodeBlock (R.addr (used + 4096)) (j + 2 + 1) =
        listNode R used 3 := nodeBlock_eq R used (k := 2) (by decide)
    rw [hblock] at hmalloc
    rw [hmin, List.range_succ, List.map_append, List.map_singleton] at hlists
    have hrun := run_addThreadToList
      (M := kernelMemory T fuel (heapFuel + 6)) _ thread h.threadMutex
      hlists.chain (by rw [List.length_map, List.length_range]; omega :
        _ < walkFuel + 4) hmalloc
    refine ⟨_, ts.dropLast ++ [thread], hrun,
      ⟨h.threadMutex, hmutex, hlist, hserved, ?_⟩, fun h3 => absurd h3 hk⟩
    rw [hmin', List.range_succ, List.map_append, List.map_singleton]
    exact hlists.replace rfl rfl

theorem HeapServed.run
    {s : Machine 64 (ProcessGlobals (KernelGlobals τ))} {k : ℕ}
    {ts : List Addr} (h : HeapServed R used s (k + 1) ts)
    (hptr : PoolPointers (R.addr (used + 4096)))
    (hroom : used + 16384 ≤ R.length.toNat) (rest : List Addr) :
    ∃ s' ts', (addThreads (kernelMemory T fuel (heapFuel + 6)) (walkFuel + 4)
        rest).run s = .ok () s' ∧
      HeapServed R used s' (k + 1 + rest.length) ts' ∧
      (k + 1 + rest.length ≤ 3 → ts' = ts ++ rest) := by
  induction rest generalizing s k ts with
  | nil => exact ⟨s, ts, rfl, h, fun _ => (List.append_nil ts).symm⟩
  | cons t rest ih =>
      obtain ⟨s₁, ts₁, hrun₁, h₁, hts₁⟩ := h.step T fuel heapFuel
        walkFuel hptr hroom t
      obtain ⟨s₂, ts₂, hrun₂, h₂, hts₂⟩ := ih h₁
      have hlen : k + 1 + (t :: rest).length = k + 1 + 1 + rest.length := by
        rw [List.length_cons]
        omega
      refine ⟨s₂, ts₂, ?_, hlen ▸ h₂, fun hle => ?_⟩
      · rw [addThreads, run_bind_of_ok hrun₁, hrun₂]
      · rw [hts₂ (by omega), hts₁ (by omega), List.append_assoc,
          List.singleton_append]

theorem ListsThreads.length_eq {α : Type} {g : ProcessGlobals α}
    {ts ts' nodes : List Addr} (h : ListsThreads g ts nodes)
    (h' : CarriesThreads g ts') : ts'.length = nodes.length := by
  obtain ⟨nodes', hchain, hmap⟩ := h'
  rw [h.chain.unique hchain, ← hmap, List.length_map]

/-- The list after all the threads: it has at most four nodes. -/
theorem run_addThreads {s : Machine 64 (ProcessGlobals (KernelGlobals τ))}
    (h : NoThreads R mem table s used) (ts : List Addr) :
    ∃ s' ts' nodes, (addThreads (kernelMemory T fuel (heapFuel + 6))
        (walkFuel + 4) ts).run s = .ok () s' ∧
      ListsThreads s'.globals ts' nodes ∧ nodes.length = min ts.length 4 ∧
      (ts.length ≤ 4 → ts' = ts) := by
  have hsize : poolBytes.toNat = 12779520 := by decide
  have hroom := h.room
  match ts with
  | [] => exact ⟨s, [], [], rfl, ⟨h.threadHead, rfl⟩, rfl, fun _ => rfl⟩
  | [t] =>
      obtain ⟨s₁, hrun, -, -, -, hlists⟩ := run_addThreadToList_first T fuel
        (heapFuel + 6) (walkFuel + 4) h t
      refine ⟨s₁, [t], _, ?_, hlists, rfl, fun _ => rfl⟩
      rw [addThreads, run_bind_of_ok hrun]
      rfl
  | t :: u :: rest =>
      obtain ⟨s₁, hrun₁, hmutex, hheap, hbump, hlists⟩ :=
        run_addThreadToList_first T fuel (heapFuel + 6) (walkFuel + 4) h t
      obtain ⟨s₂, hrun₂, hserved, hptr⟩ := heapServed_first T fuel
        heapFuel walkFuel hmutex hheap hbump h.aligned hroom hlists u
      obtain ⟨s₃, ts₃, hrun₃, h₃, hts₃⟩ := hserved.run T fuel heapFuel
        walkFuel hptr (by omega) rest
      refine ⟨s₃, ts₃, _, ?_, h₃.lists, ?_, fun hle => ?_⟩
      · rw [addThreads, run_bind_of_ok hrun₁, addThreads,
          run_bind_of_ok hrun₂, hrun₃]
      · rw [List.length_map, List.length_range, List.length_cons,
          List.length_cons]
        omega
      · rw [List.length_cons, List.length_cons] at hle
        rw [hts₃ (by omega)]
        rfl

/-- The list is right exactly for up to four threads. -/
theorem carriesThreads_iff
    {s : Machine 64 (ProcessGlobals (KernelGlobals τ))}
    (h : NoThreads R mem table s used) (ts : List Addr) :
    ∃ s', (addThreads (kernelMemory T fuel (heapFuel + 6)) (walkFuel + 4)
        ts).run s = .ok () s' ∧
      (CarriesThreads s'.globals ts ↔ ts.length ≤ 4) := by
  obtain ⟨s', ts', nodes, hrun, hlists, hlen, hts⟩ := run_addThreads T fuel
    heapFuel walkFuel h ts
  refine ⟨s', hrun, fun hcarries => ?_, fun hle => ⟨nodes, hts hle ▸ hlists⟩⟩
  have heq := hlists.length_eq hcarries
  omega

end

theorem noThreads_freshKernel :
    NoThreads largeRegion (fun _ => 0) HashTable.zero freshKernel 0 :=
  ⟨rfl, rfl, ⟨rfl, rfl⟩, Or.inl ⟨rfl, rfl⟩, rfl, by decide⟩

/-- Four threads make a list of four. -/
theorem carriesThreads_iff_freshKernel :
    ∃ s', (addThreads (kernelMemory addressSizeTable 0 6) 4
        [0x1000, 0x2000, 0x3000, 0x4000]).run freshKernel = .ok () s' ∧
      CarriesThreads s'.globals [0x1000, 0x2000, 0x3000, 0x4000] := by
  obtain ⟨s', hrun, hiff⟩ := carriesThreads_iff addressSizeTable 0
    0 0 noThreads_freshKernel [0x1000, 0x2000, 0x3000, 0x4000]
  exact ⟨s', hrun, hiff.2 (by decide)⟩

/-- The fifth thread takes the place of the fourth one. -/
theorem exists_not_carriesThreads :
    ∃ s', (addThreads (kernelMemory addressSizeTable 0 6) 4
        [0x1000, 0x2000, 0x3000, 0x4000, 0x5000]).run freshKernel =
          .ok () s' ∧
      ¬ CarriesThreads s'.globals
        [0x1000, 0x2000, 0x3000, 0x4000, 0x5000] := by
  obtain ⟨s', ts', nodes, hrun, hlists, hlen, -⟩ := run_addThreads
    addressSizeTable 0 0 0 noThreads_freshKernel [0x1000, 0x2000, 0x3000, 0x4000, 0x5000]
  refine ⟨s', hrun, fun hcarries => ?_⟩
  have heq := hlists.length_eq hcarries
  rw [hlen] at heq
  exact absurd heq (by decide)

end OptimistOS
