import OptimistOS.Heap.Requests
import OptimistOS.Paging.NewPML4
import OptimistOS.Process.Creation

/-!
# The memory management of the kernel

The frame allocator, the paging code and the heap, put together as the
`MemoryManager` that `process.cpp` runs on.
-/

namespace OptimistOS

open ByteMemory ByteMemory.Code

abbrev KernelGlobals (τ : Type) := HeapGlobals (PagingGlobals (FrameGlobals τ))

def heapAllocator {τ : Type} (T : SizeTable τ) (fuel : ℕ) :
    FrameAllocator (PagingGlobals (FrameGlobals τ)) where
  allocateFrame size := callFrames (allocateFrame T fuel size)
  toVirtualAddr addr := callFrames (toVirtualAddr addr)

/-- The memory management; `fuel` bounds the walks over the free list and
`heapFuel` the search for a block of the heap. -/
def kernelMemory {τ : Type} (T : SizeTable τ) (fuel heapFuel : ℕ) :
    MemoryManager (KernelGlobals τ) where
  allocateFrame size := callHeapFrames (callFrames (allocateFrame T fuel size))
  toVirtualAddr addr := callHeapFrames (callFrames (toVirtualAddr addr))
  toPhysicalAddr addr := callHeapFrames (callFrames (toPhysicalAddr addr))
  mallocx := mallocx (heapAllocator T fuel) heapFuel
  map physicalAddr virtualAddr flags :=
    callHeapFrames (map (kernelAllocator T fuel) physicalAddr virtualAddr flags)
  newPML4 := callHeapFrames (newPML4 (kernelAllocator T fuel) toPhysicalAddr)
  kernelPML4 g := g.frames.kernelPML4

def frameMachine {τ : Type} (s : Machine 64 (KernelGlobals τ)) :
    FrameMachine τ :=
  ⟨s.mem, s.globals.frames.frames⟩

/-- No block was ever asked for. -/
structure HeapUntouched {τ : Type} (g : KernelGlobals τ) : Prop where
  freeList : g.freeList = 0
  mutex : g.mutex = 0

section

variable {τ : Type} {T : SizeTable τ} {fuel heapFuel : ℕ}

def setFrames (g : KernelGlobals τ) (f : FrameGlobals τ) : KernelGlobals τ :=
  { g with frames := { g.frames with frames := f } }

theorem run_callKernelFrames {β : Type} {x : Code 64 (FrameGlobals τ) β}
    {s : Machine 64 (KernelGlobals τ)} {a : β} {t : FrameMachine τ}
    (h : x.run (frameMachine s) = .ok a t) :
    (callHeapFrames (callFrames x)).run s =
      .ok a ⟨t.mem, setFrames s.globals t.globals⟩ :=
  run_zoom_of_ok (run_zoom_of_ok h)

theorem run_callKernelFrames_eq_ok {β : Type} {x : Code 64 (FrameGlobals τ) β}
    {s s' : Machine 64 (KernelGlobals τ)} {a : β}
    (h : (callHeapFrames (callFrames x)).run s = .ok a s') :
    ∃ t : FrameMachine τ, x.run (frameMachine s) = .ok a t ∧
      s' = ⟨t.mem, setFrames s.globals t.globals⟩ := by
  obtain ⟨u, hu, rfl⟩ := run_zoom_eq_ok.1 h
  obtain ⟨t, ht, rfl⟩ := run_zoom_eq_ok.1 hu
  exact ⟨t, ht, rfl⟩

variable {R : UsableRegion} {mem : Bytes} {table : τ} {used : ℕ}

theorem BumpState.allocState {s : FrameMachine τ} (h : BumpState R s used) :
    AllocState R s.mem s.globals.addressSizeHT s used :=
  Or.inr h

theorem BumpState.write {s : FrameMachine τ} {m' : Bytes} {o n : ℕ}
    (h : BumpState R s used) (hle : o + n ≤ used)
    (hm : AgreeOff (region (R.addr o) n) s.mem m') :
    BumpState R { s with mem := m' } used := by
  have hused := h.used_le
  have hlen := R.length_le
  have hkeep : ∀ f, fBlock.get m' (R.addr used) f =
      fBlock.get s.mem (R.addr used) f := fun f =>
    fBlock.get_congr hm _ f (R.disjoint_region hle (by omega : used + 40 ≤ _)).symm
  exact ⟨hused, h.head, h.freeBlock, (hkeep .next).trans h.next,
    (hkeep .size).trans h.size, h.info, h.copy, h.usedMemory⟩

theorem headers_subset (b : Addr) :
    headers b (POOL_ARRAY_SIZE - 1) ⊆ region b poolBytes.toNat := by
  rintro x ⟨j, hj, hx⟩
  have hj' : j < 3071 := hj
  have hsize : poolBytes.toNat = 12779520 := by decide
  exact region_subset_of_le b (i := 4096 * j) (n := 64) (by omega)
    poolBytes.isLt.le hx

section

variable (T fuel heapFuel)

theorem run_kernelFrame (size : Word) {s : Machine 64 (KernelGlobals τ)}
    (hs : AllocState R mem table (frameMachine s) used)
    (hmod : used % 4096 = 0)
    (hroom : used + (roundUpToPageBoundary size).toNat ≤ R.length.toNat) :
    ∃ t : FrameMachine τ,
      (callHeapFrames (callFrames (allocateFrame T fuel size))).run s =
        .ok (R.start + BitVec.ofNat 64 used)
          ⟨t.mem, setFrames s.globals t.globals⟩ ∧
      (callHeapFrames (callFrames (toVirtualAddr
        (R.start + BitVec.ofNat 64 used)))).run
          ⟨t.mem, setFrames s.globals t.globals⟩ =
        .ok (R.addr used) ⟨t.mem, setFrames s.globals t.globals⟩ ∧
      Granted R T (frameMachine s) t used (roundUpToPageBoundary size) := by
  obtain ⟨t, hrun, hg⟩ := allocateFrame_granted T fuel size hs hroom
  refine ⟨t, run_callKernelFrames hrun, ?_, hg⟩
  have hvirtual := run_toVirtualAddr_bump hg.state
    (R.start_add_ne hmod hs.used_le)
  rw [R.start_add] at hvirtual
  exact run_callKernelFrames (s := ⟨t.mem, setFrames s.globals t.globals⟩)
    hvirtual

theorem allocates_kernelFrame (size : Word) {s : Machine 64 (KernelGlobals τ)}
    (hs : AllocState R mem table (frameMachine s) used)
    (hmod : used % 4096 = 0)
    (hroom : used + (roundUpToPageBoundary size).toNat ≤ R.length.toNat) :
    ∃ t : FrameMachine τ,
      Allocates (kernelMemory T fuel heapFuel) size s (R.addr used)
        ⟨t.mem, setFrames s.globals t.globals⟩ ∧
      Granted R T (frameMachine s) t used (roundUpToPageBoundary size) := by
  obtain ⟨t, hframe, hvirtual, hg⟩ := run_kernelFrame T fuel size hs hmod hroom
  refine ⟨t, fun g hmem => ?_, hg⟩
  rw [allocateVirtual, kernelMemory,
    run_bind_of_ok (run_callMemory_of_ok hframe hmem)]
  exact run_callMemory_of_ok hvirtual (by rfl)

theorem run_allocateVirtual (size : Word)
    {s : Machine 64 (ProcessGlobals (KernelGlobals τ))}
    (hs : AllocState R mem table (frameMachine ⟨s.mem, s.globals.memory⟩) used)
    (hmod : used % 4096 = 0)
    (hroom : used + (roundUpToPageBoundary size).toNat ≤ R.length.toNat) :
    ∃ t : FrameMachine τ,
      (allocateVirtual (kernelMemory T fuel heapFuel) size).run s =
        .ok (R.addr used) ⟨t.mem, { s.globals with
          memory := setFrames s.globals.memory t.globals }⟩ ∧
      Granted R T (frameMachine ⟨s.mem, s.globals.memory⟩) t used
        (roundUpToPageBoundary size) := by
  obtain ⟨t, halloc, hg⟩ := allocates_kernelFrame T fuel heapFuel size hs hmod
    hroom
  exact ⟨t, halloc s.globals rfl, hg⟩

/-- The pool lies in the next frame. -/
theorem run_initNodes {s : Machine 64 (KernelGlobals τ)}
    (hs : AllocState R mem table (frameMachine s) used)
    (hmod : used % 4096 = 0)
    (hroom : used + poolBytes.toNat ≤ R.length.toNat) :
    ∃ s', (initNodes (heapAllocator T fuel)).run s = .ok () s' ∧
      s'.globals.freeList = R.addr used ∧
      s'.globals.mutex = s.globals.mutex ∧
      FreshPool s'.mem (R.addr used) ∧
      BumpState R (frameMachine s') (used + poolBytes.toNat) := by
  have hround : (roundUpToPageBoundary poolBytes).toNat = poolBytes.toNat := by
    decide
  obtain ⟨t, hframe, hvirtual, hg⟩ := run_kernelFrame T fuel
    poolBytes hs hmod (by rwa [hround])
  have hzero := hg.zero
  rw [hround] at hzero
  have hfits : (R.addr used).toNat + poolBytes.toNat < 2 ^ 64 := by
    have hwindow := R.window
    have hnat := R.toNat_addr hs.used_le
    rw [UsableRegion.base] at hnat
    omega
  obtain ⟨hpool, hagree⟩ := freshPool_initNodesLoop
    (R.addr_ne_zero hs.used_le) hfits hzero
  have hstate := hg.state
  rw [hround] at hstate
  have hbump := hstate.write (o := used) le_rfl
    (hagree.mono (headers_subset (R.addr used)))
  have hrun : (initNodes (heapAllocator T fuel)).run s =
      .ok () ⟨initNodesLoop (POOL_ARRAY_SIZE - 1) 0 t.mem (R.addr used),
        { setFrames s.globals t.globals with freeList := R.addr used }⟩ := by
    rw [initNodes, heapAllocator, run_bind_of_ok hframe,
      run_bind_of_ok hvirtual, EStateM.run_bind, run_modifyGlobals]
    exact run_modifyMem _ _
  generalize initNodesLoop (POOL_ARRAY_SIZE - 1) 0 t.mem (R.addr used) = m'
    at hrun hpool hbump
  exact ⟨_, hrun, rfl, rfl, hpool, hbump⟩

theorem run_mallocx_first (size : Word) {s : Machine 64 (KernelGlobals τ)}
    (hheap : HeapUntouched s.globals)
    (hs : AllocState R mem table (frameMachine s) used)
    (hmod : used % 4096 = 0)
    (hroom : used + poolBytes.toNat ≤ R.length.toNat) :
    ∃ s₁, s₁.globals.freeList = R.addr used ∧
      FreshPool s₁.mem (R.addr used) ∧
      BumpState R (frameMachine s₁) (used + poolBytes.toNat) ∧
      (mallocx (heapAllocator T fuel) heapFuel size).run s =
        (serveRequest (mallocLoop (blockSize size) heapFuel s₁.mem
          (R.addr used))).run s₁ := by
  obtain ⟨s₁, hrun, hlist, -, hpool, hbump⟩ := run_initNodes T fuel
    (s := ⟨s.mem, { s.globals with mutex := 1 }⟩) hs hmod hroom
  refine ⟨s₁, hlist, hpool, hbump, ?_⟩
  have hensure : (ensurePool (heapAllocator T fuel)).run
      ⟨s.mem, { s.globals with mutex := 1 }⟩ = .ok () s₁ := by
    rw [run_ensurePool_of_eq (s := ⟨s.mem, { s.globals with mutex := 1 }⟩)
      hheap.freeList, hrun]
  rw [run_mallocx hheap.mutex hensure, hlist]

end

theorem room_of_ensurePool {s s₁ : Machine 64 (KernelGlobals τ)} {u : Unit}
    (hlist : s.globals.freeList = 0)
    (hs : AllocState R mem table (frameMachine s) used)
    (h : (ensurePool (heapAllocator T fuel)).run s = .ok u s₁) :
    used + poolBytes.toNat ≤ R.length.toNat := by
  have hround : (roundUpToPageBoundary poolBytes).toNat = poolBytes.toNat := by
    decide
  rw [run_ensurePool_of_eq hlist, initNodes] at h
  obtain ⟨f, s₂, hframe, -⟩ := run_bind_eq_ok.1 h
  obtain ⟨t, hframe, -⟩ := run_callKernelFrames_eq_ok
    (x := allocateFrame T fuel poolBytes) hframe
  have hroom := (granted_of_allocateFrame T hs hframe).1
  rwa [hround] at hroom

theorem room_of_mallocx {size : Word} {s s' : Machine 64 (KernelGlobals τ)}
    {p : Addr} (hheap : HeapUntouched s.globals)
    (hs : AllocState R mem table (frameMachine s) used)
    (h : (mallocx (heapAllocator T fuel) heapFuel size).run s = .ok p s') :
    used + poolBytes.toNat ≤ R.length.toNat := by
  rw [mallocx, lockHeap, run_bind_of_ok (run_lock_of_free hheap.mutex)] at h
  obtain ⟨_, s₁, hpool, -⟩ := run_bind_eq_ok.1 h
  exact room_of_ensurePool
    (s := ⟨s.mem, { s.globals with mutex := 1 }⟩) hheap.freeList hs hpool

theorem mallocx_eq_zero {size : Word} {s s' : Machine 64 (KernelGlobals τ)}
    {p : Addr} (hheap : HeapUntouched s.globals)
    (hs : AllocState R mem table (frameMachine s) used)
    (hmod : used % 4096 = 0) (hsize : PAGE_SIZE < blockSize size)
    (hblocks : MAXIMUM_COALESCE_BLOCKS < blockSize size / PAGE_SIZE)
    (h : (mallocx (heapAllocator T fuel) heapFuel size).run s = .ok p s') :
    p = 0 := by
  obtain ⟨s₁, -, hpool, -, hrun⟩ := run_mallocx_first T fuel
    heapFuel size hheap hs hmod (room_of_mallocx hheap hs h)
  rw [hrun] at h
  cases hloop : mallocLoop (blockSize size) heapFuel s₁.mem (R.addr used) with
  | error e =>
      rw [hloop] at h
      exact absurd h (by simp [serveRequest])
  | ok x =>
      rw [hloop, hpool.search_refused hsize hblocks hloop,
        run_serveRequest_refused, EStateM.Result.ok.injEq] at h
      exact h.1.symm

theorem allocateVirtual_granted {size : Word}
    {s s' : Machine 64 (ProcessGlobals (KernelGlobals τ))} {p : Addr}
    (hs : AllocState R mem table (frameMachine ⟨s.mem, s.globals.memory⟩) used)
    (hmod : used % 4096 = 0)
    (h : (allocateVirtual (kernelMemory T fuel heapFuel) size).run s =
      .ok p s') :
    ∃ t : FrameMachine τ, p = R.addr used ∧
      s' = ⟨t.mem, { s.globals with
        memory := setFrames s.globals.memory t.globals }⟩ ∧
      Granted R T (frameMachine ⟨s.mem, s.globals.memory⟩) t used
        (roundUpToPageBoundary size) := by
  obtain ⟨f, s₁, hframe, -⟩ := run_bind_eq_ok.1 h
  obtain ⟨t, hframe, -⟩ := run_zoom_eq_ok.1 hframe
  obtain ⟨t, hframe, -⟩ := run_callKernelFrames_eq_ok
    (x := allocateFrame T fuel size) hframe
  have hroom := (granted_of_allocateFrame T hs hframe).1
  obtain ⟨t, hrun, hg⟩ := run_allocateVirtual T fuel heapFuel size hs hmod
    hroom
  rw [h, EStateM.Result.ok.injEq] at hrun
  exact ⟨t, hrun.1, hrun.2, hg⟩

end

def largeRegion : UsableRegion where
  start := 0x100000
  length := 0x1000000
  hhdmOffset := 0xffff800000000000
  start_ne := smallRegion.start_ne
  start_aligned := smallRegion.start_aligned
  length_aligned := by decide
  physical := by decide
  base_ne := smallRegion.base_ne
  window := by decide

/-- The kernel in `largeRegion` before anything was allocated, with one
processor. -/
def freshKernel :
    Machine 64 (ProcessGlobals (KernelGlobals HashTable)) where
  mem _ := 0
  globals :=
    { interrupts := true
      processMutex := 0
      threadMutex := 0
      processCount := 0
      threadCount := 0
      processHead := 0
      currentProcessInternal := 0
      threadHead := 0
      cpusStarted := 1
      cpuInformation := fun _ => 0xffff800000000000
      thread := fun _ => Thread.zero
      threadList := fun _ => ⟨0, 0⟩
      process := fun _ => ProcessRecord.zero
      processInternal := fun _ => ProcessInternal.zero
      memory :=
        { freeList := 0
          mutex := 0
          frames :=
            { PML4 := 0
              kernelPML4 := 0
              hhdmOffset := 0xffff800000000000
              frames := (bootMachine largeRegion (fun _ => 0)
                HashTable.zero).globals } } }

end OptimistOS
