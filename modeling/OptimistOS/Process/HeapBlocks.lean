import OptimistOS.Process.KernelMemory
import OptimistOS.Process.ProcessList

/-!
# Processes in the heap

The record of a process and the kernel stack of its thread are blocks of the
heap, and both need more than the four pages that the heap puts together. So
`mallocx` refuses them, and nobody tests its answer: the record of every process
lies at the null pointer, also the one of a call that then gives up because its
variable `threadInfo` is null.
-/

namespace OptimistOS

open ByteMemory ByteMemory.Code Transition

/-- A call of `createProcessFromRoutine` with the block that `setupProcessInfo`
has got for the record. -/
structure CreationCall extends Created where
  block : Addr

def Created.kernelStack {α : Type} (c : Created) (g : ProcessGlobals α) : Addr :=
  (g.thread c.locals.thread).kernelStack - THREAD_STACK_SIZE

/-- The bytes of the record and, if the call has created a thread, of its kernel
stack. -/
def CreationCall.blocks {α : Type} (c : CreationCall) (g : ProcessGlobals α) :
    Set Addr :=
  region c.block sizeofProcessInternal.toNat ∪
    {a | c.processInfo ≠ 0 ∧
      a ∈ region (c.kernelStack g) THREAD_STACK_SIZE.toNat}

def InPool {α : Type} (g : HeapGlobals α) (p : Addr) (n : Word) : Prop :=
  p ≠ 0 ∧ region p n.toNat ⊆ region g.freeList poolBytes.toNat

/-- The records and kernel stacks that the calls `cs` have got lie in the pool
and do not overlap. -/
structure BlocksApart {α : Type} (g : ProcessGlobals (HeapGlobals α))
    (cs : List CreationCall) : Prop where
  record : ∀ c ∈ cs, InPool g.memory c.block sizeofProcessInternal
  kernelStack : ∀ c ∈ cs, c.processInfo ≠ 0 →
    InPool g.memory (c.kernelStack g) THREAD_STACK_SIZE
  apart : cs.Pairwise fun c d => Disjoint (c.blocks g) (d.blocks g)

section

variable {α : Type} (M : MemoryManager α)

def requestRecord : Code 64 (ProcessGlobals α) Addr := do
  modifyGlobals fun g => { g with interrupts := false }
  lock (fun g => g.processMutex) fun v g => { g with processMutex := v }
  ensureProcesses M
  let processInfo ← allocateVirtual M sizeofProcess
  modifyGlobals fun g => g.modifyProcess processInfo fun _ => .zero
  setupProcessInfo M

/-- A call that returns, with the block for the record. -/
def CreationStep (fuel : ℕ) (s : Machine 64 (ProcessGlobals α))
    (c : CreationCall) (s' : Machine 64 (ProcessGlobals α)) : Prop :=
  CreateStep M fuel s c.toCreated s' ∧
    ∃ t, (requestRecord M).run s = .ok c.block t

variable {M}

theorem CreateStep.exists_creationStep {fuel : ℕ} {c : Created}
    {s s' : Machine 64 (ProcessGlobals α)} (h : CreateStep M fuel s c s') :
    ∃ block, CreationStep M fuel s ⟨c, block⟩ s' := by
  obtain ⟨hmutex, s₁, processInfo, s₂, process, s₃, hensure, hinfo, hprocess,
    -⟩ := createProcessFromRoutine_eq_ok h.1
  refine ⟨process, h, s₃, ?_⟩
  have hlock : (lock (fun g : ProcessGlobals α => g.processMutex)
      fun v g => { g with processMutex := v }).run
        ⟨s.mem, { s.globals with interrupts := false }⟩ = .ok () _ :=
    run_lock_eq_ok.2 ⟨hmutex, rfl⟩
  rw [requestRecord, run_bind_of_ok (run_modifyGlobals _ s),
    run_bind_of_ok hlock, run_bind_of_ok hensure,
    run_bind_of_ok hinfo, run_bind_of_ok (run_modifyGlobals _ s₂), hprocess]

end

section

variable {τ : Type} {T : SizeTable τ} {fuel heapFuel walkFuel : ℕ}
  {R : UsableRegion} {mem : Bytes} {table : τ} {used : ℕ}

/-- Nothing was asked of the heap, and the frame allocator has only handed out
frames. -/
structure HeapUnused (R : UsableRegion) (mem : Bytes) (table : τ)
    (s : Machine 64 (ProcessGlobals (KernelGlobals τ))) (used : ℕ) : Prop where
  heap : HeapUntouched s.globals.memory
  frames : AllocState R mem table (frameMachine ⟨s.mem, s.globals.memory⟩) used
  aligned : used % 4096 = 0

theorem HeapUnused.allocateVirtual {size : Word}
    {s s' : Machine 64 (ProcessGlobals (KernelGlobals τ))} {p : Addr}
    (h : HeapUnused R mem table s used)
    (hrun : (allocateVirtual (kernelMemory T fuel heapFuel) size).run s =
      .ok p s') :
    p ≠ 0 ∧ HeapUnused R mem table s'
      (used + (roundUpToPageBoundary size).toNat) := by
  obtain ⟨t, rfl, rfl, hg⟩ := allocateVirtual_granted h.frames h.aligned hrun
  have hmod := roundUpToPageBoundary_mod size
  have haligned := h.aligned
  exact ⟨R.addr_ne_zero h.frames.used_le, ⟨h.heap.freeList, h.heap.mutex⟩,
    Or.inr hg.state, by omega⟩

theorem HeapUnused.ensureProcesses
    {s s' : Machine 64 (ProcessGlobals (KernelGlobals τ))}
    (h : HeapUnused R mem table s used)
    (hrun : (ensureProcesses (kernelMemory T fuel heapFuel)).run s =
      .ok () s') : ∃ used', HeapUnused R mem table s' used' := by
  rcases ensureProcesses_eq_ok hrun with ⟨-, rfl⟩ | ⟨-, p, t, hp, rfl⟩
  · exact ⟨used, h⟩
  · obtain ⟨-, ht⟩ := h.allocateVirtual hp
    exact ⟨_, ht.heap, ht.frames, ht.aligned⟩

theorem HeapUnused.setupProcessInfo
    {s s' : Machine 64 (ProcessGlobals (KernelGlobals τ))} {process : Addr}
    (h : HeapUnused R mem table s used)
    (hrun : (setupProcessInfo (kernelMemory T fuel heapFuel)).run s =
      .ok process s') : process = 0 := by
  obtain ⟨t, ht, -⟩ := setupProcessInfo_eq_ok.1 hrun
  obtain ⟨u, hu, -⟩ := run_callMemory_eq_ok.1 ht
  exact mallocx_eq_zero h.heap h.frames h.aligned (by decide) (by decide) hu

theorem HeapUnused.requestRecord
    {s s' : Machine 64 (ProcessGlobals (KernelGlobals τ))} {process : Addr}
    (h : HeapUnused R mem table s used)
    (hrun : (requestRecord (kernelMemory T fuel heapFuel)).run s =
      .ok process s') : process = 0 := by
  rw [OptimistOS.requestRecord, EStateM.run_bind, run_modifyGlobals] at hrun
  obtain ⟨_, t, hlock, hrun⟩ := run_bind_eq_ok.1 hrun
  obtain ⟨-, rfl⟩ := run_lock_eq_ok.1 hlock
  obtain ⟨_, s₁, hensure, hrun⟩ := run_bind_eq_ok.1 hrun
  obtain ⟨processInfo, s₂, hinfo, hrun⟩ := run_bind_eq_ok.1 hrun
  rw [EStateM.run_bind, run_modifyGlobals] at hrun
  obtain ⟨used₁, h₁⟩ := HeapUnused.ensureProcesses
    (s := ⟨s.mem, { s.globals with interrupts := false, processMutex := 1 }⟩)
    ⟨h.heap, h.frames, h.aligned⟩ hensure
  obtain ⟨-, h₂⟩ := h₁.allocateVirtual hinfo
  exact HeapUnused.setupProcessInfo
    (s := ⟨s₂.mem, s₂.globals.modifyProcess processInfo fun _ => .zero⟩)
    ⟨h₂.heap, h₂.frames, h₂.aligned⟩ hrun

theorem creationSteps_first
    {s₀ s : Machine 64 (ProcessGlobals (KernelGlobals τ))}
    {cs : List CreationCall} (h : HeapUnused R mem table s₀ used)
    (hrun : Run (CreationStep (kernelMemory T fuel heapFuel) walkFuel) s₀ cs s)
    (hne : cs ≠ []) : ∃ c ∈ cs, c.block = 0 := by
  cases cs with
  | nil => exact absurd rfl hne
  | cons c cs =>
      obtain ⟨u, ⟨-, t, hblock⟩, -⟩ := hrun.uncons
      exact ⟨c, List.mem_cons_self, h.requestRecord hblock⟩

/-- The blocks of the processes are right exactly in a run without calls. -/
theorem blocksApart_iff
    {s₀ s : Machine 64 (ProcessGlobals (KernelGlobals τ))}
    {cs : List CreationCall} (h : HeapUnused R mem table s₀ used)
    (hrun : Run (CreationStep (kernelMemory T fuel heapFuel) walkFuel) s₀ cs
      s) :
    BlocksApart s.globals cs ↔ cs = [] := by
  constructor
  · intro hapart
    by_contra hne
    obtain ⟨c, hc, hzero⟩ := creationSteps_first h hrun hne
    exact (hapart.record c hc).1 hzero
  · rintro rfl
    exact ⟨by simp, by simp, List.Pairwise.nil⟩

/-- The heap with its pool set up and no block handed out. -/
structure PoolReady (R : UsableRegion) (s : Machine 64 (KernelGlobals τ))
    (used : ℕ) : Prop where
  mutex : s.globals.mutex = 0
  ne_zero : s.globals.freeList ≠ 0
  next_ne : s.globals.freeList + PAGE_SIZE ≠ 0
  page : FreshPage s.mem s.globals.freeList
  below : ∃ o, s.globals.freeList = R.addr o ∧ o + 4096 ≤ used
  frames : BumpState R (frameMachine s) used
  aligned : used % 4096 = 0

section

variable (T fuel heapFuel)

theorem run_mallocx_refused (size : Word) {s : Machine 64 (KernelGlobals τ)}
    (hheap : HeapUntouched s.globals)
    (hs : AllocState R mem table (frameMachine s) used)
    (hmod : used % 4096 = 0) (hroom : used + poolBytes.toNat ≤ R.length.toNat)
    (hsize : PAGE_SIZE < blockSize size)
    (hblocks : MAXIMUM_COALESCE_BLOCKS < blockSize size / PAGE_SIZE) :
    ∃ t : Machine 64 (KernelGlobals τ),
      (mallocx (heapAllocator T fuel) (heapFuel + 1) size).run s = .ok 0 t ∧
      PoolReady R t (used + poolBytes.toNat) := by
  obtain ⟨s₁, hlist, hpool, hbump, hrun⟩ := run_mallocx_first T fuel
    (heapFuel + 1) size hheap hs hmod hroom
  have hpage : FreshPage s₁.mem (R.addr used) :=
    page_zero (R.addr used) ▸ hpool.page 0 (by decide)
  have hpoolSize : poolBytes.toNat = 12779520 := by decide
  rw [hpage.search_refused hpool.ne_zero hpool.pointers.second_ne hsize
    hblocks, run_serveRequest_refused] at hrun
  refine ⟨_, hrun, rfl, ?_, ?_, ?_, ⟨used, hlist, by omega⟩, hbump, by omega⟩
  · exact hlist ▸ hpool.ne_zero
  · exact hlist ▸ hpool.pointers.second_ne
  · exact hlist ▸ hpage

theorem PoolReady.mallocx_refused {s : Machine 64 (KernelGlobals τ)}
    (h : PoolReady R s used) (size : Word) (hsize : PAGE_SIZE < blockSize size)
    (hblocks : MAXIMUM_COALESCE_BLOCKS < blockSize size / PAGE_SIZE) :
    (mallocx (heapAllocator T fuel) (heapFuel + 1) size).run s = .ok 0 s := by
  rw [run_mallocx h.mutex (run_ensurePool_of_ne h.ne_zero),
    h.page.search_refused h.ne_zero h.next_ne hsize hblocks,
    run_serveRequest_refused, ← h.mutex]

theorem PoolReady.allocates {s : Machine 64 (KernelGlobals τ)}
    (h : PoolReady R s used) (size : Word)
    (hroom : used + (roundUpToPageBoundary size).toNat ≤ R.length.toNat) :
    ∃ t : Machine 64 (KernelGlobals τ),
      Allocates (kernelMemory T fuel heapFuel) size s (R.addr used) t ∧
      PoolReady R t (used + (roundUpToPageBoundary size).toNat) := by
  obtain ⟨t, hrun, hg⟩ := allocates_kernelFrame T fuel heapFuel size
    h.frames.allocState h.aligned hroom
  obtain ⟨o, ho, hle⟩ := h.below
  have hmod := roundUpToPageBoundary_mod size
  have haligned := h.aligned
  have hlen := R.length_le
  have hpage : FreshPage t.mem s.globals.freeList := by
    refine h.page.congr hg.frame ?_
    rw [ho]
    exact R.disjoint_region (show o + 64 ≤ used by omega) (by omega)
  exact ⟨_, hrun, h.mutex, h.ne_zero, h.next_ne, hpage, ⟨o, ho, by omega⟩,
    hg.state, by omega⟩

/-- With room for the frames and the pool every call of the memory management
for a kernel thread returns, with the null pointer for the record. -/
theorem HeapUnused.allocatesProcess
    {s : Machine 64 (ProcessGlobals (KernelGlobals τ))} {cpuID : Word}
    (h : HeapUnused R mem table s used)
    (hbefore : BeforeProcesses s.globals cpuID)
    (hroom : used + 49152 + poolBytes.toNat ≤ R.length.toNat)
    (walkFuel : ℕ) (thread : Addr) :
    ∃ t, AllocatesProcess (kernelMemory T fuel (heapFuel + 1)) walkFuel false
        thread s (R.addr used) (R.addr (used + 4096)) 0 t ∧
      PoolReady R t (used + 49152 + poolBytes.toNat) := by
  have hpool : poolBytes.toNat = 12779520 := by decide
  have hhead : (roundUpToPageBoundary 8).toNat = 4096 := by decide
  have hinfo : (roundUpToPageBoundary sizeofProcess).toNat = 20480 := by decide
  have hstack : (roundUpToPageBoundary THREAD_STACK_SIZE).toNat = 20480 := by
    decide
  have hnode : (roundUpToPageBoundary sizeofThreadList).toNat = 4096 := by
    decide
  have haligned := h.aligned
  -- The frames for the head and for `processInfo` come before the pool.
  obtain ⟨t₁, h₁, hg₁⟩ := allocates_kernelFrame T fuel (heapFuel + 1) 8 h.frames
    haligned (by omega)
  have hs₁ := hg₁.state
  rw [hhead] at hs₁
  obtain ⟨t₂, h₂, hg₂⟩ := allocates_kernelFrame T fuel (heapFuel + 1)
    (s := ⟨t₁.mem, setFrames s.globals.memory t₁.globals⟩) sizeofProcess
    hs₁.allocState (by omega) (by omega)
  have hs₂ := hg₂.state
  rw [hinfo] at hs₂
  obtain ⟨t₃, h₃, hr₃⟩ := run_mallocx_refused T fuel heapFuel
    sizeofProcessInternal (s := ⟨t₂.mem, setFrames s.globals.memory t₂.globals⟩)
    ⟨h.heap.freeList, h.heap.mutex⟩ hs₂.allocState (by omega) (by omega)
    (by decide) (by decide)
  obtain ⟨t₄, h₄, hr₄⟩ := hr₃.allocates T fuel (heapFuel + 1) THREAD_STACK_SIZE
    (by omega)
  have h₅ := hr₄.mallocx_refused T fuel heapFuel THREAD_STACK_SIZE (by decide)
    (by decide)
  obtain ⟨t₆, h₆, hr₆⟩ := hr₄.allocates T fuel (heapFuel + 1) sizeofThreadList
    (by omega)
  have hused : used + 4096 + 20480 + poolBytes.toNat + 20480 + 4096 =
      used + 49152 + poolBytes.toNat := by omega
  rw [hstack, hnode, hused] at hr₆
  refine ⟨t₆, ⟨⟨_, _, t₃, t₄, t₆, _, Or.inl ⟨hbefore.processHead, h₁⟩, h₂, h₃,
    preparesThread_kernel h₄ h₅,
    addsNode_of_eq hbefore.threadMutex hbefore.threadHead h₆,
    givesPageMap_kernel _ t₆⟩, ?_, ?_, ?_⟩, hr₆⟩
  · exact R.addr_ne_zero h.frames.used_le
  · exact R.addr_ne_zero (by omega)
  · exact (R.addr_ne_zero h.frames.used_le).symm

end

end

theorem heapUnused_freshKernel :
    HeapUnused largeRegion (fun _ => 0) HashTable.zero freshKernel 0 :=
  ⟨⟨rfl, rfl⟩, Or.inl ⟨rfl, rfl⟩, rfl⟩

theorem exists_creationStep_freshKernel :
    ∃ c s, c.locals = freeLocals ∧ c.processInfo ≠ 0 ∧
      Run (CreationStep (kernelMemory addressSizeTable 0 1) 1) freshKernel [c]
        s := by
  have hbefore : BeforeProcesses freshKernel.globals kernelRoutine.cpuID :=
    ⟨rfl, rfl, rfl, rfl, rfl, by decide⟩
  obtain ⟨t, hcalls, -⟩ := heapUnused_freshKernel.allocatesProcess
    addressSizeTable 0 0 hbefore (by decide) 1 freeLocals.thread
  obtain ⟨g, hrun, -⟩ := exists_run_createProcessFromRoutine _ freeLocals _
    hbefore.canCreate (by decide) hcalls
  obtain ⟨s, hs⟩ : ∃ s, (⟨t.mem, g⟩ :
      Machine 64 (ProcessGlobals (KernelGlobals HashTable))) = s := ⟨_, rfl⟩
  rw [hs] at hrun
  have hstep : CreateStep (kernelMemory addressSizeTable 0 1) 1 freshKernel
      ⟨freeLocals, kernelRoutine, largeRegion.addr (0 + 4096),
        s.globals.currentProcessInternal⟩ s := ⟨hrun, rfl⟩
  obtain ⟨block, hcreation⟩ := hstep.exists_creationStep
  exact ⟨_, s, rfl, hcalls.info_ne, .single hcreation⟩

theorem blocksApart_iff_freshKernel :
    ∃ c s, Run (CreationStep (kernelMemory addressSizeTable 0 1) 1) freshKernel
        [c] s ∧
      (BlocksApart s.globals [c] ↔ [c] = []) := by
  obtain ⟨c, s, -, -, hrun⟩ := exists_creationStep_freshKernel
  exact ⟨c, s, hrun, blocksApart_iff heapUnused_freshKernel hrun⟩

/-- The first process has its record at the null pointer. -/
theorem exists_not_blocksApart :
    ∃ c s, c.processInfo ≠ 0 ∧
      Run (CreationStep (kernelMemory addressSizeTable 0 1) 1) freshKernel [c]
        s ∧
      c.block = 0 ∧ ¬ BlocksApart s.globals [c] := by
  obtain ⟨c, s, -, hp, hrun⟩ := exists_creationStep_freshKernel
  obtain ⟨d, hd, hzero⟩ := creationSteps_first heapUnused_freshKernel hrun
    (by simp)
  obtain rfl := List.mem_singleton.1 hd
  exact ⟨d, s, hp, hrun, hzero, fun hapart =>
    (hapart.record d hd).1 hzero⟩

end OptimistOS
