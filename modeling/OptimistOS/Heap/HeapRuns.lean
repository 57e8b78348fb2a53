import OptimistOS.Foundation.Run
import OptimistOS.Heap.Calls
import OptimistOS.Process.KernelMemory

/-!
# Runs of the heap

A run of the heap is a sequence of calls of `mallocx` and `freex` that return,
from a kernel on that nothing was asked of its heap. Next to the machine the
state has the blocks that are handed out. `HeapInv` is the invariant of the runs
in which blocks that are handed out are given back, and several pages are only
merged when none of them was split.
-/

namespace OptimistOS

open ByteMemory ByteMemory.Code Transition

inductive HeapCall
  | malloc (size : Word)
  | free (block : Addr)
  deriving DecidableEq, Repr

/-- The machine with the blocks that are handed out. -/
structure HeapState (τ : Type) where
  machine : Machine 64 (KernelGlobals τ)
  live : Set Addr

def HeapStep {τ : Type} (T : SizeTable τ) (fuel : ℕ) (s : HeapState τ) :
    HeapCall → HeapState τ → Prop
  | .malloc size, s' => ∃ heapFuel p,
      (mallocx (heapAllocator T fuel) heapFuel size).run s.machine =
        .ok p s'.machine ∧
      s'.live = liveAfter s.live p
  | .free block, s' =>
      (freex block).run s.machine = .ok () s'.machine ∧
        s'.live = s.live \ {block}

theorem heapStep_malloc {τ : Type} {T : SizeTable τ} {fuel heapFuel : ℕ}
    {t t' : Machine 64 (KernelGlobals τ)} {size : Word} {p : Addr}
    (live : Set Addr)
    (h : (mallocx (heapAllocator T fuel) heapFuel size).run t = .ok p t') :
    HeapStep T fuel ⟨t, live⟩ (.malloc size) ⟨t', liveAfter live p⟩ :=
  ⟨heapFuel, p, h, rfl⟩

theorem heapStep_free {τ : Type} {T : SizeTable τ} {fuel : ℕ}
    {t t' : Machine 64 (KernelGlobals τ)} {block : Addr} (live : Set Addr)
    (h : (freex block).run t = .ok () t') :
    HeapStep T fuel ⟨t, live⟩ (.free block) ⟨t', live \ {block}⟩ :=
  ⟨h, rfl⟩

/-- The search of a request starts in the machine `s₁`. -/
def SearchStart {τ : Type} (T : SizeTable τ) (fuel : ℕ)
    (s s₁ : Machine 64 (KernelGlobals τ)) : Prop :=
  (ensurePool (heapAllocator T fuel)).run
    ⟨s.mem, { s.globals with mutex := 1 }⟩ = .ok () s₁

/-- The splits of a request are ones that `P` allows, and it only merges whole
pages; a block that is given back is one that is handed out. -/
def CallMeets {τ : Type} (T : SizeTable τ) (fuel : ℕ)
    (P : Set Addr → Bytes → Addr → Prop) (s : HeapState τ) : HeapCall → Prop
  | .malloc size => ∀ s₁, SearchStart T fuel s.machine s₁ →
      SplitsOnly (P s.live) (blockSize size) s₁.mem s₁.globals.freeList ∧
        MergesOnly WholePages (blockSize size) s₁.mem s₁.globals.freeList
  | .free block => block ∈ s.live

/-- Nothing was asked of the heap. -/
structure HeapBooted {τ : Type} (R : UsableRegion) (mem : Bytes) (table : τ)
    (used : ℕ) (s : HeapState τ) : Prop where
  heap : HeapUntouched s.machine.globals
  frames : AllocState R mem table (frameMachine s.machine) used
  aligned : used % 4096 = 0
  live : s.live = ∅

/-- Nothing was asked of the heap, or its pool is a list of segments with the
property `E`. -/
def HeapInv {τ : Type} (R : UsableRegion) (mem : Bytes) (table : τ) (used : ℕ)
    (E : List Segment → Prop) (s : HeapState τ) : Prop :=
  HeapBooted R mem table used s ∨
    ∃ segs lastLive, E segs ∧ PoolState s.machine s.live segs lastLive

theorem mallocx_eq_ok {α : Type} {A : FrameAllocator α} {fuel : ℕ} {size : Word}
    {s s' : Machine 64 (HeapGlobals α)} {p : Addr}
    (h : (mallocx A fuel size).run s = .ok p s') :
    ∃ s₁ result m, (ensurePool A).run
        ⟨s.mem, { s.globals with mutex := 1 }⟩ = .ok () s₁ ∧
      mallocLoop (blockSize size) fuel s₁.mem s₁.globals.freeList =
        .ok (result, m) ∧
      (serveRequest (.ok (result, m))).run s₁ = .ok p s' := by
  rw [mallocx] at h
  obtain ⟨_, s₀, hlock, h⟩ := run_bind_eq_ok.1 h
  obtain ⟨hmutex, rfl⟩ := run_lock_eq_ok.1 hlock
  obtain ⟨_, s₁, hpool, h⟩ := run_bind_eq_ok.1 h
  rw [EStateM.run_bind, EStateM.run_get] at h
  dsimp only at h
  cases hloop : mallocLoop (blockSize size) fuel s₁.mem
      s₁.globals.freeList with
  | error e =>
      rw [hloop] at h
      exact absurd h (by simp [serveRequest])
  | ok x =>
      rw [hloop] at h
      exact ⟨s₁, x.1, x.2, hpool, hloop, h⟩

section

variable {τ : Type} {T : SizeTable τ} {fuel : ℕ} {R : UsableRegion} {mem : Bytes}
  {table : τ} {used : ℕ}

theorem SearchStart.eq {s s₁ : Machine 64 (KernelGlobals τ)}
    (h : SearchStart T fuel s s₁) (hne : s.globals.freeList ≠ 0) :
    s₁ = ⟨s.mem, { s.globals with mutex := 1 }⟩ :=
  (EStateM.Result.ok.inj (h.symm.trans (run_ensurePool_of_ne hne))).2

theorem HeapInv.searchStart {E : List Segment → Prop} {s : HeapState τ}
    {s₁ : Machine 64 (KernelGlobals τ)} (h : HeapInv R mem table used E s)
    (hfresh : E (List.replicate 3071 (.page false)))
    (hs₁ : SearchStart T fuel s.machine s₁) :
    ∃ segs lastLive, E segs ∧
      PoolState ⟨s₁.mem, { s₁.globals with mutex := 0 }⟩ s.live segs lastLive ∧
      (s.machine.globals.freeList ≠ 0 →
        PoolState s.machine s.live segs lastLive ∧
        s₁.globals.freeList = s.machine.globals.freeList) := by
  rcases h with hbooted | ⟨segs, lastLive, hE, hpool⟩
  · have hlist := hbooted.heap.freeList
    have hroom := room_of_ensurePool (s := ⟨s.machine.mem,
      { s.machine.globals with mutex := 1 }⟩) hlist hbooted.frames hs₁
    obtain ⟨t, hrun, ht, -, hfreshPool, -⟩ := run_initNodes T fuel
      (s := ⟨s.machine.mem, { s.machine.globals with mutex := 1 }⟩)
      hbooted.frames hbooted.aligned hroom
    rw [SearchStart, run_ensurePool_of_eq (by exact hlist), hrun] at hs₁
    obtain ⟨-, rfl⟩ := EStateM.Result.ok.inj hs₁
    refine ⟨_, false, hfresh, ⟨rfl, ht ▸ hfreshPool.poolAt, fun p => ?_⟩,
      fun hne => absurd hlist hne⟩
    rw [hbooted.live, poolSlots, poolNodes, liveNodes_replicate]
    simp
  · have hne := hpool.pool.base.ne_zero
    obtain rfl := hs₁.eq hne
    exact ⟨segs, lastLive, hE, ⟨rfl, hpool.pool, hpool.live⟩, fun _ =>
      ⟨hpool, rfl⟩⟩

/-- A property of the segments that the pool has before the first request and
that all the splits that `P` allows keep, as well as everything that changes no
sizes of halves. -/
structure KeptBy (P : Set Addr → Bytes → Addr → Prop)
    (E : List Segment → Prop) : Prop where
  fresh : E (List.replicate 3071 (.page false))
  halve {live : Set Addr} {m : Bytes} {b : Addr} {segs segs' : List Segment}
    {lastLive : Bool} {k : ℕ} (hpool : PoolAt m b segs lastLive) (h : E segs)
    (hP : P live m (slot b k)) (hhalve : Halve segs k segs') : E segs'
  mark {segs segs' : List Segment} (hfrom : HalvesFrom segs segs')
    (h : E segs) : E segs'

theorem keptBy_true (P : Set Addr → Bytes → Addr → Prop) :
    KeptBy P fun _ => True :=
  ⟨trivial, fun _ _ _ _ => trivial, fun _ _ => trivial⟩

theorem HeapInv.exists_pool {P : Set Addr → Bytes → Addr → Prop}
    {E : List Segment → Prop} {s s' : HeapState τ} {c : HeapCall}
    (hE : KeptBy P E) (h : HeapInv R mem table used E s)
    (hstep : Guarded (CallMeets T fuel P) (HeapStep T fuel) s c s') :
    ∃ segs lastLive, E segs ∧ PoolState s'.machine s'.live segs lastLive := by
  obtain ⟨hguard, hstep⟩ := hstep
  cases c with
  | malloc size =>
      obtain ⟨heapFuel, p, hrun, hlive⟩ := hstep
      obtain ⟨s₁, result, m, hs₁, hloop, hserve⟩ := mallocx_eq_ok hrun
      obtain ⟨hsplits, hmerges⟩ := hguard s₁ hs₁
      obtain ⟨segs, lastLive, hsegs, hpool, -⟩ := h.searchStart hE.fresh hs₁
      obtain ⟨segs₁, segs', lastLive', hsegs₁, -, -, hfrom, hpool'⟩ :=
        hpool.mallocx (I := E) (fun m segs k segs' hpool hsegs hP hhalve =>
          hE.halve hpool hsegs hP hhalve) hsegs hsplits hmerges hloop
          hserve
      exact ⟨segs', lastLive', hE.mark hfrom hsegs₁, hlive ▸ hpool'⟩
  | free block =>
      obtain ⟨hrun, hlive⟩ := hstep
      rcases h with hbooted | ⟨segs, lastLive, hsegs, hpool⟩
      · exact absurd hguard (by simp [CallMeets, hbooted.live])
      · obtain ⟨k, segs', lastLive', -, -, -, hfrom, hpool'⟩ :=
          hpool.freex hguard hrun
        exact ⟨segs', lastLive', hE.mark hfrom hsegs, hlive ▸ hpool'⟩

theorem HeapInv.step {P : Set Addr → Bytes → Addr → Prop}
    {E : List Segment → Prop} {s s' : HeapState τ} {c : HeapCall}
    (hE : KeptBy P E) (h : HeapInv R mem table used E s)
    (hstep : Guarded (CallMeets T fuel P) (HeapStep T fuel) s c s') :
    HeapInv R mem table used E s' :=
  Or.inr (h.exists_pool hE hstep)

theorem HeapInv.run {P : Set Addr → Bytes → Addr → Prop}
    {E : List Segment → Prop} {s₀ s : HeapState τ} {cs : List HeapCall}
    (hE : KeptBy P E) (h : HeapBooted R mem table used s₀)
    (hrun : Run (Guarded (CallMeets T fuel P) (HeapStep T fuel)) s₀ cs s) :
    HeapInv R mem table used E s :=
  hrun.invariant (HeapInv R mem table used E) (Or.inl h) fun _ _ _ hs hstep =>
    hs.step hE hstep

end

end OptimistOS
