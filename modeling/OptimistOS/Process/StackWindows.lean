import OptimistOS.Paging.KernelTables
import OptimistOS.Process.KeepsMemory
import OptimistOS.Process.ProcessList

/-!
# The stacks of user threads

Every user thread has its stack in the same window of its own address space.
`setupThreadContext` maps the window in the current top level table, and only
afterwards `getPageMap` makes the table of the process: a copy of the entries 0
and 256 to 511, without the entry of the window. So no process sees its stack.

The frame allocator and the paging code are those of the kernel; the blocks of
`mallocx` are handed out by a function `grant` on a state of its own.
-/

namespace OptimistOS

open ByteMemory ByteMemory.Code PageDirectoryEntry Transition

/-- The globals of the paging code, and what `grant` hands out. -/
structure BlockGlobals (α σ : Type) where
  paging : PagingGlobals α
  blocks : σ

def callTables {α σ β : Type} (x : Code 64 (PagingGlobals α) β) :
    Code 64 (BlockGlobals α σ) β :=
  zoom (fun g => g.paging) (fun g p => { g with paging := p }) x

theorem keeps_callTables {α σ β : Type} {x : Code 64 (PagingGlobals α) β}
    {P : Machine 64 (PagingGlobals α) → Prop} (h : Keeps P x) :
    Keeps (fun u => P ⟨u.mem, u.globals.paging⟩)
      (callTables x : Code 64 (BlockGlobals α σ) β) :=
  h.zoom fun _ _ => rfl

def blockMemory {τ σ : Type} (T : SizeTable τ) (fuel : ℕ)
    (grant : Word → σ → Addr × σ) :
    MemoryManager (BlockGlobals (FrameGlobals τ) σ) where
  allocateFrame size := callTables (callFrames (allocateFrame T fuel size))
  toVirtualAddr addr := callTables (callFrames (toVirtualAddr addr))
  toPhysicalAddr addr := callTables (callFrames (toPhysicalAddr addr))
  mallocx size := do
    let x := grant size (← get).globals.blocks
    modifyGlobals fun g => { g with blocks := x.2 }
    return x.1
  map physicalAddr virtualAddr flags :=
    callTables (map (kernelAllocator T fuel) physicalAddr virtualAddr flags)
  newPML4 := callTables (newPML4 (kernelAllocator T fuel) toPhysicalAddr)
  kernelPML4 g := g.paging.kernelPML4

/-- The lowest address of the stack of a user thread. -/
def stackWindow : Word := THREAD_STACK_ADDR - THREAD_STACK_SIZE

def Created.SeesStack {α : Type} (hhdmOffset : Word)
    (s : Machine 64 (ProcessGlobals α)) (c : Created) : Prop :=
  let process := s.globals.processInternal c.record
  ∀ i < THREAD_STACK_SIZE.toNat,
    translate s.mem hhdmOffset process.PML4 (stackWindow + BitVec.ofNat 64 i) =
      some ((process.threads 0).stackAddress - hhdmOffset + BitVec.ofNat 64 i)

/-- The tables of two processes take no addresses of the window to the same
memory. -/
def Created.StacksApart {α : Type} (hhdmOffset : Word)
    (s : Machine 64 (ProcessGlobals α)) (c d : Created) : Prop :=
  ∀ i < THREAD_STACK_SIZE.toNat, ∀ j < THREAD_STACK_SIZE.toNat, ∀ a,
    translate s.mem hhdmOffset (s.globals.processInternal c.record).PML4
        (stackWindow + BitVec.ofNat 64 i) = some a →
      translate s.mem hhdmOffset (s.globals.processInternal d.record).PML4
        (stackWindow + BitVec.ofNat 64 j) ≠ some a

/-- Every process created by the calls `cs` has its stack in its window. -/
structure OwnStacks {α : Type} (hhdmOffset : Word)
    (s : Machine 64 (ProcessGlobals α)) (cs : List Created) : Prop where
  sees : ∀ c ∈ cs, c.processInfo ≠ 0 → c.SeesStack hhdmOffset s
  apart : cs.Pairwise fun c d => c.processInfo ≠ 0 → d.processInfo ≠ 0 →
    c.StacksApart hhdmOffset s d

section

variable {τ σ : Type} {T : SizeTable τ} {fuel : ℕ} {R : UsableRegion}
  {hlow : R.start.toNat + R.length.toNat ≤ 2 ^ 52}
  {grant : Word → σ → Addr × σ} {n : ℕ}

/-- The tables are in order, and the tables `ps` are not part of the current
address space and have no entry for the window. -/
def LackWindow (T : SizeTable τ) (fuel : ℕ) (R : UsableRegion)
    (hlow : R.start.toNat + R.length.toNat ≤ 2 ^ 52) (ps : List Word)
    (t : Machine 64 (PagingGlobals (FrameGlobals τ))) : Prop :=
  ∃ frames level,
    Leveled (kernelSource T fuel R hlow) t.globals.PML4 0 t frames level ∧
    ∀ p ∈ ps, p ∈ frames ∧ level p = none ∧
      tableEntry t.mem R.hhdmOffset p (levelIndex stackWindow 3) = 0

variable {t t' : Machine 64 (PagingGlobals (FrameGlobals τ))}
  {frames : List Word} {level : Word → Option ℕ} {root : Word}

theorem Leveled.allocateFrame {size : Word} {k : ℕ}
    (h : Leveled (kernelSource T fuel R hlow) root n t frames level)
    (hk : (roundUpToPageBoundary size).toNat = 4096 * k) :
    (callFrames (OptimistOS.allocateFrame T fuel size)).Returns t (n < k)
      fun f t' => f ≠ -1 ∧
        (∃ o ≤ R.length.toNat, o % 4096 = 0 ∧ f + R.hhdmOffset = R.addr o) ∧
        SameGlobals t t' ∧
        Leveled (kernelSource T fuel R hlow) root (n - k) t' frames level ∧
        ∀ u ∈ frames, ∀ j, tableEntry t'.mem R.hhdmOffset u j =
          tableEntry t.mem R.hhdmOffset u j := by
  have hready : FramesReady R n ⟨t.mem, t.globals.frames⟩ frames := h.ready
  refine (hready.allocateFrame T fuel hk).zoom.mono id ?_
  rintro f _ ⟨u, ⟨hf, ho, hready', hkept⟩, rfl⟩
  have hentries := fun v hv j => tableEntry_congr hkept (t := v) hv j
  exact ⟨hf, ho, rfl, ⟨hready', h.levels.congr hentries⟩, hentries⟩

theorem stackFlags_largerPages (P : Prop) :
    stackFlags &&& PageTableFlag.largerPages = 0 → P :=
  fun h => absurd h (by decide)

variable (T fuel hlow grant) in
/-- The calls of the memory management keep the tables in order and do not give
the tables `ps` an entry for the window. -/
theorem keepsCalls_lackWindow (ps : List Word) :
    KeepsCalls (blockMemory T fuel grant) fun u =>
      LackWindow T fuel R hlow ps ⟨u.mem, u.globals.paging⟩ := by
  refine ⟨fun size => .bind (keeps_callTables ?_) fun addr =>
      keeps_callTables (x := callFrames (toVirtualAddr addr)) ?_,
    fun addr => keeps_callTables (x := callFrames (toPhysicalAddr addr)) ?_,
    fun size _ => .bind .get fun _ => .bind (.modifyGlobals fun _ _ h => h)
      fun _ => .pure _,
    fun physicalAddr v => keeps_callTables ?_⟩
  · rintro t f t' ⟨frames, level, hlevels, hps⟩ hrun
    have hmod := roundUpToPageBoundary_mod size
    obtain ⟨-, -, hsame, hlevels', hkept⟩ := (hlevels.allocateFrame
      (k := (roundUpToPageBoundary size).toNat / 4096) (by omega)).of_run hrun
    have hPML4 : t'.globals.PML4 = t.globals.PML4 := by rw [hsame]
    rw [Nat.zero_sub] at hlevels'
    refine ⟨frames, level, hPML4.symm ▸ hlevels', fun p hp => ?_⟩
    obtain ⟨hmem, hlevel, hentry⟩ := hps p hp
    exact ⟨hmem, hlevel, (hkept p hmem _).trans hentry⟩
  · rintro t a t' ⟨frames, level, hlevels, hps⟩ hrun
    obtain ⟨b, hb⟩ := hlevels.run_toVirtualAddr addr
    rw [hrun, EStateM.Result.ok.injEq] at hb
    exact hb.2 ▸ ⟨frames, level, hlevels, hps⟩
  · rintro t a t' ⟨frames, level, hlevels, hps⟩ hrun
    rw [hlevels.run_toPhysicalAddr (takesBack_kernelSource T fuel R hlow)
      addr, EStateM.Result.ok.injEq] at hrun
    exact hrun.2 ▸ ⟨frames, level, hlevels, hps⟩
  · rintro t b t' ⟨frames, level, hlevels, hps⟩ hrun
    obtain ⟨-, frames', level', hlevels', hgrows⟩ := (returns_map_levels
      hlevels rfl physicalAddr v (stackFlags_largerPages _)).of_run hrun
    have hPML4 : t'.globals.PML4 = t.globals.PML4 := by rw [hgrows.globals]
    refine ⟨frames', level', hPML4.symm ▸ hlevels', fun p hp => ?_⟩
    obtain ⟨hmem, hlevel, hentry⟩ := hps p hp
    exact ⟨hgrows.frames_subset hmem, (hgrows.level_eq p hmem).trans hlevel,
      (hgrows.other p hmem hlevel _).trans hentry⟩

theorem lackWindow_newPML4 {ps : List Word} {p : Word}
    (h : LackWindow T fuel R hlow ps t)
    (hrun : (newPML4 (kernelAllocator T fuel) toPhysicalAddr).run t =
      .ok p t') : LackWindow T fuel R hlow [p] t' := by
  obtain ⟨frames, level, hlevels, -⟩ := h
  obtain ⟨hcopy, hlevel, hlevels'⟩ := (returns_newPML4 hlevels rfl
    (takesBack_kernelSource T fuel R hlow)).of_run hrun
  have hPML4 : t'.globals.PML4 = t.globals.PML4 := by rw [hcopy.globals]
  refine ⟨p :: frames, level, hPML4.symm ▸ hlevels', fun q hq => ?_⟩
  obtain rfl := List.mem_singleton.1 hq
  refine ⟨List.mem_cons_self, hlevel, ?_⟩
  rw [hcopy.entry, if_neg (by decide)]

theorem LackWindow.translate {ps : List Word} {p : Word}
    (h : LackWindow T fuel R hlow ps t) (hp : p ∈ ps) :
    translate t.mem R.hhdmOffset p stackWindow = none := by
  obtain ⟨frames, level, -, hps⟩ := h
  obtain ⟨-, -, hentry⟩ := hps p hp
  rw [OptimistOS.translate, if_pos (by decide), hentry]
  rfl

variable {walkFuel : ℕ}
  {s s' : Machine 64 (ProcessGlobals (BlockGlobals (FrameGlobals τ) σ))}
  {c : Created} {ps : List Word}

def tableMachine (s : Machine 64 (ProcessGlobals (BlockGlobals (FrameGlobals τ)
    σ))) : Machine 64 (PagingGlobals (FrameGlobals τ)) :=
  ⟨s.mem, s.globals.memory.paging⟩

theorem LackWindow.allocateVirtual_ne {size : Word} {p : Addr}
    (h : LackWindow T fuel R hlow ps (tableMachine s))
    (hrun : (allocateVirtual (blockMemory T fuel grant) size).run s =
      .ok p s') : p ≠ 0 := by
  obtain ⟨frames, level, hlevels, -⟩ := h
  obtain ⟨f, s₁, hframe, hvirtual⟩ := run_bind_eq_ok.1 hrun
  obtain ⟨t₁, hcall, rfl⟩ := run_callMemory_eq_ok.1 hframe
  change (callTables (callFrames (allocateFrame T fuel size))).run _ =
    _ at hcall
  obtain ⟨t₂, hframes, rfl⟩ := run_zoom_eq_ok.1 hcall
  obtain ⟨u₁, hcall', -⟩ := run_callMemory_eq_ok.1 hvirtual
  change (callTables (callFrames (toVirtualAddr f))).run _ = _ at hcall'
  obtain ⟨u₂, hpointer, -⟩ := run_zoom_eq_ok.1 hcall'
  have hmod := roundUpToPageBoundary_mod size
  obtain ⟨hf, ⟨o, ho, -, haddr⟩, -, hlevels', -⟩ := (hlevels.allocateFrame
    (k := (roundUpToPageBoundary size).toNat / 4096) (by omega)).of_run hframes
  have hv := hlevels'.toVirtualAddr hf
  have hpt : (callFrames (toVirtualAddr f)).run t₂ = .ok p u₂ := hpointer
  have hv' : (callFrames (toVirtualAddr f)).run t₂ =
    .ok (f + R.hhdmOffset) t₂ := hv
  rw [hpt, EStateM.Result.ok.injEq] at hv'
  rw [hv'.1, haddr]
  exact R.addr_ne_zero ho

/-- The table of a created process has no entry for the window. -/
theorem createThread_lackWindow {locals : UninitLocals} {routine : Routine}
    {processInfo process p : Addr} (hprocess : process ≠ 0)
    (huser : routine.user = true)
    (h : LackWindow T fuel R hlow ps (tableMachine s))
    (hhead : s.globals.processHead ≠ 0)
    (hrun : (createThread (blockMemory T fuel grant) walkFuel locals routine
      processInfo process).run s = .ok p s') :
    s'.globals.processHead ≠ 0 ∧
      LackWindow T fuel R hlow [(s'.globals.processInternal process).PML4]
        (tableMachine s') := by
  obtain ⟨-, threadInfo, s₁, PML4, s₂, s₃, hthread, hmap, hregister, rfl⟩ :=
    createThread_eq_ok hrun
  have h₁ : LackWindow T fuel R hlow ps (tableMachine s₁) :=
    (keepsCalls_lackWindow T fuel hlow grant ps).createThreadInternal _ _ _ _ _ _ _ _ _ _ h
      hthread
  have hhead₁ := processHead_createThreadInternal hthread hhead
  rw [huser] at hmap
  obtain ⟨t₁, hcall, rfl⟩ := run_callMemory_eq_ok.1 hmap
  change (callTables (newPML4 (kernelAllocator T fuel) toPhysicalAddr)).run _ =
    _ at hcall
  obtain ⟨t₂, hnew, rfl⟩ := run_zoom_eq_ok.1 hcall
  have h₂ : LackWindow T fuel R hlow [PML4] t₂ := lackWindow_newPML4 h₁ hnew
  obtain ⟨hmem, hmemory, hPML4, hlist⟩ := registerProcess_tables hregister
  have htables : tableMachine s₃ = t₂ := by
    rw [tableMachine, hmem, hmemory]
    rfl
  have hown : (s₃.globals.processInternal process).PML4 = PML4 := by
    rw [hPML4]
    simp [recordProcess, processInternalToProcess, ProcessGlobals.modifyProcess,
      ProcessGlobals.modifyThread, ProcessGlobals.modifyInternal]
  refine ⟨?_, ?_⟩
  · rcases hlist with hlist | hlist
    · exact fun hzero => hprocess (hlist.symm.trans hzero)
    · simp only [recordProcess, processInternalToProcess,
        ProcessGlobals.modifyProcess, ProcessGlobals.modifyThread,
        ProcessGlobals.modifyInternal, hhead₁] at hlist
      exact fun hzero => hhead (hlist.symm.trans hzero)
  · change LackWindow T fuel R hlow [(s₃.globals.processInternal process).PML4]
      (tableMachine s₃)
    rw [htables, hown]
    exact h₂

/-- A call gives up and leaves the tables of the processes alone, or it creates a
process whose table has no entry for the window. -/
theorem createStep_lackWindow (hgrant : ∀ size x, (grant size x).1 ≠ 0)
    (huser : c.routine.user = true)
    (h : LackWindow T fuel R hlow ps (tableMachine s))
    (hstep : CreateStep (blockMemory T fuel grant) walkFuel s c s') :
    (c.locals.threadInfo = 0 ∧ c.processInfo = 0 ∧
        LackWindow T fuel R hlow ps (tableMachine s') ∧
        (s.globals.processHead ≠ 0 → s'.globals.processHead ≠ 0 ∧
          ∀ q, (s'.globals.processInternal q).PML4 =
            (s.globals.processInternal q).PML4)) ∨
      c.locals.threadInfo ≠ 0 ∧ c.processInfo ≠ 0 ∧
        s'.globals.processHead ≠ 0 ∧
        LackWindow T fuel R hlow [(s'.globals.processInternal c.record).PML4]
          (tableMachine s') := by
  obtain ⟨hrun, hrecord⟩ := hstep
  obtain ⟨-, s₁, processInfo, s₂, process, s₃, hensure, hinfo, hprocess,
    hend⟩ := createProcessFromRoutine_eq_ok hrun
  have hcalls := keepsCalls_lackWindow T fuel hlow grant ps
  have h₁ : LackWindow T fuel R hlow ps (tableMachine s₁) := by
    refine hcalls.ensureProcesses _ _ _ ?_ hensure
    exact h
  have hne := h₁.allocateVirtual_ne hinfo
  have h₂ : LackWindow T fuel R hlow ps (tableMachine s₂) :=
    hcalls.allocateVirtual _ _ _ _ h₁ hinfo
  have h₃ : LackWindow T fuel R hlow ps (tableMachine s₃) := by
    refine hcalls.setupProcessInfo _ _ _ ?_ hprocess
    exact h₂
  have hhead₁ : s₁.globals.processHead ≠ 0 := by
    rcases ensureProcesses_eq_ok hensure with ⟨hne, rfl⟩ | ⟨-, p, t, hp, rfl⟩
    · exact hne
    · change p ≠ 0
      refine LackWindow.allocateVirtual_ne
        (?_ : LackWindow T fuel R hlow ps _) hp
      exact h
  obtain ⟨t, hblock, rfl⟩ := setupProcessInfo_eq_ok.1 hprocess
  have hsame₂ := (sameProcesses_allocateVirtual hinfo).eq
  have hsame₃ := (sameProcesses_callMemory hblock).eq
  have hhead₃ : t.globals.processHead = s₁.globals.processHead := by
    rw [hsame₃]
    change s₂.globals.processHead = _
    rw [hsame₂]
  rcases hend with ⟨hnull, hp, rfl⟩ | ⟨-, hlocal, hthread⟩
  · refine Or.inl ⟨hnull.resolve_left hne, hp, h₃, fun hhead => ⟨?_, fun q => ?_⟩⟩
    · exact fun hzero => hhead₁ (hhead₃ ▸ hzero)
    · have hpart : t.globals.processInternal = s.globals.processInternal := by
        obtain ⟨-, rfl⟩ := (ensureProcesses_eq_ok hensure).resolve_right
          fun hc => hhead hc.1
        rw [hsame₃]
        change s₂.globals.processInternal = _
        rw [hsame₂]
      change (Function.update t.globals.processInternal process _ q).PML4 = _
      rw [← hpart]
      by_cases hq : q = process
      · subst hq
        rw [Function.update_self]
      · rw [Function.update_of_ne hq]
  · refine Or.inr ⟨hlocal, ?_, ?_⟩
    · rw [(createThread_eq_ok hthread).1]
      exact hne
    · rw [hrecord, currentProcessInternal_createThread hthread]
      refine createThread_lackWindow ?_ huser h₃ ?_ hthread
      · obtain ⟨u, hu, -⟩ := run_callMemory_eq_ok.1 hblock
        have hblock' : (grant sizeofProcessInternal
          s₂.globals.memory.blocks).1 = process := congrArg
            (fun r : EStateM.Result Stop _ Addr => match r with
              | .ok a _ => a
              | .error _ _ => 0) hu
        exact hblock' ▸ hgrant _ _
      · exact fun hzero => hhead₁ (hhead₃ ▸ hzero)

/-- The calls of a run: none has created a process, or one of the processes has a
table without an entry for the window. -/
theorem createSteps_lackWindow
    {s₀ : Machine 64 (ProcessGlobals (BlockGlobals (FrameGlobals τ) σ))}
    {cs : List Created} (hgrant : ∀ size x, (grant size x).1 ≠ 0)
    (h : TablesReady T fuel R hlow (tableMachine s₀))
    (hrun : Run (CreateStep (blockMemory T fuel grant) walkFuel) s₀ cs s)
    (huser : ∀ c ∈ cs, c.routine.user = true) :
    (∀ c ∈ cs, c.locals.threadInfo = 0 ∧ c.processInfo = 0) ∨
      ∃ c ∈ cs, c.locals.threadInfo ≠ 0 ∧ c.processInfo ≠ 0 ∧
        LackWindow T fuel R hlow [(s.globals.processInternal c.record).PML4]
          (tableMachine s) := by
  have hnone : LackWindow T fuel R hlow [] (tableMachine s₀) := by
    obtain ⟨frames, level, hlevels⟩ := h
    exact ⟨frames, level, hlevels, by simp⟩
  have hinv := hrun.invariant_labels (fun cs s =>
    (∀ c ∈ cs, c.routine.user = true) →
      ((∀ c ∈ cs, c.locals.threadInfo = 0 ∧ c.processInfo = 0) ∧
        LackWindow T fuel R hlow [] (tableMachine s)) ∨
      ∃ c ∈ cs, c.locals.threadInfo ≠ 0 ∧ c.processInfo ≠ 0 ∧
        s.globals.processHead ≠ 0 ∧
        LackWindow T fuel R hlow [(s.globals.processInternal c.record).PML4]
          (tableMachine s)) (fun _ => Or.inl ⟨by simp, hnone⟩) ?_
  · rcases hinv huser with ⟨hall, -⟩ | ⟨c, hc, hlocal, hp, -, hlack⟩
    · exact Or.inl hall
    · exact Or.inr ⟨c, hc, hlocal, hp, hlack⟩
  · intro cs s c s' ih hstep huser
    have huser' := huser c (by simp)
    rcases ih fun d hd => huser d (List.mem_append_left _ hd) with
      ⟨hall, hlack⟩ | ⟨d, hd, hlocal, hp, hhead, hlack⟩
    · rcases createStep_lackWindow hgrant huser' hlack hstep with
        ⟨hlocal, hp, hlack', -⟩ | ⟨hlocal, hp, hhead, hlack'⟩
      · refine Or.inl ⟨fun e he => ?_, hlack'⟩
        rcases List.mem_append.1 he with he | he
        · exact hall e he
        · obtain rfl := List.mem_singleton.1 he
          exact ⟨hlocal, hp⟩
      · exact Or.inr ⟨c, by simp, hlocal, hp, hhead, hlack'⟩
    · rcases createStep_lackWindow hgrant huser' hlack hstep with
        ⟨-, -, hlack', hkept⟩ | ⟨hlocal', hp', hhead', hlack'⟩
      · obtain ⟨hhead', hPML4⟩ := hkept hhead
        rw [← hPML4] at hlack'
        exact Or.inr ⟨d, List.mem_append_left _ hd, hlocal, hp, hhead', hlack'⟩
      · exact Or.inr ⟨c, by simp, hlocal', hp', hhead', hlack'⟩

theorem not_ownStacks {cs : List Created} (hc : c ∈ cs) (hp : c.processInfo ≠ 0)
    (h : LackWindow T fuel R hlow [(s.globals.processInternal c.record).PML4]
      (tableMachine s)) : ¬ OwnStacks R.hhdmOffset s cs := by
  intro hown
  have hsees := hown.sees c hc hp 0 (by decide)
  have hnone := h.translate (List.mem_singleton_self _)
  rw [BitVec.add_zero, BitVec.add_zero] at hsees
  exact absurd (hnone.symm.trans hsees) (by simp)

/-- The processes have their stacks in their windows exactly when no call gets as
far as creating one. -/
theorem ownStacks_iff
    {s₀ : Machine 64 (ProcessGlobals (BlockGlobals (FrameGlobals τ) σ))}
    {cs : List Created} (hgrant : ∀ size x, (grant size x).1 ≠ 0)
    (h : TablesReady T fuel R hlow (tableMachine s₀))
    (hrun : Run (CreateStep (blockMemory T fuel grant) walkFuel) s₀ cs s)
    (huser : ∀ c ∈ cs, c.routine.user = true) :
    OwnStacks R.hhdmOffset s cs ↔ ∀ c ∈ cs, c.locals.threadInfo = 0 := by
  rcases createSteps_lackWindow hgrant h hrun huser with
    hall | ⟨c, hc, hlocal, hp, hlack⟩
  · refine ⟨fun _ c hc => (hall c hc).1, fun _ => ⟨?_, ?_⟩⟩
    · exact fun c hc hp => absurd (hall c hc).2 hp
    · refine List.Pairwise.imp_of_mem ?_ (List.pairwise_of_forall fun _ _ =>
        trivial : cs.Pairwise fun _ _ => True)
      exact fun hc _ _ hp => absurd (hall _ hc).2 hp
  · exact ⟨fun hown => absurd hown (not_ownStacks hc hp hlack),
      fun hall => absurd (hall c hc) hlocal⟩

def tablesOf (u : Machine 64 (BlockGlobals (FrameGlobals τ) σ)) :
    Machine 64 (PagingGlobals (FrameGlobals τ)) :=
  ⟨u.mem, u.globals.paging⟩

theorem run_callTables {β : Type} {x : Code 64 (PagingGlobals (FrameGlobals τ)) β}
    {u : Machine 64 (BlockGlobals (FrameGlobals τ) σ)} {a : β}
    (h : x.run (tablesOf u) = .ok a t) : (callTables x).run u =
      .ok a ⟨t.mem, { u.globals with paging := t.globals }⟩ :=
  run_zoom_of_ok h

variable (grant) in
theorem Leveled.allocates (size : Word)
    {u : Machine 64 (BlockGlobals (FrameGlobals τ) σ)} {k : ℕ}
    (h : Leveled (kernelSource T fuel R hlow) root n (tablesOf u) frames level)
    (hroot : u.globals.paging.PML4 = root)
    (hk : (roundUpToPageBoundary size).toNat = 4096 * k) (hkn : k ≤ n) :
    ∃ u' o, o ≤ R.length.toNat ∧
      Allocates (blockMemory T fuel grant) size u (R.addr o) u' ∧
      u'.globals.blocks = u.globals.blocks ∧ u'.globals.paging.PML4 = root ∧
      Leveled (kernelSource T fuel R hlow) root (n - k) (tablesOf u') frames
        level := by
  obtain ⟨f, t', hrun, hf, ⟨o, ho, -, haddr⟩, hsame, hlevels, -⟩ :=
    (h.allocateFrame hk).exists_run (by omega)
  have hvirtual : (callFrames (OptimistOS.toVirtualAddr f)).run t' =
      .ok (R.addr o) t' := haddr ▸ hlevels.toVirtualAddr hf
  have hPML4 : t'.globals.PML4 = root := by
    rw [hsame]
    exact hroot
  refine ⟨⟨t'.mem, { u.globals with paging := t'.globals }⟩, o, ho,
    fun g hmem => ?_, rfl, hPML4, hlevels⟩
  rw [allocateVirtual, blockMemory,
    run_bind_of_ok (run_callMemory_of_ok (run_callTables hrun) hmem)]
  refine run_callMemory_of_ok (t := ⟨t'.mem, { u.globals with
    paging := t'.globals }⟩) ?_ (by rfl)
  exact run_callTables hvirtual

theorem run_grant (T : SizeTable τ) (fuel : ℕ) (grant : Word → σ → Addr × σ)
    (size : Word)
    (u : Machine 64 (BlockGlobals (FrameGlobals τ) σ)) :
    ((blockMemory T fuel grant).mallocx size).run u =
      .ok (grant size u.globals.blocks).1 ⟨u.mem, { u.globals with
        blocks := (grant size u.globals.blocks).2 }⟩ :=
  rfl

variable (grant walkFuel) in
/-- With 16 frames left the first user process is created. -/
theorem exists_run_createProcess_user (locals : UninitLocals)
    {routine : Routine} (hbefore : BeforeProcesses s.globals routine.cpuID)
    (h : Leveled (kernelSource T fuel R hlow) root n (tableMachine s) frames
      level) (hroot : s.globals.memory.paging.PML4 = root) (hn : 16 ≤ n)
    (hlocal : locals.threadInfo ≠ 0) (huser : routine.user = true)
    (hgrant : ∀ o ≤ R.length.toNat,
      (grant sizeofProcessInternal s.globals.memory.blocks).1 ≠ R.addr o) :
    ∃ p s', p ≠ 0 ∧ (createProcessFromRoutine (blockMemory T fuel grant)
      (walkFuel + 1) locals routine).run s = .ok p s' := by
  obtain ⟨u₁, o₁, ho₁, h₁, hblocks₁, hroot₁, hl₁⟩ := Leveled.allocates
    grant 8 (u := ⟨s.mem, s.globals.memory⟩) (k := 1) h hroot (by decide) (by omega)
  obtain ⟨u₂, o₂, ho₂, h₂, hblocks₂, hroot₂, hl₂⟩ := Leveled.allocates
    grant sizeofProcess (k := 5) hl₁ hroot₁ (by decide)
    (by omega)
  have h₃ := run_grant T fuel grant sizeofProcessInternal u₂
  obtain ⟨u₄, o₄, ho₄, h₄, -, hroot₄, hl₄⟩ := Leveled.allocates
    grant THREAD_STACK_SIZE (u := ⟨u₂.mem, { u₂.globals with
      blocks := (grant sizeofProcessInternal u₂.globals.blocks).2 }⟩) (k := 5) hl₂ hroot₂
    (by decide) (by omega)
  have h₅ := run_grant T fuel grant THREAD_STACK_SIZE u₄
  -- the loop that maps the stack
  obtain ⟨b, t₆, hmap, -, frames₆, level₆, hl₆, hgrows⟩ := (returns_map_levels
    hl₄ hroot₄ (R.addr o₄ - R.hhdmOffset + 0)
    (THREAD_STACK_ADDR - THREAD_STACK_SIZE + 0)
    (stackFlags_largerPages _)).exists_run (by omega)
  obtain ⟨u₅, hu₅⟩ : ∃ u₅ : Machine 64 (BlockGlobals (FrameGlobals τ) σ),
    (⟨u₄.mem, { u₄.globals with
      blocks := (grant THREAD_STACK_SIZE u₄.globals.blocks).2 }⟩ :
        Machine 64 (BlockGlobals (FrameGlobals τ) σ)) = u₅ := ⟨_, rfl⟩
  have htables₅ : tablesOf u₅ = tablesOf u₄ := by
    rw [← hu₅]
    rfl
  have hphys : (callTables (callFrames (toPhysicalAddr (R.addr o₄)))).run u₅ =
      .ok (R.addr o₄ - R.hhdmOffset) u₅ := by
    have hrun := hl₄.run_toPhysicalAddr
      (takesBack_kernelSource T fuel R hlow) (R.addr o₄)
    rw [← htables₅] at hrun
    exact run_callTables hrun
  have hmap₆ : ((blockMemory T fuel grant).map (R.addr o₄ - R.hhdmOffset + 0)
      (THREAD_STACK_ADDR - THREAD_STACK_SIZE + 0) stackFlags).run u₅ =
        .ok b ⟨t₆.mem, { u₅.globals with paging := t₆.globals }⟩ := by
    rw [← htables₅] at hmap
    exact run_callTables hmap
  have hroot₆ : t₆.globals.PML4 = root := by
    rw [hgrows.globals]
    exact hroot₄
  obtain ⟨u₇, o₇, -, h₇, -, hroot₇, hl₇⟩ := Leveled.allocates
    grant sizeofThreadList
    (u := ⟨t₆.mem, { u₅.globals with paging := t₆.globals }⟩) (k := 1) hl₆ hroot₆ (by decide)
    (by omega)
  obtain ⟨p, t₈, hnew, -⟩ := (returns_newPML4 hl₇ hroot₇
    (takesBack_kernelSource T fuel R hlow)).exists_run (by omega)
  have hnew₈ : ((blockMemory T fuel grant).newPML4).run u₇ =
      .ok p ⟨t₈.mem, { u₇.globals with paging := t₈.globals }⟩ :=
    run_callTables hnew
  have hne : (grant sizeofProcessInternal u₂.globals.blocks).1 ≠
      R.addr o₁ := by
    rw [hblocks₂, hblocks₁]
    exact hgrant o₁ ho₁
  have hprepares := preparesThread_user h₄ (hu₅ ▸ h₅) hphys hmap₆
  obtain ⟨g', hrun, -⟩ := exists_run_createProcessFromRoutine walkFuel _ _
    hbefore.canCreate hlocal
    ⟨⟨u₁, u₂, _, _, u₇, p, Or.inl ⟨hbefore.processHead, h₁⟩, h₂, h₃,
      huser ▸ hprepares,
      addsNode_of_eq hbefore.threadMutex hbefore.threadHead h₇,
      huser ▸ givesPageMap_user hnew₈⟩, R.addr_ne_zero ho₁,
      R.addr_ne_zero ho₂, hne⟩
  exact ⟨_, _, R.addr_ne_zero ho₂, hrun⟩

end

/-- The first 65536 blocks are fresh; the state counts them. -/
def freshBlocks (_ : Word) (x : ℕ) : Addr × ℕ :=
  (BitVec.ofNat 64 (0x10000 * (x % 0x10000 + 1)), x + 1)

theorem toNat_freshBlocks (size : Word) (x : ℕ) :
    (freshBlocks size x).1.toNat = 0x10000 * (x % 0x10000 + 1) := by
  rw [freshBlocks, BitVec.toNat_ofNat]
  omega

theorem freshBlocks_ne_zero (size : Word) (x : ℕ) :
    (freshBlocks size x).1 ≠ 0 := by
  intro h
  have hnat := congrArg BitVec.toNat h
  rw [toNat_freshBlocks] at hnat
  have hzero : (0 : Word).toNat = 0 := rfl
  omega

def windowKernel (t : Machine 64 (PagingGlobals (FrameGlobals HashTable))) :
    Machine 64 (ProcessGlobals (BlockGlobals (FrameGlobals HashTable) ℕ)) where
  mem := t.mem
  globals :=
    { interrupts := true
      processMutex := 0
      threadMutex := 0
      processCount := 0
      threadCount := 0
      processHead := 0
      currentProcessInternal := 0
      threadHead := 0
      cpusStarted := 1
      cpuInformation := fun _ => 0xffff800000000000
      thread := fun _ => Thread.zero
      threadList := fun _ => ⟨0, 0⟩
      process := fun _ => ProcessRecord.zero
      processInternal := fun _ => ProcessInternal.zero
      memory := ⟨t.globals, 0⟩ }

def userRoutine : Routine := { kernelRoutine with user := true }

theorem exists_createStep_windowKernel :
    ∃ t c s, TablesReady addressSizeTable 0 bootRegion (by decide) t ∧
      (initTables (kernelAllocator addressSizeTable 0) 2048
        bootResponses).run ⟨bootKernel.mem, bootKernel.globals.paging⟩ =
          .ok () t ∧
      c.locals = freeLocals ∧ c.routine = userRoutine ∧ c.processInfo ≠ 0 ∧
      Run (CreateStep (blockMemory addressSizeTable 0 freshBlocks) 1)
        (windowKernel t) [c] s := by
  let S := kernelSource addressSizeTable 0 bootRegion (by decide)
  obtain ⟨t, hrun, calls, ⟨⟨frames, owner, hmapped⟩, -, -, -⟩, -⟩ :=
    exists_run_initTables (k := 16) (by decide)
  have hleveled := hmapped.leveled
  have hbefore : BeforeProcesses (windowKernel t).globals userRoutine.cpuID :=
    ⟨rfl, rfl, rfl, rfl, rfl, by
      change (0xffff800000000000 : Word) ≠ 0
      decide⟩
  obtain ⟨p, s, hp, hcreate⟩ := exists_run_createProcess_user freshBlocks 0
    freeLocals (s := windowKernel t) hbefore hleveled rfl (by omega) (by decide)
    rfl (fun o ho haddr => by
      have hnat := congrArg BitVec.toNat haddr
      rw [toNat_freshBlocks, bootRegion.toNat_addr ho] at hnat
      have hbase : bootRegion.base.toNat = 0xffff800000100000 := by decide
      omega)
  exact ⟨t, ⟨freeLocals, userRoutine, p, s.globals.currentProcessInternal⟩, s,
    ⟨frames, _, ⟨S.mono _ _ _ _ hleveled.ready (by omega), hleveled.levels⟩⟩,
    hrun, rfl, rfl, hp, .single ⟨hcreate, rfl⟩⟩

theorem ownStacks_iff_windowKernel :
    ∃ t c s, Run (CreateStep (blockMemory addressSizeTable 0 freshBlocks) 1)
        (windowKernel t) [c] s ∧
      (OwnStacks bootRegion.hhdmOffset s [c] ↔
        ∀ d ∈ [c], d.locals.threadInfo = 0) := by
  obtain ⟨t, c, s, hready, -, -, huser, -, hrun⟩ :=
    exists_createStep_windowKernel
  exact ⟨t, c, s, hrun, ownStacks_iff freshBlocks_ne_zero hready hrun
    (by simp [huser, userRoutine])⟩

/-- The first user process does not see its stack. -/
theorem exists_not_ownStacks :
    ∃ t c s, (initTables (kernelAllocator addressSizeTable 0) 2048
        bootResponses).run ⟨bootKernel.mem, bootKernel.globals.paging⟩ =
          .ok () t ∧
      c.routine.user = true ∧ c.processInfo ≠ 0 ∧
      Run (CreateStep (blockMemory addressSizeTable 0 freshBlocks) 1)
        (windowKernel t) [c] s ∧
      ¬ OwnStacks bootRegion.hhdmOffset s [c] := by
  obtain ⟨t, c, s, hready, hinit, -, huser, hp, hrun⟩ :=
    exists_createStep_windowKernel
  have huser' : c.routine.user = true := by rw [huser]; rfl
  refine ⟨t, c, s, hinit, huser', hp, hrun, ?_⟩
  rcases createSteps_lackWindow freshBlocks_ne_zero hready hrun
    (by simp [huser']) with hall | ⟨d, hd, -, hp', hlack⟩
  · exact absurd (hall c (by simp)).2 hp
  · exact not_ownStacks hd hp' hlack

end OptimistOS
