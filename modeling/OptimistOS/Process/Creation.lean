import OptimistOS.Process.Process

/-!
# Creating a process

What a call of `createProcessFromRoutine` that returns has done, one lemma for
each function it consists of. The call has held `processMutex` all the time, and
a call that returns because a variable it has not set is null does not give it
back.
-/

namespace OptimistOS

open ByteMemory ByteMemory.Code LinkedList

variable {α : Type} {M : MemoryManager α}

theorem run_callMemory_eq_ok {β : Type} {x : Code 64 α β}
    {s s' : Machine 64 (ProcessGlobals α)} {a : β} :
    (callMemory x).run s = .ok a s' ↔
      ∃ t : Machine 64 α, x.run ⟨s.mem, s.globals.memory⟩ = .ok a t ∧
        s' = ⟨t.mem, { s.globals with memory := t.globals }⟩ :=
  run_zoom_eq_ok

/-- What a call of the memory management leaves alone. -/
structure SameProcesses (g g' : ProcessGlobals α) : Prop where
  eq : g' = { g with memory := g'.memory }

theorem SameProcesses.trans {g g' g'' : ProcessGlobals α}
    (h : SameProcesses g g') (h' : SameProcesses g' g'') :
    SameProcesses g g'' :=
  ⟨by rw [h'.eq, h.eq]⟩

theorem sameProcesses_callMemory {β : Type} {x : Code 64 α β}
    {s s' : Machine 64 (ProcessGlobals α)} {a : β}
    (h : (callMemory x).run s = .ok a s') :
    SameProcesses s.globals s'.globals := by
  obtain ⟨t, -, rfl⟩ := run_callMemory_eq_ok.1 h
  exact ⟨rfl⟩

theorem sameProcesses_allocateVirtual {size : Word}
    {s s' : Machine 64 (ProcessGlobals α)} {p : Addr}
    (h : (allocateVirtual M size).run s = .ok p s') :
    SameProcesses s.globals s'.globals := by
  obtain ⟨f, t, hf, hp⟩ := run_bind_eq_ok.1 h
  exact (sameProcesses_callMemory hf).trans (sameProcesses_callMemory hp)

def MemoryManager.frame (M : MemoryManager α) (size : Word) : Code 64 α Addr :=
  do
    let frame ← M.allocateFrame size
    M.toVirtualAddr frame

theorem allocateVirtual_eq_ok {size : Word} {p : Addr}
    {s s' : Machine 64 (ProcessGlobals α)} :
    (allocateVirtual M size).run s = .ok p s' ↔
      (callMemory (M.frame size)).run s = .ok p s' := by
  constructor
  · intro h
    obtain ⟨f, s₁, hf, hp⟩ := run_bind_eq_ok.1 h
    obtain ⟨t, ht, rfl⟩ := run_callMemory_eq_ok.1 hf
    obtain ⟨u, hu, rfl⟩ := run_callMemory_eq_ok.1 hp
    exact run_callMemory_eq_ok.2 ⟨u, run_bind_eq_ok.2 ⟨f, t, ht, hu⟩, rfl⟩
  · intro h
    obtain ⟨u, hu, rfl⟩ := run_callMemory_eq_ok.1 h
    obtain ⟨f, t, ht, hu⟩ := run_bind_eq_ok.1 hu
    exact run_bind_eq_ok.2 ⟨f, _, run_callMemory_eq_ok.2 ⟨t, ht, rfl⟩,
      run_callMemory_eq_ok.2 ⟨u, hu, rfl⟩⟩

theorem ensureProcesses_eq_ok {s s' : Machine 64 (ProcessGlobals α)}
    (h : (ensureProcesses M).run s = .ok () s') :
    s.globals.processHead ≠ 0 ∧ s' = s ∨
      s.globals.processHead = 0 ∧ ∃ p t,
        (allocateVirtual M 8).run s = .ok p t ∧
        s' = ⟨t.mem, { t.globals.modifyInternal p fun _ => .zero with
          processHead := p }⟩ := by
  rw [ensureProcesses, EStateM.run_bind, EStateM.run_get] at h
  by_cases hhead : s.globals.processHead = 0
  · simp only [if_pos hhead] at h
    obtain ⟨p, t, hp, hs'⟩ := run_bind_eq_ok.1 h
    obtain ⟨q, u, hq, hu⟩ := run_bind_eq_ok.1 hp
    simp only [EStateM.run_bind, run_modifyGlobals, EStateM.run_pure,
      EStateM.Result.ok.injEq] at hu hs'
    obtain ⟨rfl, rfl⟩ := hu
    obtain ⟨-, rfl⟩ := hs'
    exact Or.inr ⟨hhead, q, u, hq, rfl⟩
  · simp only [if_neg hhead, EStateM.run_pure, EStateM.Result.ok.injEq] at h
    exact Or.inl ⟨hhead, h.2.symm⟩

def setupRecord (process : Addr) (g : ProcessGlobals α) : ProcessGlobals α :=
  g.modifyInternal process fun record =>
    { record with processID := 7 * g.processCount, threadCount := 1, next := 0 }

theorem setupProcessInfo_eq_ok {s s' : Machine 64 (ProcessGlobals α)}
    {process : Addr} :
    (setupProcessInfo M).run s = .ok process s' ↔
      ∃ t, (callMemory (M.mallocx sizeofProcessInternal)).run s =
          .ok process t ∧
        s' = ⟨t.mem, setupRecord process t.globals⟩ := by
  rw [setupProcessInfo, run_bind_eq_ok]
  simp only [EStateM.run_bind, run_modifyGlobals, EStateM.run_pure,
    EStateM.Result.ok.injEq, ProcessGlobals.modifyInternal,
    Function.update_self, Function.update_idem, setupRecord]
  constructor
  · rintro ⟨p, t, hp, rfl, rfl⟩
    exact ⟨t, hp, rfl⟩
  · rintro ⟨t, hp, rfl⟩
    exact ⟨process, t, hp, rfl, rfl⟩

/-- A call that returns: the head is there, the two records have been allocated,
and either the call gave up on a null variable or it has created a thread. -/
theorem createProcessFromRoutine_eq_ok {fuel : ℕ} {locals : UninitLocals}
    {routine : Routine} {s s' : Machine 64 (ProcessGlobals α)} {p : Addr}
    (h : (createProcessFromRoutine M fuel locals routine).run s = .ok p s') :
    s.globals.processMutex = 0 ∧ ∃ s₁ processInfo s₂ process s₃,
      (ensureProcesses M).run ⟨s.mem, { s.globals with
        interrupts := false, processMutex := 1 }⟩ = .ok () s₁ ∧
      (allocateVirtual M sizeofProcess).run s₁ = .ok processInfo s₂ ∧
      (setupProcessInfo M).run ⟨s₂.mem,
        s₂.globals.modifyProcess processInfo fun _ => .zero⟩ =
          .ok process s₃ ∧
      ((processInfo = 0 ∨ locals.threadInfo = 0) ∧ p = 0 ∧ s' = s₃ ∨
        processInfo ≠ 0 ∧ locals.threadInfo ≠ 0 ∧
          (createThread M fuel locals routine processInfo process).run s₃ =
            .ok p s') := by
  rw [createProcessFromRoutine, EStateM.run_bind, run_modifyGlobals] at h
  obtain ⟨_, t, hlock, h⟩ := run_bind_eq_ok.1 h
  obtain ⟨hmutex, rfl⟩ := run_lock_eq_ok.1 hlock
  obtain ⟨_, s₁, hensure, h⟩ := run_bind_eq_ok.1 h
  obtain ⟨processInfo, s₂, hinfo, h⟩ := run_bind_eq_ok.1 h
  rw [EStateM.run_bind, run_modifyGlobals] at h
  obtain ⟨process, s₃, hprocess, h⟩ := run_bind_eq_ok.1 h
  refine ⟨hmutex, s₁, processInfo, s₂, process, s₃, hensure, hinfo, hprocess,
    ?_⟩
  by_cases hzero : processInfo = 0
  · rw [if_pos hzero, EStateM.run_pure, EStateM.Result.ok.injEq] at h
    exact Or.inl ⟨Or.inl hzero, h.1.symm, h.2.symm⟩
  · rw [if_neg hzero] at h
    by_cases hlocal : locals.threadInfo = 0
    · rw [if_pos hlocal, EStateM.run_pure, EStateM.Result.ok.injEq] at h
      exact Or.inl ⟨Or.inr hlocal, h.1.symm, h.2.symm⟩
    · rw [if_neg hlocal] at h
      exact Or.inr ⟨hzero, hlocal, h⟩

/-- `registerProcess` on a list that is not empty, or with the counter at 0. -/
theorem registerProcess_eq_ok {fuel : ℕ} {process : Addr}
    {s s' : Machine 64 (ProcessGlobals α)}
    (h : (registerProcess fuel process).run s = .ok () s') :
    s.globals.processCount = 0 ∧
        s' = ⟨s.mem, { s.globals.modifyInternal process fun record =>
          { record with next := 0 } with
            processHead := process
            processCount := s.globals.processCount + 1 }⟩ ∨
      s.globals.processCount ≠ 0 ∧ ∃ pHead,
        lastNode 0 (fun p => (s.globals.processInternal p).next) fuel
          s.globals.processHead = some pHead ∧
        s' = ⟨s.mem, { ((s.globals.modifyInternal pHead fun record =>
          { record with next := process }).modifyInternal process fun record =>
            { record with next := 0 }) with
              processCount := s.globals.processCount + 1 }⟩ := by
  rw [registerProcess, EStateM.run_bind, EStateM.run_get] at h
  by_cases hcount : s.globals.processCount = 0
  · simp only [if_pos hcount, EStateM.run_bind, run_modifyGlobals,
      EStateM.Result.ok.injEq] at h
    exact Or.inl ⟨hcount, h.2.symm⟩
  · simp only [if_neg hcount] at h
    cases hlast : lastNode 0 (fun p => (s.globals.processInternal p).next) fuel
        s.globals.processHead with
    | none =>
        rw [hlast] at h
        exact absurd h (by simp)
    | some pHead =>
        rw [hlast] at h
        simp only [EStateM.run_bind, run_modifyGlobals,
          EStateM.Result.ok.injEq] at h
        exact Or.inr ⟨hcount, pHead, rfl, h.2.symm⟩

/-- The steps of `createThread`. -/
theorem createThread_eq_ok {fuel : ℕ} {locals : UninitLocals}
    {routine : Routine} {processInfo process p : Addr}
    {s s' : Machine 64 (ProcessGlobals α)}
    (h : (createThread M fuel locals routine processInfo process).run s =
      .ok p s') :
    p = processInfo ∧ ∃ threadInfo s₁ PML4 s₂ s₃,
      (createThreadInternal M fuel locals.thread routine.entryPoint
        routine.priority routine.cpuID routine.state routine.user).run s =
          .ok threadInfo s₁ ∧
      (getPageMap M routine.user).run ⟨s₁.mem,
        s₁.globals.modifyThread threadInfo fun record =>
          { record with threadID := ((s₁.globals.processInternal
            process).threadCount + 1).setWidth 64 }⟩ = .ok PML4 s₂ ∧
      (registerProcess fuel process).run ⟨s₂.mem,
        recordProcess process processInfo threadInfo PML4 s₂.globals⟩ =
          .ok () s₃ ∧
      s' = ⟨s₃.mem, { s₃.globals with
        processMutex := 0, interrupts := true }⟩ := by
  rw [createThread] at h
  obtain ⟨threadInfo, s₁, hthread, h⟩ := run_bind_eq_ok.1 h
  rw [EStateM.run_bind, run_modifyGlobals] at h
  obtain ⟨PML4, s₂, hmap, h⟩ := run_bind_eq_ok.1 h
  obtain ⟨_, t, hrecord, h⟩ := run_bind_eq_ok.1 h
  rw [run_modifyGlobals, EStateM.Result.ok.injEq] at hrecord
  obtain ⟨-, rfl⟩ := hrecord
  rw [EStateM.run_bind, EStateM.run_get] at h
  obtain ⟨_, s₃, hregister, h⟩ := run_bind_eq_ok.1 h
  simp only [EStateM.run_bind, run_unlock, run_modifyGlobals, EStateM.run_pure,
    EStateM.Result.ok.injEq] at h
  exact ⟨h.1.symm, threadInfo, s₁, PML4, s₂, s₃, hthread, hmap, hregister,
    h.2.symm⟩

/-- The thread record after `setupThreadContext`, with the frame for its stack
and the block for its kernel stack. -/
def preparedThread (record : Thread) (entryPoint : Word) (user : Bool)
    (stack kernelStack : Addr) : Thread :=
  { record with
    regs :=
      if user then
        Function.update (Function.update (initialRegs none) .rsp
          (stack + THREAD_STACK_SIZE)) .eFlags 0x202
      else
        Function.update (initialRegs (some (kernelStack + THREAD_STACK_SIZE)))
          .eFlags 0x202
    entryPoint := entryPoint
    stackAddress := if user then stack else kernelStack + THREAD_STACK_SIZE
    kernelStack := kernelStack + THREAD_STACK_SIZE
    state := .ready
    lock := 0 }

theorem sameProcesses_mapStack {stack : Addr}
    {s s' : Machine 64 (ProcessGlobals α)}
    (h : (mapStack M stack).run s = .ok () s') :
    SameProcesses s.globals s'.globals := by
  have hlt : (0 : Word) < THREAD_STACK_SIZE := by decide
  have hend : ¬ (0 + 0x200000 : Word) < THREAD_STACK_SIZE := by decide
  rw [mapStack, forLoop, if_pos hlt] at h
  obtain ⟨_, t, hbody, h⟩ := run_bind_eq_ok.1 h
  rw [run_forLoop_of_le hend, EStateM.Result.ok.injEq] at h
  obtain ⟨p, u, hp, hbody⟩ := run_bind_eq_ok.1 hbody
  obtain ⟨b, v, hb, hbody⟩ := run_bind_eq_ok.1 hbody
  rw [EStateM.run_pure, EStateM.Result.ok.injEq] at hbody
  rw [← h.2, ← hbody.2]
  exact (sameProcesses_callMemory hp).trans (sameProcesses_callMemory hb)

/-- `setupThreadContext` fills the record of the thread, with the frame that it
gets for the stack, and counts it. -/
theorem setupThreadContext_granted {thread : Addr} {entryPoint : Word}
    {user : Bool} {state : ThreadState}
    {s s' : Machine 64 (ProcessGlobals α)}
    (h : (setupThreadContext M thread entryPoint user state).run s =
      .ok () s') :
    ∃ stack t kernelStack,
      (allocateVirtual M THREAD_STACK_SIZE).run s = .ok stack t ∧
      s'.globals = { s.globals with
        memory := s'.globals.memory
        thread := Function.update s.globals.thread thread
          (preparedThread (s.globals.thread thread) entryPoint user stack
            kernelStack)
        threadCount := s.globals.threadCount + 1 } := by
  rw [setupThreadContext] at h
  obtain ⟨stack, t, hstack, h⟩ := run_bind_eq_ok.1 h
  obtain ⟨_, t₁, h₁, h⟩ := run_bind_eq_ok.1 h
  rw [run_modifyGlobals, EStateM.Result.ok.injEq] at h₁
  obtain ⟨kernelStack, u, hkernel, h⟩ := run_bind_eq_ok.1 h
  obtain ⟨_, u₁, h₂, h⟩ := run_bind_eq_ok.1 h
  rw [run_modifyGlobals, EStateM.Result.ok.injEq] at h₂
  have ht := (sameProcesses_allocateVirtual hstack).eq
  have hu := (sameProcesses_callMemory hkernel).eq
  have hglobals : u₁.globals = { s.globals with
      memory := u₁.globals.memory
      thread := Function.update s.globals.thread thread
        { s.globals.thread thread with
          regs := Function.update (s.globals.thread thread).regs .rip entryPoint
          entryPoint := entryPoint
          stackAddress := stack
          kernelStack := kernelStack + THREAD_STACK_SIZE
          state := .ready
          lock := 0 } } := by
    rw [← h₂.2]
    dsimp only
    rw [hu, ← h₁.2]
    dsimp only
    rw [ht]
    simp [ProcessGlobals.modifyThread]
  refine ⟨stack, t, kernelStack, hstack, ?_⟩
  cases user with
  | true =>
      simp only [if_true] at h
      obtain ⟨_, v, hv, h⟩ := run_bind_eq_ok.1 h
      rw [run_modifyGlobals, EStateM.Result.ok.injEq] at hv
      obtain ⟨_, w, hw, h⟩ := run_bind_eq_ok.1 h
      have hmap := (sameProcesses_mapStack hw).eq
      simp only [EStateM.run_bind, run_modifyGlobals,
        EStateM.Result.ok.injEq] at h
      rw [← h.2]
      dsimp only
      rw [hmap, ← hv.2]
      dsimp only
      rw [hglobals]
      simp [ProcessGlobals.modifyThread, preparedThread]
  | false =>
      simp only [Bool.false_eq_true, if_false, EStateM.run_bind,
        run_modifyGlobals, EStateM.Result.ok.injEq] at h
      rw [← h.2]
      dsimp only
      rw [hglobals]
      simp [ProcessGlobals.modifyThread, preparedThread]

theorem setupThreadContext_eq_ok {thread : Addr} {entryPoint : Word}
    {user : Bool} {state : ThreadState}
    {s s' : Machine 64 (ProcessGlobals α)}
    (h : (setupThreadContext M thread entryPoint user state).run s =
      .ok () s') :
    ∃ stack kernelStack, s'.globals = { s.globals with
      memory := s'.globals.memory
      thread := Function.update s.globals.thread thread
        (preparedThread (s.globals.thread thread) entryPoint user stack
          kernelStack)
      threadCount := s.globals.threadCount + 1 } := by
  obtain ⟨stack, -, kernelStack, -, hglobals⟩ := setupThreadContext_granted h
  exact ⟨stack, kernelStack, hglobals⟩

def linkNode (nodes : Addr → ThreadList) (l p thread : Addr) :
    Addr → ThreadList :=
  Function.update
    (Function.update nodes l { nodes l with next := p }) p ⟨thread, 0⟩

theorem linkNode_eq (g : ProcessGlobals α) (l p thread : Addr) :
    (((g.modifyNode l fun node => { node with next := p }).modifyNode p
      fun node => { node with threadInfo := thread }).modifyNode p
        fun node => { node with next := 0 }) =
      { g with threadList := linkNode g.threadList l p thread } := by
  simp only [ProcessGlobals.modifyNode, Function.update_self,
    Function.update_idem, linkNode]

/-- `addThreadToList` starts a list or links a node behind the last one. -/
theorem addThreadToList_eq_ok {fuel : ℕ} {thread : Addr}
    {s s' : Machine 64 (ProcessGlobals α)}
    (h : (addThreadToList M fuel thread).run s = .ok () s') :
    s.globals.threadMutex = 0 ∧
      (s.globals.threadHead = 0 ∧ (∃ (p : Addr) (t : Machine 64 α),
          (M.frame sizeofThreadList).run ⟨s.mem, s.globals.memory⟩ = .ok p t ∧
          s' = ⟨t.mem, { s.globals with
            memory := t.globals
            threadHead := p
            threadList :=
              Function.update s.globals.threadList p ⟨thread, 0⟩ }⟩) ∨
        s.globals.threadHead ≠ 0 ∧ ∃ (l p : Addr) (t : Machine 64 α),
          lastNode 0 (fun p => (s.globals.threadList p).next) fuel
            s.globals.threadHead = some l ∧
          (M.mallocx sizeofThreadList).run ⟨s.mem, s.globals.memory⟩ =
            .ok p t ∧
          s' = ⟨t.mem, { s.globals with
            memory := t.globals
            threadList := linkNode s.globals.threadList l p thread }⟩) := by
  rw [addThreadToList, lockThreads] at h
  obtain ⟨_, t, hlock, h⟩ := run_bind_eq_ok.1 h
  obtain ⟨hmutex, rfl⟩ := run_lock_eq_ok.1 hlock
  refine ⟨hmutex, ?_⟩
  rw [EStateM.run_bind, EStateM.run_get] at h
  by_cases hhead : s.globals.threadHead = 0
  · simp only [if_pos hhead] at h
    obtain ⟨p, t, hp, h⟩ := run_bind_eq_ok.1 h
    obtain ⟨u, hu, rfl⟩ := run_callMemory_eq_ok.1 (allocateVirtual_eq_ok.1 hp)
    simp only [EStateM.run_bind, run_modifyGlobals, unlockThreads, run_unlock,
      EStateM.Result.ok.injEq, ProcessGlobals.modifyNode, Function.update_self,
      Function.update_idem] at h
    refine Or.inl ⟨hhead, p, u, hu, ?_⟩
    rw [← h.2]
    simp only [hmutex]
  · simp only [if_neg hhead] at h
    rw [EStateM.run_bind, EStateM.run_get] at h
    dsimp only at h
    cases hlast : lastNode 0 (fun p => (s.globals.threadList p).next) fuel
        s.globals.threadHead with
    | none =>
        rw [hlast] at h
        exact absurd h (by simp)
    | some l =>
        rw [hlast] at h
        obtain ⟨p, t, hp, h⟩ := run_bind_eq_ok.1 h
        obtain ⟨u, hu, rfl⟩ := run_callMemory_eq_ok.1 hp
        have hnext : ∀ g : ProcessGlobals α,
            ((g.modifyNode l fun node =>
              { node with next := p }).threadList l).next = p := fun g => by
          simp [ProcessGlobals.modifyNode]
        have hnext' : ∀ g : ProcessGlobals α,
            (((g.modifyNode l fun node => { node with next := p }).modifyNode p
              fun node =>
                { node with threadInfo := thread }).threadList l).next = p :=
          fun g => by
            by_cases hpl : l = p
            · subst hpl
              simp [ProcessGlobals.modifyNode]
            · simp [ProcessGlobals.modifyNode, Function.update_of_ne hpl]
        simp only [EStateM.run_bind, run_modifyGlobals, unlockThreads,
          run_unlock, EStateM.Result.ok.injEq, hnext, hnext', linkNode_eq] at h
        refine Or.inr ⟨hhead, l, p, u, rfl, hu, ?_⟩
        rw [← h.2]
        simp only [hmutex]

/-- The steps of `createThreadInternal`. -/
theorem createThreadInternal_eq_ok {fuel : ℕ} {thread p : Addr}
    {entrypoint : Word} {priority : ThreadPriority} {cpuID : Word}
    {state : ThreadState} {user : Bool}
    {s s' : Machine 64 (ProcessGlobals α)}
    (h : (createThreadInternal M fuel thread entrypoint priority cpuID state
      user).run s = .ok p s') :
    p = thread ∧ ∃ s₁ s₂ s₃,
      (ensureProcesses M).run s = .ok () s₁ ∧
      (setupThreadContext M thread entrypoint user state).run s₁ =
        .ok () s₂ ∧
      (addThreadToList M fuel thread).run ⟨s₂.mem,
        s₂.globals.modifyThread thread fun record =>
          { record with priority := priority, cpuID := cpuID }⟩ =
        .ok () s₃ ∧
      s' = ⟨s₃.mem, { s₃.globals with
        processCount := s₃.globals.processCount + 1 }⟩ := by
  rw [createThreadInternal] at h
  obtain ⟨_, s₁, hensure, h⟩ := run_bind_eq_ok.1 h
  rw [EStateM.run_bind, EStateM.run_get] at h
  dsimp only at h
  by_cases hcpu : getCPUInfo s₁.globals (cpuID.setWidth 32) = 0
  · rw [if_pos hcpu] at h
    exact absurd h (by simp)
  · rw [if_neg hcpu] at h
    obtain ⟨_, s₂, hsetup, h⟩ := run_bind_eq_ok.1 h
    rw [EStateM.run_bind, run_modifyGlobals] at h
    obtain ⟨_, s₃, hadd, h⟩ := run_bind_eq_ok.1 h
    simp only [EStateM.run_bind, run_modifyGlobals, EStateM.run_pure,
      EStateM.Result.ok.injEq] at h
    exact ⟨h.1.symm, s₁, s₂, s₃, hensure, hsetup, hadd, h.2.symm⟩

theorem currentProcessInternal_createThread {fuel : ℕ}
    {locals : UninitLocals} {routine : Routine} {processInfo process p : Addr}
    {s s' : Machine 64 (ProcessGlobals α)}
    (h : (createThread M fuel locals routine processInfo process).run s =
      .ok p s') : s'.globals.currentProcessInternal = process := by
  obtain ⟨-, threadInfo, s₁, PML4, s₂, s₃, -, -, hregister, rfl⟩ :=
    createThread_eq_ok h
  rcases registerProcess_eq_ok hregister with ⟨-, rfl⟩ | ⟨-, l, -, rfl⟩ <;> rfl

theorem processHead_createThreadInternal {fuel : ℕ} {thread p : Addr}
    {entrypoint : Word} {priority : ThreadPriority} {cpuID : Word}
    {state : ThreadState} {user : Bool}
    {s s' : Machine 64 (ProcessGlobals α)}
    (h : (createThreadInternal M fuel thread entrypoint priority cpuID state
      user).run s = .ok p s') (hhead : s.globals.processHead ≠ 0) :
    s'.globals.processHead = s.globals.processHead := by
  obtain ⟨-, s₁, s₂, s₃, hensure, hsetup, hadd, rfl⟩ :=
    createThreadInternal_eq_ok h
  obtain ⟨-, rfl⟩ := (ensureProcesses_eq_ok hensure).resolve_right
    fun hc => hhead hc.1
  obtain ⟨stack, kernelStack, h₂⟩ := setupThreadContext_eq_ok hsetup
  have hhead₂ : s₂.globals.processHead = s₁.globals.processHead := by rw [h₂]
  have hhead₃ : s₃.globals.processHead = s₂.globals.processHead := by
    obtain ⟨-, ⟨-, p, t, -, rfl⟩ | ⟨-, l, p, t, -, -, rfl⟩⟩ :=
      addThreadToList_eq_ok hadd <;> rfl
  exact hhead₃.trans hhead₂

/-- `registerProcess` does not touch the tables, and the head of the list is the
new process or the old head. -/
theorem registerProcess_tables {fuel : ℕ} {process : Addr}
    {s s' : Machine 64 (ProcessGlobals α)}
    (h : (registerProcess fuel process).run s = .ok () s') :
    s'.mem = s.mem ∧ s'.globals.memory = s.globals.memory ∧
      (∀ q, (s'.globals.processInternal q).PML4 =
        (s.globals.processInternal q).PML4) ∧
      (s'.globals.processHead = process ∨
        s'.globals.processHead = s.globals.processHead) := by
  have hPML4 : ∀ (g : ProcessGlobals α) (p q next : Addr),
      ((g.modifyInternal p fun record =>
        { record with next := next }).processInternal q).PML4 =
          (g.processInternal q).PML4 := by
    intro g p q next
    by_cases hq : q = p
    · subst hq
      simp [ProcessGlobals.modifyInternal]
    · simp [ProcessGlobals.modifyInternal, Function.update_of_ne hq]
  rcases registerProcess_eq_ok h with ⟨-, rfl⟩ | ⟨-, l, -, rfl⟩
  · exact ⟨rfl, rfl, fun q => hPML4 _ _ q _, Or.inl rfl⟩
  · exact ⟨rfl, rfl, fun q => (hPML4 _ _ q _).trans (hPML4 _ _ q _),
      Or.inr rfl⟩

section Kernel

/-!
A process is created when every call of the memory management returns. The calls
take the memory from one of the machines `t` to the next one.
-/

def Allocates (M : MemoryManager α) (size : Word) (t : Machine 64 α) (p : Addr)
    (t' : Machine 64 α) : Prop :=
  ∀ g : ProcessGlobals α, g.memory = t.globals →
    (allocateVirtual M size).run ⟨t.mem, g⟩ =
      .ok p ⟨t'.mem, { g with memory := t'.globals }⟩

theorem run_callMemory_of_ok {β : Type} {x : Code 64 α β} {a : β}
    {t t' : Machine 64 α} {g : ProcessGlobals α} (h : x.run t = .ok a t')
    (hmem : g.memory = t.globals) :
    (callMemory x).run ⟨t.mem, g⟩ =
      .ok a ⟨t'.mem, { g with memory := t'.globals }⟩ :=
  run_zoom_of_ok (by rw [hmem]; exact h)

variable {t t' t'' : Machine 64 α} {g : ProcessGlobals α} {p q : Addr}
  {fuel : ℕ}

theorem run_ensureProcesses_of_ne (h : g.processHead ≠ 0) (m : Bytes) :
    (ensureProcesses M).run ⟨m, g⟩ = .ok () ⟨m, g⟩ := by
  rw [ensureProcesses, EStateM.run_bind, EStateM.run_get]
  simp only [if_neg h, EStateM.run_pure]

theorem run_ensureProcesses_of_eq (h : g.processHead = 0)
    (hmem : g.memory = t.globals) (hp : Allocates M 8 t p t') :
    (ensureProcesses M).run ⟨t.mem, g⟩ =
      .ok () ⟨t'.mem, { g.modifyInternal p fun _ => .zero with
        memory := t'.globals, processHead := p }⟩ := by
  rw [ensureProcesses, EStateM.run_bind, EStateM.run_get]
  simp only [if_pos h, initProcesses]
  rw [EStateM.run_bind, run_bind_of_ok (hp g hmem)]
  rfl

theorem run_setupThreadContext_kernel {thread : Addr} {entryPoint : Word}
    {state : ThreadState} (hmem : g.memory = t.globals)
    (hstack : Allocates M THREAD_STACK_SIZE t p t')
    (hkernel : (M.mallocx THREAD_STACK_SIZE).run t' = .ok q t'') :
    (setupThreadContext M thread entryPoint false state).run ⟨t.mem, g⟩ =
      .ok () ⟨t''.mem, { g with
        memory := t''.globals
        thread := Function.update g.thread thread
          (preparedThread (g.thread thread) entryPoint false p q)
        threadCount := g.threadCount + 1 }⟩ := by
  rw [setupThreadContext, run_bind_of_ok (hstack g hmem), EStateM.run_bind,
    run_modifyGlobals]
  dsimp only
  rw [run_bind_of_ok (run_callMemory_of_ok hkernel (by rfl))]
  simp [ProcessGlobals.modifyThread, preparedThread]

def PreparesThread (M : MemoryManager α) (user : Bool) (t t' : Machine 64 α) :
    Prop :=
  ∀ (g : ProcessGlobals α) (thread : Addr) (entryPoint : Word)
    (state : ThreadState), g.memory = t.globals → ∃ record,
      (setupThreadContext M thread entryPoint user state).run ⟨t.mem, g⟩ =
        .ok () ⟨t'.mem, { g with
          memory := t'.globals
          thread := Function.update g.thread thread record
          threadCount := g.threadCount + 1 }⟩

theorem preparesThread_kernel (hstack : Allocates M THREAD_STACK_SIZE t p t')
    (hkernel : (M.mallocx THREAD_STACK_SIZE).run t' = .ok q t'') :
    PreparesThread M false t t'' :=
  fun _ _ _ _ hmem => ⟨_, run_setupThreadContext_kernel hmem hstack hkernel⟩

theorem run_mapStack {stack physicalAddr : Addr} {b : Bool}
    (hmem : g.memory = t.globals)
    (hphys : (M.toPhysicalAddr stack).run t = .ok physicalAddr t')
    (hmap : (M.map (physicalAddr + 0) (THREAD_STACK_ADDR - THREAD_STACK_SIZE + 0)
      stackFlags).run t' = .ok b t'') :
    (mapStack M stack).run ⟨t.mem, g⟩ =
      .ok () ⟨t''.mem, { g with memory := t''.globals }⟩ := by
  rw [mapStack, run_forLoop_of_lt (t := ⟨t''.mem, { g with
      memory := t''.globals }⟩) (by decide), run_forLoop_of_le (by decide)]
  rw [run_bind_of_ok (run_callMemory_of_ok hphys hmem),
    run_bind_of_ok (run_callMemory_of_ok hmap (by rfl))]
  rfl

theorem preparesThread_user {t₁ t₂ : Machine 64 α} {physicalAddr : Addr}
    {b : Bool} (hstack : Allocates M THREAD_STACK_SIZE t p t')
    (hkernel : (M.mallocx THREAD_STACK_SIZE).run t' = .ok q t'')
    (hphys : (M.toPhysicalAddr p).run t'' = .ok physicalAddr t₁)
    (hmap : (M.map (physicalAddr + 0) (THREAD_STACK_ADDR - THREAD_STACK_SIZE + 0)
      stackFlags).run t₁ = .ok b t₂) : PreparesThread M true t t₂ := by
  intro g thread entryPoint state hmem
  refine ⟨preparedThread (g.thread thread) entryPoint true p q, ?_⟩
  rw [setupThreadContext, run_bind_of_ok (hstack g hmem), EStateM.run_bind,
    run_modifyGlobals]
  dsimp only
  rw [run_bind_of_ok (run_callMemory_of_ok hkernel (by rfl)), EStateM.run_bind,
    run_modifyGlobals]
  simp only [if_true]
  rw [EStateM.run_bind, run_modifyGlobals]
  dsimp only
  rw [run_bind_of_ok (run_mapStack (by rfl) hphys hmap)]
  simp [ProcessGlobals.modifyThread, preparedThread]

def GivesPageMap (M : MemoryManager α) (user : Bool) (t : Machine 64 α)
    (PML4 : Addr) (t' : Machine 64 α) : Prop :=
  ∀ g : ProcessGlobals α, g.memory = t.globals →
    (getPageMap M user).run ⟨t.mem, g⟩ =
      .ok PML4 ⟨t'.mem, { g with memory := t'.globals }⟩

theorem givesPageMap_kernel (M : MemoryManager α) (t : Machine 64 α) :
    GivesPageMap M false t (M.kernelPML4 t.globals) t := by
  rintro g hmem
  rw [← hmem]
  rfl

theorem givesPageMap_user {PML4 : Addr}
    (h : M.newPML4.run t = .ok PML4 t') : GivesPageMap M true t PML4 t' :=
  fun _ hmem => run_callMemory_of_ok h hmem

theorem run_addThreadToList_of_eq {thread : Addr} (hmutex : g.threadMutex = 0)
    (hhead : g.threadHead = 0) (hmem : g.memory = t.globals)
    (hp : Allocates M sizeofThreadList t p t') :
    (addThreadToList M fuel thread).run ⟨t.mem, g⟩ =
      .ok () ⟨t'.mem, { g with
        memory := t'.globals
        threadHead := p
        threadList := Function.update g.threadList p ⟨thread, 0⟩ }⟩ := by
  rw [addThreadToList, lockThreads,
    run_bind_of_ok (run_lock_of_free (s := ⟨t.mem, g⟩) hmutex),
    EStateM.run_bind, EStateM.run_get]
  simp only [if_pos hhead]
  rw [run_bind_of_ok (hp _ (by exact hmem))]
  simp only [EStateM.run_bind, run_modifyGlobals, unlockThreads, run_unlock,
    ProcessGlobals.modifyNode, Function.update_self, Function.update_idem,
    ← hmutex]

theorem run_registerProcess {l : Addr} (process : Addr) (h : g.processCount ≠ 0)
    (hlast : lastNode 0 (fun p => (g.processInternal p).next) fuel
      g.processHead = some l) (m : Bytes) :
    (registerProcess fuel process).run ⟨m, g⟩ =
      .ok () ⟨m, { ((g.modifyInternal l fun record =>
        { record with next := process }).modifyInternal process fun record =>
          { record with next := 0 }) with
            processCount := g.processCount + 1 }⟩ := by
  rw [registerProcess, EStateM.run_bind, EStateM.run_get]
  simp only [if_neg h, hlast]
  rfl

/-- `ensureProcesses` takes the memory from `s` to `t`, and the list of processes
has the record at `processHead` only. -/
def EnsuresHead (M : MemoryManager α) (s : Machine 64 (ProcessGlobals α))
    (processHead : Addr) (t : Machine 64 α) : Prop :=
  s.globals.processHead = 0 ∧
      Allocates M 8 ⟨s.mem, s.globals.memory⟩ processHead t ∨
    s.globals.processHead = processHead ∧
      (s.globals.processInternal processHead).next = 0 ∧
      t = ⟨s.mem, s.globals.memory⟩

theorem EnsuresHead.exists_run {s : Machine 64 (ProcessGlobals α)}
    (h : EnsuresHead M s p t) (hp : p ≠ 0) :
    ∃ internal, (ensureProcesses M).run s = .ok () ⟨t.mem, { s.globals with
        memory := t.globals, processHead := p, processInternal := internal }⟩ ∧
      (internal p).next = 0 := by
  rcases h with ⟨hhead, halloc⟩ | ⟨hhead, hnext, rfl⟩
  · refine ⟨_, run_ensureProcesses_of_eq hhead (by rfl) halloc, ?_⟩
    simp only [ProcessGlobals.modifyInternal, Function.update_self,
      ProcessInternal.zero]
  · refine ⟨s.globals.processInternal, ?_, hnext⟩
    rw [← hhead]
    exact run_ensureProcesses_of_ne (hhead.symm ▸ hp) s.mem

/-- `addThreadToList` adds the thread to the list of `g` and takes the memory from
`t` to `t'`. -/
def AddsNode (M : MemoryManager α) (fuel : ℕ) (g : ProcessGlobals α)
    (thread : Addr) (t t' : Machine 64 α) : Prop :=
  ∀ g' : ProcessGlobals α, g'.memory = t.globals →
    g'.threadMutex = g.threadMutex → g'.threadHead = g.threadHead →
    g'.threadList = g.threadList → ∃ threadHead threadList,
      (addThreadToList M fuel thread).run ⟨t.mem, g'⟩ =
        .ok () ⟨t'.mem, { g' with
          memory := t'.globals
          threadHead := threadHead
          threadList := threadList }⟩

theorem addsNode_of_eq {thread : Addr} (hmutex : g.threadMutex = 0)
    (hhead : g.threadHead = 0) (hp : Allocates M sizeofThreadList t p t') :
    AddsNode M fuel g thread t t' :=
  fun _ hmem hmutex' hhead' _ => ⟨_, _, run_addThreadToList_of_eq
    (hmutex'.trans hmutex) (hhead'.trans hhead) hmem hp⟩

/-- What a call needs besides the memory: the lock is free, the processor is
there, and the count does not come back to 0. -/
structure CanCreate (g : ProcessGlobals α) (cpuID : Word) : Prop where
  processMutex : g.processMutex = 0
  processCount : g.processCount + 1 ≠ 0
  cpu : getCPUInfo g (cpuID.setWidth 32) ≠ 0

/-- What the first process needs: the locks are free, the lists are empty, and
the processor is there. -/
structure BeforeProcesses (g : ProcessGlobals α) (cpuID : Word) : Prop where
  processMutex : g.processMutex = 0
  threadMutex : g.threadMutex = 0
  processHead : g.processHead = 0
  threadHead : g.threadHead = 0
  processCount : g.processCount = 0
  cpu : getCPUInfo g (cpuID.setWidth 32) ≠ 0

theorem BeforeProcesses.canCreate {cpuID : Word} (h : BeforeProcesses g cpuID) :
    CanCreate g cpuID := by
  refine ⟨h.processMutex, ?_, h.cpu⟩
  rw [h.processCount]
  decide

structure AllocatesProcess (M : MemoryManager α) (fuel : ℕ) (user : Bool)
    (thread : Addr) (s : Machine 64 (ProcessGlobals α))
    (processHead processInfo process : Addr) (t₆ : Machine 64 α) : Prop where
  calls : ∃ (t₁ t₂ t₃ t₄ t₅ : Machine 64 α) (PML4 : Addr),
    EnsuresHead M s processHead t₁ ∧
    Allocates M sizeofProcess t₁ processInfo t₂ ∧
    (M.mallocx sizeofProcessInternal).run t₂ = .ok process t₃ ∧
    PreparesThread M user t₃ t₄ ∧
    AddsNode M fuel s.globals thread t₄ t₅ ∧
    GivesPageMap M user t₅ PML4 t₆
  head_ne : processHead ≠ 0
  info_ne : processInfo ≠ 0
  process_ne : process ≠ processHead

structure LeavesCreated (g g' : ProcessGlobals α) (t : Machine 64 α)
    (head process : Addr) : Prop where
  memory : g'.memory = t.globals
  processMutex : g'.processMutex = 0
  threadMutex : g'.threadMutex = g.threadMutex
  processCount : g'.processCount = g.processCount + 1 + 1
  processHead : g'.processHead = head
  next : (g'.processInternal head).next = process
  cpu : ∀ cpuNumber, getCPUInfo g' cpuNumber = getCPUInfo g cpuNumber

/-- The thread of a process. -/
theorem run_createThreadInternal {user : Bool} {t₃ t₄ t₅ : Machine 64 α}
    {cpuID : Word} (thread : Addr) (entrypoint : Word)
    (priority : ThreadPriority) (state : ThreadState)
    (hmem : g.memory = t₃.globals) (hhead : g.processHead ≠ 0)
    (hcpu : getCPUInfo g (cpuID.setWidth 32) ≠ 0)
    (h₄ : PreparesThread M user t₃ t₄)
    (h₅ : AddsNode M fuel g thread t₄ t₅) :
    ∃ records threadHead threadList, (createThreadInternal M fuel thread
        entrypoint priority cpuID state user).run ⟨t₃.mem, g⟩ =
      .ok thread ⟨t₅.mem, { g with
        memory := t₅.globals
        thread := records
        threadHead := threadHead
        threadList := threadList
        threadCount := g.threadCount + 1
        processCount := g.processCount + 1 }⟩ := by
  obtain ⟨record, hsetup⟩ := h₄ g thread entrypoint state hmem
  obtain ⟨threadHead, threadList, hadd⟩ := h₅ { g with
      memory := t₄.globals
      thread := Function.update g.thread thread
        { record with priority := priority, cpuID := cpuID }
      threadCount := g.threadCount + 1 } rfl rfl rfl rfl
  refine ⟨Function.update g.thread thread
    { record with priority := priority, cpuID := cpuID }, threadHead,
    threadList, ?_⟩
  rw [createThreadInternal,
    run_bind_of_ok (run_ensureProcesses_of_ne hhead _), EStateM.run_bind,
    EStateM.run_get]
  dsimp only
  rw [if_neg hcpu, run_bind_of_ok hsetup, EStateM.run_bind, run_modifyGlobals]
  simp only [ProcessGlobals.modifyThread, Function.update_self,
    Function.update_idem]
  rw [run_bind_of_ok hadd, EStateM.run_bind, run_modifyGlobals]
  simp only [EStateM.run_pure]

theorem run_createThread {locals : UninitLocals} {routine : Routine}
    {threadInfo PML4 processInfo process : Addr}
    {s s₁ s₂ s₃ : Machine 64 (ProcessGlobals α)}
    (hthread : (createThreadInternal M fuel locals.thread routine.entryPoint
      routine.priority routine.cpuID routine.state routine.user).run s =
        .ok threadInfo s₁)
    (hmap : (getPageMap M routine.user).run ⟨s₁.mem,
      s₁.globals.modifyThread threadInfo fun record =>
        { record with threadID := ((s₁.globals.processInternal
          process).threadCount + 1).setWidth 64 }⟩ = .ok PML4 s₂)
    (hregister : (registerProcess fuel process).run ⟨s₂.mem,
      recordProcess process processInfo threadInfo PML4 s₂.globals⟩ =
        .ok () s₃) :
    (createThread M fuel locals routine processInfo process).run s =
      .ok processInfo ⟨s₃.mem, { s₃.globals with
        processMutex := 0, interrupts := true }⟩ := by
  have hcurrent : (recordProcess process processInfo threadInfo PML4
      s₂.globals).currentProcessInternal = process := rfl
  rw [createThread, run_bind_of_ok hthread, EStateM.run_bind, run_modifyGlobals]
  dsimp only
  rw [run_bind_of_ok hmap, EStateM.run_bind, run_modifyGlobals]
  dsimp only
  rw [EStateM.run_bind, EStateM.run_get]
  dsimp only
  rw [hcurrent, run_bind_of_ok hregister]
  simp only [EStateM.run_bind, run_unlock, run_modifyGlobals, EStateM.run_pure]

/-- The process gets its thread and is registered. -/
theorem exists_run_createThread (fuel : ℕ) (locals : UninitLocals)
    (routine : Routine) (processInfo process : Addr) (g : ProcessGlobals α)
    {PML4 : Addr} {t₃ t₄ t₅ t₆ : Machine 64 α}
    (hmem : g.memory = t₃.globals) (hhead : g.processHead ≠ 0)
    (hcpu : getCPUInfo g (routine.cpuID.setWidth 32) ≠ 0)
    (hcount : g.processCount + 1 ≠ 0) (hne : process ≠ g.processHead)
    (hnext : (g.processInternal g.processHead).next = 0)
    (h₄ : PreparesThread M routine.user t₃ t₄)
    (h₅ : AddsNode M (fuel + 1) g locals.thread t₄ t₅)
    (h₆ : GivesPageMap M routine.user t₅ PML4 t₆) :
    ∃ g', (createThread M (fuel + 1) locals routine processInfo process).run
        ⟨t₃.mem, g⟩ = .ok processInfo ⟨t₆.mem, g'⟩ ∧
      LeavesCreated g g' t₆ g.processHead process := by
  obtain ⟨records, threadHead, threadList, hthread⟩ :=
    run_createThreadInternal (M := M) (g := g) locals.thread
      routine.entryPoint routine.priority routine.state hmem hhead hcpu h₄ h₅
  obtain ⟨g₄, hg₄⟩ : ∃ g₄ : ProcessGlobals α, { g with
      memory := t₅.globals
      thread := records
      threadHead := threadHead
      threadList := threadList
      threadCount := g.threadCount + 1
      processCount := g.processCount + 1 } = g₄ := ⟨_, rfl⟩
  rw [hg₄] at hthread
  obtain ⟨g₅, hg₅⟩ : ∃ g₅, (g₄.modifyThread locals.thread fun record =>
      { record with threadID :=
          ((g₄.processInternal process).threadCount + 1).setWidth 64 }) = g₅ :=
    ⟨_, rfl⟩
  have hcount₅ : g₅.processCount = g.processCount + 1 := by
    rw [← hg₅, ← hg₄]
    rfl
  have hhead₅ : g₅.processHead = g.processHead := by
    rw [← hg₅, ← hg₄]
    rfl
  have hmap := h₆ g₅ (by rw [← hg₅, ← hg₄]; rfl)
  obtain ⟨g₆, hg₆⟩ : ∃ g₆, recordProcess process processInfo locals.thread PML4
      { g₅ with memory := t₆.globals } = g₆ := ⟨_, rfl⟩
  have hnext₆ : (g₆.processInternal g.processHead).next = 0 := by
    rw [← hg₆, ← hg₅, ← hg₄, ← hnext]
    simp [recordProcess, processInternalToProcess,
      ProcessGlobals.modifyProcess, ProcessGlobals.modifyThread,
      ProcessGlobals.modifyInternal, Function.update_of_ne (Ne.symm hne)]
  have hhead₆ : g₆.processHead = g.processHead := by
    rw [← hg₆, ← hhead₅]
    rfl
  have hcount₆ : g₆.processCount = g.processCount + 1 := by
    rw [← hg₆, ← hcount₅]
    rfl
  have hlast : lastNode 0 (fun p => (g₆.processInternal p).next) (fuel + 1)
      g₆.processHead = some g.processHead := by
    rw [hhead₆, lastNode, if_pos hnext₆]
  have hregister := run_registerProcess process
    (hcount₆.symm ▸ hcount) hlast t₆.mem
  rw [← hg₅] at hmap
  have hrun := run_createThread hthread hmap (by
    dsimp only
    rw [hg₅, hg₆]
    exact hregister)
  have hnext : ∀ h : process ≠ g.processHead,
      (((g₆.modifyInternal g.processHead fun record =>
        { record with next := process }).modifyInternal process fun record =>
          { record with next := 0 }).processInternal g.processHead).next =
        process := fun h => by
    simp only [ProcessGlobals.modifyInternal, Function.update_of_ne h.symm,
      Function.update_self]
  refine ⟨_, hrun, ?_, rfl, ?_, ?_, hhead₆, hnext hne, fun cpuNumber => ?_⟩
  · change g₆.memory = t₆.globals
    rw [← hg₆]
    rfl
  · change g₆.threadMutex = g.threadMutex
    rw [← hg₆, ← hg₅, ← hg₄]
    rfl
  · change g₆.processCount + 1 = _
    rw [hcount₆]
  · change getCPUInfo g₆ cpuNumber = getCPUInfo g cpuNumber
    rw [← hg₆, ← hg₅, ← hg₄]
    rfl

/-- A process is created. -/
theorem exists_run_createProcessFromRoutine (fuel : ℕ) (locals : UninitLocals)
    (routine : Routine) {s : Machine 64 (ProcessGlobals α)} {t₆ : Machine 64 α}
    {processHead processInfo process : Addr}
    (h : CanCreate s.globals routine.cpuID) (hlocal : locals.threadInfo ≠ 0)
    (hcalls : AllocatesProcess M (fuel + 1) routine.user locals.thread s
      processHead processInfo process t₆) :
    ∃ g', (createProcessFromRoutine M (fuel + 1) locals routine).run s =
        .ok processInfo ⟨t₆.mem, g'⟩ ∧
      LeavesCreated s.globals g' t₆ processHead process := by
  obtain ⟨⟨t₁, t₂, t₃, t₄, t₅, PML4, h₁, h₂, h₃, h₄, h₅, h₆⟩, hhead, hinfo,
    hne⟩ := hcalls
  obtain ⟨internal, hensure, hnext⟩ := EnsuresHead.exists_run (s := ⟨s.mem,
    { s.globals with interrupts := false, processMutex := 1 }⟩) h₁ hhead
  rw [createProcessFromRoutine, EStateM.run_bind, run_modifyGlobals]
  dsimp only
  rw [run_bind_of_ok (run_lock_of_free (by exact h.processMutex))]
  dsimp only
  rw [run_bind_of_ok hensure, run_bind_of_ok (h₂ _ (by rfl)), EStateM.run_bind,
    run_modifyGlobals]
  dsimp only
  rw [run_bind_of_ok (setupProcessInfo_eq_ok.2
      ⟨_, run_callMemory_of_ok h₃ (by rfl), by rfl⟩),
    if_neg hinfo, if_neg hlocal]
  obtain ⟨g₃, hg₃⟩ : ∃ g₃ : ProcessGlobals α, setupRecord process
      { ({ s.globals with
        interrupts := false
        processMutex := 1
        processHead := processHead
        processInternal := internal
        memory := t₂.globals }.modifyProcess processInfo fun _ => .zero) with
          memory := t₃.globals } = g₃ := ⟨_, rfl⟩
  have hhead₃ : g₃.processHead = processHead := hg₃ ▸ rfl
  have hnext₃ : (g₃.processInternal g₃.processHead).next = 0 := by
    rw [hhead₃, ← hg₃, setupRecord, ProcessGlobals.modifyInternal]
    exact (congrArg ProcessInternal.next
      (Function.update_of_ne (Ne.symm hne) _ _)).trans hnext
  obtain ⟨g', hrun, hleaves⟩ := exists_run_createThread fuel locals routine
    processInfo process g₃ (hg₃ ▸ rfl) (hhead₃.symm ▸ hhead) (hg₃ ▸ h.cpu)
    (hg₃ ▸ h.processCount) (hhead₃.symm ▸ hne) hnext₃ h₄ (hg₃ ▸ h₅) h₆
  subst hg₃
  exact ⟨g', hrun, hleaves.memory, hleaves.processMutex, hleaves.threadMutex,
    hleaves.processCount, hleaves.processHead, hleaves.next, hleaves.cpu⟩

end Kernel

end OptimistOS
