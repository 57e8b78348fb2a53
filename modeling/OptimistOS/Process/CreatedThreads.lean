import OptimistOS.Process.HeapBlocks
import OptimistOS.Process.KernelBlocks
import OptimistOS.Process.ThreadNodes
import OptimistOS.Scheduler.Rounds

/-!
# Threads that are created and scheduled

What a run of calls of `createProcessFromRoutine` leaves to the scheduler: a list
that starts with the threads created, all ready and all with the thread ID 2. The
first node of the list is a frame and the others are blocks of the heap, so no
later call touches the first one. The threads are each dispatched once exactly
when there are two of them, with different records that are not null.
-/

namespace OptimistOS

open ByteMemory ByteMemory.Code LinkedList Transition

variable {α : Type} {M : MemoryManager α} {P : Machine 64 α → Prop}
  {IsFrame : Addr → Prop}

/-- A new node behind the last one. -/
theorem StartsList.linkNode {threadHead l p thread : Addr}
    {threadList : Addr → ThreadList} {ts : List Addr} {fuel : ℕ}
    (h : StartsList threadHead threadList ts) (hts : ts ≠ [])
    (hlast : lastNode 0 (fun p => (threadList p).next) fuel threadHead = some l)
    (hp : p ≠ 0) (hhead : p ≠ threadHead) :
    StartsList threadHead (linkNode threadList l p thread) (ts ++ [thread]) := by
  obtain ⟨t, us, rfl⟩ := List.exists_cons_of_ne_nil hts
  obtain ⟨hne, hinfo, hnext⟩ := h
  have hl : (threadList l).next = 0 := next_of_lastNode hlast
  have hnew : OptimistOS.linkNode threadList l p thread p = ⟨thread, 0⟩ := by
    rw [OptimistOS.linkNode, Function.update_self]
  have hinfos : ∀ q ≠ p, (OptimistOS.linkNode threadList l p thread
      q).threadInfo = (threadList q).threadInfo := by
    intro q hq
    rw [OptimistOS.linkNode, Function.update_of_ne hq]
    by_cases hql : q = l
    · rw [hql, Function.update_self]
    · rw [Function.update_of_ne hql]
  refine ⟨hne, (hinfos _ hhead.symm).trans hinfo, ?_⟩
  rw [if_neg (by simp)]
  by_cases hus : us = []
  · -- the first node is the last one
    rw [if_pos hus] at hnext
    have hlhead : l = threadHead := by
      cases fuel with
      | zero => exact absurd hlast (by simp [lastNode])
      | succ fuel =>
          rw [lastNode, if_pos hnext] at hlast
          exact (Option.some.inj hlast).symm
    have hsecond : (OptimistOS.linkNode threadList l p thread
        threadHead).next = p := by
      rw [OptimistOS.linkNode, Function.update_of_ne hhead.symm, hlhead,
        Function.update_self]
    rw [hsecond, hnew]
    exact ⟨hp, by simp⟩
  · rw [if_neg hus] at hnext
    have hhl : threadHead ≠ l := by
      rintro rfl
      exact hnext.1 hl
    have hsecond : (OptimistOS.linkNode threadList l p thread
        threadHead).next = (threadList threadHead).next := by
      rw [OptimistOS.linkNode, Function.update_of_ne hhead.symm,
        Function.update_of_ne hhl]
    rw [hsecond]
    refine ⟨hnext.1, ?_⟩
    by_cases hq : (threadList threadHead).next = p
    · rw [hq, hnew]
      simp
    · rw [hinfos _ hq]
      exact List.mem_append_left _ hnext.2

/-- The thread list starts with the threads `ts`, and its first node is a
frame. -/
structure ThreadsListed (P : Machine 64 α → Prop) (IsFrame : Addr → Prop)
    (s : Machine 64 (ProcessGlobals α)) (ts : List Addr) : Prop where
  memory : OnMemory P s
  nodes : StartsList s.globals.threadHead s.globals.threadList ts
  frame : ts ≠ [] → IsFrame s.globals.threadHead

/-- `addThreadToList` adds the thread. The block for its node is not the frame of
the first node. -/
theorem ThreadsListed.addThreadToList {fuel : ℕ} {thread : Addr}
    {s s' : Machine 64 (ProcessGlobals α)} {ts : List Addr}
    (hblocks : ThreadBlocks M P IsFrame) (h : ThreadsListed P IsFrame s ts)
    (hrun : (addThreadToList M fuel thread).run s = .ok () s') :
    ThreadsListed P IsFrame s' (ts ++ [thread]) ∧
      ∃ memory threadHead threadList, s'.globals = { s.globals with
        memory := memory
        threadHead := threadHead
        threadList := threadList } := by
  have hmemory := hblocks.keeps.addThreadToList fuel thread s () s' h.memory
    hrun
  rcases addThreadToList_eq_ok hrun with
    ⟨-, ⟨hhead, p, t, hp, rfl⟩ | ⟨hhead, l, p, t, hlast, hp, rfl⟩⟩
  · obtain ⟨hne, hframe⟩ := hblocks.frame _ _ _ _ h.memory hp
    have hts : ts = [] := by
      cases ts with
      | nil => rfl
      | cons t us => exact absurd hhead h.nodes.1
    refine ⟨⟨hmemory, ?_, fun _ => hframe⟩, _, _, _, rfl⟩
    rw [hts]
    exact ⟨hne, by simp⟩
  · obtain ⟨hne, hframe⟩ := hblocks.node _ _ _ h.memory hp
    have hts : ts ≠ [] := by
      rintro rfl
      exact hhead h.nodes
    refine ⟨⟨hmemory, h.nodes.linkNode hts hlast hne ?_, fun _ => h.frame hts⟩, _,
      _, _, rfl⟩
    rintro rfl
    exact hframe (h.frame hts)

/-- What `createThreadInternal` does to the thread records and to the list. -/
theorem createThreadInternal_thread {fuel : ℕ} {thread p : Addr}
    {entrypoint : Word} {priority : ThreadPriority} {cpuID : Word}
    {state : ThreadState} {user : Bool} {ts : List Addr}
    {s s' : Machine 64 (ProcessGlobals α)}
    (hblocks : ThreadBlocks M P IsFrame) (hlisted : ThreadsListed P IsFrame s ts)
    (hhead : s.globals.processHead ≠ 0)
    (h : (createThreadInternal M fuel thread entrypoint priority cpuID state
      user).run s = .ok p s') :
    p = thread ∧ ThreadsListed P IsFrame s' (ts ++ [thread]) ∧
      (∀ u ≠ thread, s'.globals.thread u = s.globals.thread u) ∧
      (s'.globals.thread thread).lock = 0 ∧
      s'.globals.threadCount = s.globals.threadCount + 1 ∧
      s'.globals.processInternal = s.globals.processInternal := by
  obtain ⟨rfl, s₁, s₂, s₃, hensure, hsetup, hadd, rfl⟩ :=
    createThreadInternal_eq_ok h
  obtain ⟨-, rfl⟩ := (ensureProcesses_eq_ok hensure).resolve_right
    fun hc => hhead hc.1
  obtain ⟨stack, kernelStack, hglobals⟩ := setupThreadContext_eq_ok hsetup
  have hmemory : OnMemory P s₂ :=
    hblocks.keeps.setupThreadContext _ _ _ _ _ _ _ hlisted.memory hsetup
  have hlisted₂ : ThreadsListed P IsFrame ⟨s₂.mem, s₂.globals.modifyThread p
      fun record => { record with priority := priority, cpuID := cpuID }⟩
        ts := by
    refine ⟨hmemory, ?_, ?_⟩
    · rw [hglobals]
      exact hlisted.nodes
    · rw [hglobals]
      exact hlisted.frame
  obtain ⟨hlisted₃, memory, threadHead, threadList, h₃⟩ :=
    hlisted₂.addThreadToList hblocks hadd
  refine ⟨rfl, ⟨hlisted₃.memory, hlisted₃.nodes, hlisted₃.frame⟩,
    fun u hu => ?_, ?_, ?_, ?_⟩
  · change s₃.globals.thread u = _
    rw [h₃]
    change Function.update s₂.globals.thread p _ u = _
    rw [Function.update_of_ne hu, hglobals]
    exact Function.update_of_ne hu _ _
  · change (s₃.globals.thread p).lock = 0
    rw [h₃]
    change (Function.update s₂.globals.thread p _ p).lock = 0
    rw [Function.update_self, hglobals]
    change (Function.update s₁.globals.thread p _ p).lock = 0
    rw [Function.update_self]
    rfl
  · change s₃.globals.threadCount = _
    rw [h₃]
    change s₂.globals.threadCount = _
    rw [hglobals]
  · change s₃.globals.processInternal = _
    rw [h₃]
    change s₂.globals.processInternal = _
    rw [hglobals]

theorem ThreadBlocks.keeps_getPageMap (h : ThreadBlocks M P IsFrame)
    (user : Bool) : Keeps (OnMemory P) (getPageMap M user) := by
  cases user with
  | true => exact keeps_callMemory h.newPML4
  | false => exact .bind .get fun _ => .pure _

theorem registerProcess_threads {fuel : ℕ} {process : Addr}
    {s s' : Machine 64 (ProcessGlobals α)}
    (h : (registerProcess fuel process).run s = .ok () s') :
    s'.globals.thread = s.globals.thread ∧
      s'.globals.threadList = s.globals.threadList ∧
      s'.globals.threadHead = s.globals.threadHead ∧
      s'.globals.threadCount = s.globals.threadCount := by
  rcases registerProcess_eq_ok h with ⟨-, rfl⟩ | ⟨-, l, -, rfl⟩ <;>
    exact ⟨rfl, rfl, rfl, rfl⟩

theorem registerProcess_processHead {fuel : ℕ} {process : Addr}
    {s s' : Machine 64 (ProcessGlobals α)} (hcount : s.globals.processCount ≠ 0)
    (h : (registerProcess fuel process).run s = .ok () s') :
    s'.globals.processHead = s.globals.processHead := by
  obtain ⟨-, l, -, rfl⟩ := (registerProcess_eq_ok h).resolve_left
    fun hzero => hcount hzero.1
  rfl

/-- The thread that `createProcessFromRoutine` has created. -/
structure ReadyThread (record : Thread) : Prop where
  threadID : record.threadID = 2
  lock : record.lock = 0
  parentProcess : record.parentProcess ≠ 0

/-- Between the thread and the end of `createThread` the record of the thread gets
its ID and its process. The process is counted already, so the head of the list of
processes stays. -/
theorem registersThread {fuel : ℕ} {user : Bool} {threadID : Word}
    {thread PML4 processInfo process : Addr}
    {s₁ s₂ s₃ : Machine 64 (ProcessGlobals α)}
    (hcount : s₁.globals.processCount ≠ 0)
    (hmap : (getPageMap M user).run ⟨s₁.mem, s₁.globals.modifyThread thread
      fun record => { record with threadID := threadID }⟩ = .ok PML4 s₂)
    (hregister : (registerProcess fuel process).run ⟨s₂.mem,
      recordProcess process processInfo thread PML4 s₂.globals⟩ = .ok () s₃) :
    s₃.globals.thread = Function.update s₁.globals.thread thread
        { s₁.globals.thread thread with
          threadID := threadID
          parentProcess := processInfo } ∧
      s₃.globals.threadList = s₁.globals.threadList ∧
      s₃.globals.threadHead = s₁.globals.threadHead ∧
      s₃.globals.threadCount = s₁.globals.threadCount ∧
      s₃.globals.processHead = s₁.globals.processHead := by
  have hsame := (sameProcesses_getPageMap hmap).eq
  obtain ⟨hthread, hlist, hhead, hthreads⟩ := registerProcess_threads hregister
  have hcount₂ : s₂.globals.processCount ≠ 0 := by
    rw [hsame]
    exact hcount
  have hprocessHead := registerProcess_processHead (by exact hcount₂) hregister
  refine ⟨?_, ?_, ?_, ?_, ?_⟩
  · rw [hthread]
    change Function.update s₂.globals.thread thread
      { s₂.globals.thread thread with parentProcess := processInfo } = _
    rw [hsame]
    simp [ProcessGlobals.modifyThread]
  · rw [hlist]
    change s₂.globals.threadList = _
    rw [hsame]
    rfl
  · rw [hhead]
    change s₂.globals.threadHead = _
    rw [hsame]
    rfl
  · rw [hthreads]
    change s₂.globals.threadCount = _
    rw [hsame]
    rfl
  · rw [hprocessHead]
    change s₂.globals.processHead = _
    rw [hsame]
    rfl

theorem createThread_thread {fuel : ℕ} {locals : UninitLocals}
    {routine : Routine} {processInfo process p : Addr} {ts : List Addr}
    {s s' : Machine 64 (ProcessGlobals α)}
    (hblocks : ThreadBlocks M P IsFrame) (hlisted : ThreadsListed P IsFrame s ts)
    (hhead : s.globals.processHead ≠ 0) (hinfo : processInfo ≠ 0)
    (hcount : s.globals.processCount + 1 ≠ 0)
    (hone : (s.globals.processInternal process).threadCount = 1)
    (h : (createThread M fuel locals routine processInfo process).run s =
      .ok p s') :
    ThreadsListed P IsFrame s' (ts ++ [locals.thread]) ∧
      (∀ u ≠ locals.thread, s'.globals.thread u = s.globals.thread u) ∧
      ReadyThread (s'.globals.thread locals.thread) ∧
      s'.globals.threadCount = s.globals.threadCount + 1 ∧
      s'.globals.processHead ≠ 0 := by
  obtain ⟨-, threadInfo, s₁, PML4, s₂, s₃, hthread, hmap, hregister, rfl⟩ :=
    createThread_eq_ok h
  obtain ⟨rfl, hlisted₁, hother, hlock, hthreads, hinternal⟩ :=
    createThreadInternal_thread hblocks hlisted hhead hthread
  have hhead₁ := processHead_createThreadInternal hthread hhead
  have hcount₁ := processCount_createThreadInternal hthread
  have hmemory : OnMemory P s₂ := by
    refine hblocks.keeps_getPageMap _ _ _ _ ?_ hmap
    exact hlisted₁.memory
  obtain ⟨hmem₃, hmemory₃, -, -⟩ := registerProcess_tables hregister
  obtain ⟨hrecords, hlist, hthreadHead, hthreadCount, hprocessHead⟩ :=
    registersThread (hcount₁.symm ▸ hcount) hmap hregister
  refine ⟨⟨?_, ?_, ?_⟩, fun u hu => ?_, ?_, ?_, ?_⟩
  · change P ⟨s₃.mem, s₃.globals.memory⟩
    rw [hmem₃, hmemory₃]
    exact hmemory
  · change StartsList s₃.globals.threadHead s₃.globals.threadList _
    rw [hlist, hthreadHead]
    exact hlisted₁.nodes
  · change _ → IsFrame s₃.globals.threadHead
    rw [hthreadHead]
    exact hlisted₁.frame
  · change s₃.globals.thread u = _
    rw [hrecords, Function.update_of_ne hu]
    exact hother u hu
  · change ReadyThread (s₃.globals.thread locals.thread)
    rw [hrecords, Function.update_self]
    refine ⟨?_, hlock, hinfo⟩
    rw [hinternal, hone]
    rfl
  · exact hthreadCount.trans hthreads
  · change s₃.globals.processHead ≠ 0
    rw [hprocessHead, hhead₁]
    exact hhead

/-- The parts of the globals that the scheduler reads of the threads, and the
count of the processes. -/
structure SameThreadRecords (g g' : ProcessGlobals α) : Prop where
  thread : g'.thread = g.thread
  threadList : g'.threadList = g.threadList
  threadHead : g'.threadHead = g.threadHead
  threadCount : g'.threadCount = g.threadCount
  processCount : g'.processCount = g.processCount

theorem SameProcesses.sameThreadRecords {g g' : ProcessGlobals α}
    (h : SameProcesses g g') : SameThreadRecords g g' := by
  constructor <;> rw [h.eq]

theorem SameThreadRecords.trans {g g' g'' : ProcessGlobals α}
    (h : SameThreadRecords g g') (h' : SameThreadRecords g' g'') :
    SameThreadRecords g g'' :=
  ⟨h'.thread.trans h.thread, h'.threadList.trans h.threadList,
    h'.threadHead.trans h.threadHead, h'.threadCount.trans h.threadCount,
    h'.processCount.trans h.processCount⟩

/-- The head of the list of processes is there, and the threads are as they
were. -/
theorem ThreadBlocks.ensureProcesses {s s' : Machine 64 (ProcessGlobals α)}
    (hblocks : ThreadBlocks M P IsFrame) (hs : OnMemory P s)
    (h : (ensureProcesses M).run s = .ok () s') :
    s'.globals.processHead ≠ 0 ∧ SameThreadRecords s.globals s'.globals := by
  rcases ensureProcesses_eq_ok h with ⟨hne, rfl⟩ | ⟨-, p, t, hp, rfl⟩
  · exact ⟨hne, rfl, rfl, rfl, rfl, rfl⟩
  · have hsame := (sameProcesses_allocateVirtual hp).sameThreadRecords
    obtain ⟨u, hu, rfl⟩ := run_callMemory_eq_ok.1 (allocateVirtual_eq_ok.1 hp)
    exact ⟨(hblocks.frame _ _ _ _ hs hu).1, hsame.thread, hsame.threadList,
      hsame.threadHead, hsame.threadCount, hsame.processCount⟩

/-- The threads `ts` are created, and the list starts with them. Every process
is counted twice, so the count is even. -/
structure ThreadsCreated (P : Machine 64 α → Prop) (IsFrame : Addr → Prop)
    (s : Machine 64 (ProcessGlobals α)) (ts : List Addr) : Prop where
  listed : ThreadsListed P IsFrame s ts
  ready : ∀ t ∈ ts, ReadyThread (s.globals.thread t)
  threadCount : s.globals.threadCount = BitVec.ofNat 64 ts.length
  processHead : ts ≠ [] → s.globals.processHead ≠ 0
  processCount : s.globals.processCount.toNat % 2 = 0

/-- What a call has done when it comes to the thread. -/
theorem ThreadsListed.beforeThread {processInfo process : Addr}
    {ts : List Addr} {s s₁ s₂ s₃ : Machine 64 (ProcessGlobals α)}
    (hblocks : ThreadBlocks M P IsFrame) (hlisted : ThreadsListed P IsFrame s ts)
    (hensure : (ensureProcesses M).run ⟨s.mem, { s.globals with
      interrupts := false, processMutex := 1 }⟩ = .ok () s₁)
    (hinfo : (allocateVirtual M sizeofProcess).run s₁ = .ok processInfo s₂)
    (hprocess : (setupProcessInfo M).run ⟨s₂.mem,
      s₂.globals.modifyProcess processInfo fun _ => .zero⟩ = .ok process s₃) :
    ThreadsListed P IsFrame s₃ ts ∧ SameThreadRecords s.globals s₃.globals ∧
      s₃.globals.processHead ≠ 0 ∧ processInfo ≠ 0 ∧
      (s₃.globals.processInternal process).threadCount = 1 := by
  have hkeeps := hblocks.keeps
  have hmemory₁ : OnMemory P s₁ := by
    refine hkeeps.ensureProcesses _ _ _ ?_ hensure
    exact hlisted.memory
  have hmemory₂ : OnMemory P s₂ :=
    hkeeps.allocateVirtual _ _ _ _ hmemory₁ hinfo
  have hmemory₃ : OnMemory P s₃ := by
    refine hkeeps.setupProcessInfo _ _ _ ?_ hprocess
    exact hmemory₂
  obtain ⟨hhead₁, hsame₁⟩ := hblocks.ensureProcesses
    (by exact hlisted.memory) hensure
  obtain ⟨t, hblock, rfl⟩ := setupProcessInfo_eq_ok.1 hprocess
  have hinfo₂ := sameProcesses_allocateVirtual hinfo
  have hblock₃ := sameProcesses_callMemory hblock
  have hstored := hblock₃.sameThreadRecords
  -- the mutex and the lock are not among the records
  have hstart : SameThreadRecords s.globals s₁.globals :=
    ⟨hsame₁.thread, hsame₁.threadList, hsame₁.threadHead, hsame₁.threadCount,
      hsame₁.processCount⟩
  have hsame : SameThreadRecords s.globals t.globals :=
    (hstart.trans hinfo₂.sameThreadRecords).trans ⟨hstored.thread,
      hstored.threadList, hstored.threadHead, hstored.threadCount,
      hstored.processCount⟩
  refine ⟨⟨hmemory₃, ?_, ?_⟩, ⟨hsame.thread, hsame.threadList,
    hsame.threadHead, hsame.threadCount, hsame.processCount⟩, ?_, ?_, ?_⟩
  · change StartsList t.globals.threadHead t.globals.threadList ts
    rw [hsame.threadList, hsame.threadHead]
    exact hlisted.nodes
  · change ts ≠ [] → IsFrame t.globals.threadHead
    rw [hsame.threadHead]
    exact hlisted.frame
  · change t.globals.processHead ≠ 0
    rw [hblock₃.eq]
    change s₂.globals.processHead ≠ 0
    rw [hinfo₂.eq]
    exact hhead₁
  · obtain ⟨u, hu, rfl⟩ :=
      run_callMemory_eq_ok.1 (allocateVirtual_eq_ok.1 hinfo)
    exact (hblocks.frame _ _ _ _ hmemory₁ hu).1
  · simp [setupRecord, ProcessGlobals.modifyInternal]

/-- One call: it creates a thread, or it gives up at its variable. -/
theorem ThreadsCreated.createStep {fuel : ℕ} {c : Created} {ts : List Addr}
    {s s' : Machine 64 (ProcessGlobals α)} (hblocks : ThreadBlocks M P IsFrame)
    (h : ThreadsCreated P IsFrame s ts) (hstep : CreateStep M fuel s c s') :
    ThreadsCreated P IsFrame s'
      (ts ++ if c.locals.threadInfo = 0 then [] else [c.locals.thread]) := by
  obtain ⟨-, s₁, processInfo, s₂, process, s₃, hensure, hinfo, hprocess,
    hend⟩ := createProcessFromRoutine_eq_ok hstep.1
  obtain ⟨hlisted₃, hsame, hhead₃, hne, hone⟩ :=
    h.listed.beforeThread hblocks hensure hinfo hprocess
  rcases hend with ⟨hnull, -, rfl⟩ | ⟨-, hlocal, hthread⟩
  · have hlocal := hnull.resolve_left hne
    rw [if_pos hlocal, List.append_nil]
    refine ⟨hlisted₃, fun u hu => ?_, ?_, fun _ => hhead₃, ?_⟩
    · rw [hsame.thread]
      exact h.ready u hu
    · rw [hsame.threadCount]
      exact h.threadCount
    · rw [hsame.processCount]
      exact h.processCount
  · have heven := h.processCount
    have hodd : s₃.globals.processCount + 1 ≠ 0 := by
      intro hzero
      have hnat := congrArg BitVec.toNat hzero
      rw [hsame.processCount, BitVec.toNat_add] at hnat
      change (s.globals.processCount.toNat + 1) % 2 ^ 64 = 0 at hnat
      omega
    obtain ⟨hlisted', hother, hready, hcount, hhead'⟩ :=
      createThread_thread hblocks hlisted₃ hhead₃ hne hodd hone hthread
    have hp : c.processInfo = processInfo := (createThread_eq_ok hthread).1
    rw [if_neg hlocal]
    refine ⟨hlisted', fun u hu => ?_, ?_, fun _ => hhead', ?_⟩
    · by_cases hu' : u = c.locals.thread
      · exact hu' ▸ hready
      · have hmem : u ∈ ts := (List.mem_append.1 hu).resolve_right
          fun hc => hu' (List.mem_singleton.1 hc)
        rw [hother u hu', hsame.thread]
        exact h.ready u hmem
    · rw [hcount, List.length_append, List.length_singleton, BitVec.ofNat_add,
        hsame.threadCount, h.threadCount]
      rfl
    · rw [processCount_createProcessFromRoutine hstep.1 (hp ▸ hne),
        BitVec.toNat_add]
      change (s.globals.processCount.toNat + 2) % 2 ^ 64 % 2 = 0
      omega

def createdThreads (cs : List Created) : List Addr :=
  (cs.filter fun c => c.locals.threadInfo ≠ 0).map fun c => c.locals.thread

theorem createdThreads_snoc (cs : List Created) (c : Created) :
    createdThreads (cs ++ [c]) = createdThreads cs ++
      if c.locals.threadInfo = 0 then [] else [c.locals.thread] := by
  rw [createdThreads, List.filter_append, List.map_append, List.filter_singleton]
  by_cases h : c.locals.threadInfo = 0
  · rw [decide_eq_false (not_not_intro h), cond_false, if_pos h]
    rfl
  · rw [decide_eq_true h, cond_true, if_neg h]
    rfl

theorem ThreadsCreated.run {fuel : ℕ} {cs : List Created}
    {s₀ s : Machine 64 (ProcessGlobals α)} (hblocks : ThreadBlocks M P IsFrame)
    (h : ThreadsCreated P IsFrame s₀ [])
    (hrun : Run (CreateStep M fuel) s₀ cs s) :
    ThreadsCreated P IsFrame s (createdThreads cs) := by
  induction hrun with
  | nil => exact h
  | @snoc cs s s' c hrun hstep ih =>
      rw [createdThreads_snoc]
      exact ih.createStep hblocks hstep

section

variable {τ : Type} {T : SizeTable τ} {fuel heapFuel listFuel : ℕ}
  {R : UsableRegion} {hlow : R.start.toNat + R.length.toNat ≤ 2 ^ 52}
  {s₀ s : Machine 64 (ProcessGlobals (KernelGlobals τ))} {cs : List Created}

/-- No process was created yet, and the memory is in order. -/
structure NoProcesses (T : SizeTable τ) (fuel : ℕ) (R : UsableRegion)
    (hlow : R.start.toNat + R.length.toNat ≤ 2 ^ 52)
    (s : Machine 64 (ProcessGlobals (KernelGlobals τ))) : Prop where
  memory : OnMemory (MemoryReady T fuel R hlow) s
  threadHead : s.globals.threadHead = 0
  threadCount : s.globals.threadCount = 0
  processCount : s.globals.processCount = 0

theorem NoProcesses.threadsCreated (h : NoProcesses T fuel R hlow s) :
    ThreadsCreated (MemoryReady T fuel R hlow) (IsFramePointer R) s [] := by
  refine ⟨⟨h.memory, h.threadHead, ?_⟩, by simp,
    h.threadCount, ?_, ?_⟩
  · exact fun hne => absurd rfl hne
  · exact fun hne => absurd rfl hne
  · rw [h.processCount]
    rfl

theorem NoProcesses.run (h : NoProcesses T fuel R hlow s₀)
    (hrun : Run (CreateStep (kernelMemory T fuel heapFuel) listFuel) s₀ cs s) :
    ThreadsCreated (MemoryReady T fuel R hlow) (IsFramePointer R) s
      (createdThreads cs) :=
  h.threadsCreated.run (threadBlocks_kernelMemory T fuel heapFuel R hlow) hrun

end

section

variable {τ : Type} {R : UsableRegion} {used : ℕ}

/-- A further kernel thread: its node is a block of the pool. -/
theorem PoolReady.allocatesProcess (T : SizeTable τ) (fuel heapFuel walkFuel : ℕ)
    {s : Machine 64 (ProcessGlobals (KernelGlobals τ))}
    (h : PoolReady R ⟨s.mem, s.globals.memory⟩ used)
    (hhead : s.globals.processHead ≠ 0)
    (hnext : (s.globals.processInternal s.globals.processHead).next = 0)
    (hmutex : s.globals.threadMutex = 0) (hnode : s.globals.threadHead ≠ 0)
    (hlast : (s.globals.threadList s.globals.threadHead).next = 0)
    (hroom : used + 40960 ≤ R.length.toNat) (thread : Addr) :
    ∃ t, AllocatesProcess (kernelMemory T fuel (heapFuel + 6)) (walkFuel + 1)
      false thread s s.globals.processHead (R.addr used) 0 t := by
  have hinfo : (roundUpToPageBoundary sizeofProcess).toNat = 20480 := by decide
  have hstack : (roundUpToPageBoundary THREAD_STACK_SIZE).toNat = 20480 := by
    decide
  obtain ⟨t₂, h₂, hr₂⟩ := h.allocates T fuel (heapFuel + 6) sizeofProcess
    (by omega)
  have h₃ := hr₂.mallocx_refused T fuel (heapFuel + 5) sizeofProcessInternal
    (by decide) (by decide)
  obtain ⟨t₄, h₄, hr₄⟩ := hr₂.allocates T fuel (heapFuel + 6) THREAD_STACK_SIZE
    (by omega)
  have h₅ := hr₄.mallocx_refused T fuel (heapFuel + 5) THREAD_STACK_SIZE
    (by decide) (by decide)
  obtain ⟨o, ho, hle⟩ := hr₄.below
  have hused := hr₄.frames.used_le
  have hright : rightHalf t₄.globals.freeList ≠ 0 := by
    have hhalf : (2048 : Word).toNat = 2048 := by decide
    rw [ho, rightHalf, R.addr_add, hhalf]
    exact R.addr_ne_zero (by omega)
  obtain ⟨m, hloop, -, -⟩ := hr₄.page.search hr₄.ne_zero hright (k := 5)
    (by decide) (by decide : (128 : Word).toNat * 2 ^ 5 = 4096) heapFuel
  have hmalloc : ((kernelMemory T fuel (heapFuel + 6)).mallocx
      sizeofThreadList).run t₄ = _ :=
    run_mallocx_node hr₄.mutex hr₄.ne_zero (blockSize_threadList.symm ▸ hloop)
  have hadd : AddsNode (kernelMemory T fuel (heapFuel + 6)) (walkFuel + 1)
      s.globals thread t₄ ⟨head.set m t₄.globals.freeList .status
        Flag.allocated, t₄.globals⟩ := by
    intro g hmem hmutex' hhead' hlist'
    have hchain : Chain 0 (fun p => (g.threadList p).next) g.threadHead
        ([] ++ [s.globals.threadHead]) := by
      refine ⟨hhead', hnode, ?_⟩
      rw [hlist']
      exact hlast
    have ht₄ : (⟨t₄.mem, g.memory⟩ : Machine 64 _) = t₄ := by rw [hmem]
    have hmalloc' := (congrArg ((kernelMemory T fuel (heapFuel + 6)).mallocx
      sizeofThreadList).run ht₄).trans hmalloc
    exact ⟨_, _, run_addThreadToList (s := ⟨t₄.mem, g⟩) [] thread
      (hmutex'.trans hmutex) hchain (Nat.succ_pos walkFuel) hmalloc'⟩
  exact ⟨_, ⟨_, t₂, t₂, t₄, _, _, Or.inr ⟨rfl, hnext, rfl⟩, h₂, h₃,
    preparesThread_kernel h₄ h₅, hadd, givesPageMap_kernel _ _⟩, hhead,
    R.addr_ne_zero h.frames.used_le, hhead.symm⟩

end

end OptimistOS
