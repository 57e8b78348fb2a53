import OptimistOS.Foundation.Chain
import OptimistOS.Foundation.Loop
import OptimistOS.Lib.Lock
import OptimistOS.Paging.PageDirectoryEntry
import OptimistOS.Scheduler.Thread

/-!
# Processes

`process.cpp`: how a process with one thread is created, and the two lists that
the threads and the processes are linked into. The records live in stores, one
for each type. Low memory is mapped, so the record at the null pointer is a
record like any other: the code does not test what `mallocx` returns, and a
refused request does not stop it.

Memory comes from a `MemoryManager`; `allocateFrame` clears the frames that it
returns. The variables that the code reads before it has set them are
parameters.
-/

namespace OptimistOS

open ByteMemory ByteMemory.Code LinkedList

abbrev PROCESS_MAX_THREADS : ℕ := 64

instance : NeZero PROCESS_MAX_THREADS := ⟨by decide⟩

def THREAD_STACK_SIZE : Word := 20480

def THREAD_STACK_ADDR : Word := 0x70000000000

def sizeofThreadList : Word := 16

def sizeofProcess : Word := 16408

def sizeofProcessInternal : Word := 16424

def Thread.zero : Thread :=
  ⟨0, fun _ => 0, .low, 0, 0, 0, 0, .ready, 0, 0⟩

structure ProcessRecord extends Process where
  processID : Word
  threads : Fin PROCESS_MAX_THREADS → Thread
  threadCount : BitVec 32

structure ProcessInternal where
  processID : Word
  PML4 : Addr
  threads : Fin PROCESS_MAX_THREADS → Thread
  threadCount : BitVec 32
  next : Addr

def ProcessRecord.zero : ProcessRecord := ⟨⟨0⟩, 0, fun _ => Thread.zero, 0⟩

def ProcessInternal.zero : ProcessInternal :=
  ⟨0, 0, fun _ => Thread.zero, 0, 0⟩

/-- What `process.cpp` calls of the memory management with globals `α`. -/
structure MemoryManager (α : Type) where
  allocateFrame : Word → Code 64 α Word
  toVirtualAddr : Word → Code 64 α Addr
  toPhysicalAddr : Addr → Code 64 α Word
  mallocx : Word → Code 64 α Addr
  map : Word → Word → Word → Code 64 α Bool
  newPML4 : Code 64 α Addr
  kernelPML4 : α → Addr

/-- The global variables of `process.cpp`, those of `smp.cpp` that `getCPUInfo`
reads, the interrupt flag, and the records. -/
structure ProcessGlobals (α : Type) where
  interrupts : Bool
  processMutex : BitVec 32
  threadMutex : BitVec 32
  processCount : Word
  threadCount : Word
  processHead : Addr
  currentProcessInternal : Addr
  threadHead : Addr
  cpusStarted : BitVec 32
  cpuInformation : BitVec 32 → Addr
  thread : Addr → Thread
  threadList : Addr → ThreadList
  process : Addr → ProcessRecord
  processInternal : Addr → ProcessInternal
  memory : α

def callMemory {α β : Type} (x : Code 64 α β) :
    Code 64 (ProcessGlobals α) β :=
  zoom (fun g => g.memory) (fun g a => { g with memory := a }) x

namespace ProcessGlobals

variable {α : Type}

def modifyThread (g : ProcessGlobals α) (t : Addr) (f : Thread → Thread) :
    ProcessGlobals α :=
  { g with thread := Function.update g.thread t (f (g.thread t)) }

def modifyNode (g : ProcessGlobals α) (p : Addr)
    (f : ThreadList → ThreadList) : ProcessGlobals α :=
  { g with threadList := Function.update g.threadList p (f (g.threadList p)) }

def modifyProcess (g : ProcessGlobals α) (p : Addr)
    (f : ProcessRecord → ProcessRecord) : ProcessGlobals α :=
  { g with process := Function.update g.process p (f (g.process p)) }

def modifyInternal (g : ProcessGlobals α) (p : Addr)
    (f : ProcessInternal → ProcessInternal) : ProcessGlobals α :=
  { g with processInternal :=
      Function.update g.processInternal p (f (g.processInternal p)) }

end ProcessGlobals

open ProcessGlobals

section

variable {α : Type} (M : MemoryManager α)

/-- `toVirtualAddr((void*)allocateFrame(size))`. -/
def allocateVirtual (size : Word) : Code 64 (ProcessGlobals α) Addr := do
  let frame ← callMemory (M.allocateFrame size)
  callMemory (M.toVirtualAddr frame)

/-- `initProcesses`. It asks for the size of a pointer. -/
def initProcesses : Code 64 (ProcessGlobals α) Addr := do
  let processHead ← allocateVirtual M 8
  modifyGlobals fun g =>
    { g.modifyInternal processHead fun _ => .zero with
      processHead := processHead }
  return processHead

/-- `if (processHead == nullptr) processHead = initProcesses();`. -/
def ensureProcesses : Code 64 (ProcessGlobals α) Unit := do
  if (← get).globals.processHead = 0 then
    let processHead ← initProcesses M
    modifyGlobals fun g => { g with processHead := processHead }

def setupProcessInfo : Code 64 (ProcessGlobals α) Addr := do
  let process ← callMemory (M.mallocx sizeofProcessInternal)
  modifyGlobals fun g => g.modifyInternal process fun record =>
    { record with processID := 7 * g.processCount }
  modifyGlobals fun g => g.modifyInternal process fun record =>
    { record with threadCount := 1 }
  modifyGlobals fun g => g.modifyInternal process fun record =>
    { record with next := 0 }
  return process

/-- The registers of a new thread that are not 0, for a user thread and for a
kernel thread with the stack pointer `rsp`. -/
def initialRegs (rsp : Option Word) : Regs
  | .cs => 0x28
  | .ss => 0x30
  | .rsp => rsp.getD 0
  | _ => 0

def stackFlags : Word :=
  PageTableFlag.readWrite ||| PageTableFlag.present |||
    PageTableFlag.largerPages

/-- The loop of `setupThreadContext` that maps the stack of a user thread, 2 MB
at a time. -/
def mapStack (stack : Addr) : Code 64 (ProcessGlobals α) Unit :=
  forLoop
    (fun i => do
      let physicalAddr ← callMemory (M.toPhysicalAddr stack)
      let _ ← callMemory (M.map (physicalAddr + i)
        (THREAD_STACK_ADDR - THREAD_STACK_SIZE + i) stackFlags)
      return ())
    THREAD_STACK_SIZE 0x200000 1 0

/-- `setupThreadContext`. It does not read the state it is given. -/
def setupThreadContext (thread : Addr) (entryPoint : Word) (user : Bool)
    (_state : ThreadState) : Code 64 (ProcessGlobals α) Unit := do
  let stack ← allocateVirtual M THREAD_STACK_SIZE
  modifyGlobals fun g => g.modifyThread thread fun record =>
    { record with
      regs := Function.update record.regs .rip entryPoint
      entryPoint := entryPoint
      stackAddress := stack }
  let kernelStack ← callMemory (M.mallocx THREAD_STACK_SIZE)
  modifyGlobals fun g => g.modifyThread thread fun record =>
    { record with
      kernelStack := kernelStack + THREAD_STACK_SIZE
      state := .ready
      lock := 0 }
  if user then
    modifyGlobals fun g => g.modifyThread thread fun record =>
      { record with regs := initialRegs none }
    mapStack M stack
    modifyGlobals fun g => g.modifyThread thread fun record =>
      { record with
        regs := Function.update record.regs .rsp (stack + THREAD_STACK_SIZE) }
  else
    modifyGlobals fun g => g.modifyThread thread fun record =>
      { record with regs := initialRegs (some record.kernelStack) }
    modifyGlobals fun g => g.modifyThread thread fun record =>
      { record with stackAddress := record.kernelStack }
  modifyGlobals fun g => g.modifyThread thread fun record =>
    { record with regs := Function.update record.regs .eFlags 0x202 }
  modifyGlobals fun g => { g with threadCount := g.threadCount + 1 }

/-- `lock(threadMutex)`. -/
def lockThreads : Code 64 (ProcessGlobals α) Unit :=
  lock (fun g => g.threadMutex) fun v g => { g with threadMutex := v }

/-- `unlock(threadMutex)`. -/
def unlockThreads : Code 64 (ProcessGlobals α) Unit :=
  unlock fun v g => { g with threadMutex := v }

/-- `addThreadToList`; `fuel` bounds the walk to the last node. -/
def addThreadToList (fuel : ℕ) (thread : Addr) :
    Code 64 (ProcessGlobals α) Unit := do
  lockThreads
  if (← get).globals.threadHead = 0 then
    let threadHead ← allocateVirtual M sizeofThreadList
    modifyGlobals fun g =>
      { g.modifyNode threadHead fun _ => ⟨0, 0⟩ with threadHead := threadHead }
    modifyGlobals fun g =>
      g.modifyNode threadHead fun node => { node with threadInfo := thread }
    modifyGlobals fun g =>
      g.modifyNode threadHead fun node => { node with next := 0 }
    unlockThreads
  else
    let g := (← get).globals
    match lastNode 0 (fun p => (g.threadList p).next) fuel g.threadHead with
    | none => throw .fuel
    | some tHead =>
        let next ← callMemory (M.mallocx sizeofThreadList)
        modifyGlobals fun g =>
          g.modifyNode tHead fun node => { node with next := next }
        modifyGlobals fun g => g.modifyNode (g.threadList tHead).next
          fun node => { node with threadInfo := thread }
        modifyGlobals fun g => g.modifyNode (g.threadList tHead).next
          fun node => { node with next := 0 }
        unlockThreads

omit M in
/-- `getCPUInfo` (`smp.cpp`). -/
def getCPUInfo (g : ProcessGlobals α) (cpuNumber : BitVec 32) : Addr :=
  if g.cpusStarted < cpuNumber then 0 else g.cpuInformation cpuNumber

def createThreadInternal (fuel : ℕ) (thread : Addr) (entrypoint : Word)
    (priority : ThreadPriority) (cpuID : Word) (state : ThreadState)
    (user : Bool) : Code 64 (ProcessGlobals α) Addr := do
  ensureProcesses M
  if getCPUInfo (← get).globals (cpuID.setWidth 32) = 0 then
    throw .halt
  setupThreadContext M thread entrypoint user state
  modifyGlobals fun g => g.modifyThread thread fun record =>
    { record with priority := priority, cpuID := cpuID }
  addThreadToList M fuel thread
  modifyGlobals fun g => { g with processCount := g.processCount + 1 }
  return thread

def getPageMap (user : Bool) : Code 64 (ProcessGlobals α) Addr := do
  if ¬ user then
    return M.kernelPML4 (← get).globals.memory
  else
    callMemory M.newPML4

omit M in
def processInternalToProcess (processIn processOut : Addr)
    (g : ProcessGlobals α) : ProcessGlobals α :=
  let source := g.processInternal processIn
  g.modifyProcess processOut fun record =>
    { record with
      processID := source.processID
      threadCount := source.threadCount
      threads := fun i =>
        if i.val < source.threadCount.toNat then source.threads i
        else record.threads i
      PML4 := source.PML4 }

omit M in
/-- `registerProcess`; `fuel` bounds the walk to the last record. -/
def registerProcess (fuel : ℕ) (process : Addr) :
    Code 64 (ProcessGlobals α) Unit := do
  let g := (← get).globals
  if g.processCount = 0 then
    modifyGlobals fun g => { g with processHead := process }
    modifyGlobals fun g =>
      g.modifyInternal process fun record => { record with next := 0 }
    modifyGlobals fun g => { g with processCount := g.processCount + 1 }
  else
    match lastNode 0 (fun p => (g.processInternal p).next) fuel
        g.processHead with
    | none => throw .fuel
    | some pHead =>
        modifyGlobals fun g =>
          g.modifyInternal pHead fun record => { record with next := process }
        modifyGlobals fun g =>
          g.modifyInternal process fun record => { record with next := 0 }
        modifyGlobals fun g => { g with processCount := g.processCount + 1 }

/-- What the uninitialised variables hold: `threadInfo` of
`createProcessFromRoutine` and `thread` of `createThreadInternal`. -/
structure UninitLocals where
  threadInfo : Addr
  thread : Addr

structure Routine where
  entryPoint : Word
  priority : ThreadPriority
  cpuID : Word
  state : ThreadState
  user : Bool

omit M in
/-- The writes of `createProcessFromRoutine` between `getPageMap` and
`registerProcess`. -/
def recordProcess (process processInfo threadInfo PML4 : Addr)
    (g : ProcessGlobals α) : ProcessGlobals α :=
  let g := g.modifyInternal process fun record =>
    { record with
      PML4 := PML4
      threads := Function.update record.threads 0 (g.thread threadInfo) }
  let g := { g with currentProcessInternal := process }
  let g := processInternalToProcess process processInfo g
  g.modifyThread threadInfo fun record =>
    { record with parentProcess := processInfo }

def createThread (fuel : ℕ) (locals : UninitLocals) (routine : Routine)
    (processInfo process : Addr) : Code 64 (ProcessGlobals α) Addr := do
  let threadInfo ← createThreadInternal M fuel locals.thread
    routine.entryPoint routine.priority routine.cpuID routine.state routine.user
  modifyGlobals fun g => g.modifyThread threadInfo fun record =>
    { record with threadID :=
        ((g.processInternal process).threadCount + 1).setWidth 64 }
  let PML4 ← getPageMap M routine.user
  modifyGlobals (recordProcess process processInfo threadInfo PML4)
  registerProcess fuel (← get).globals.currentProcessInternal
  unlock fun v g => { g with processMutex := v }
  modifyGlobals fun g => { g with interrupts := true }
  return processInfo

/-- `createProcessFromRoutine`; `fuel` bounds the walks over the lists. -/
def createProcessFromRoutine (fuel : ℕ) (locals : UninitLocals)
    (routine : Routine) : Code 64 (ProcessGlobals α) Addr := do
  modifyGlobals fun g => { g with interrupts := false }
  lock (fun g => g.processMutex) fun v g => { g with processMutex := v }
  ensureProcesses M
  let processInfo ← allocateVirtual M sizeofProcess
  modifyGlobals fun g => g.modifyProcess processInfo fun _ => .zero
  let process ← setupProcessInfo M
  if processInfo = 0 then
    return 0
  else if locals.threadInfo = 0 then
    return 0
  else
    createThread M fuel locals routine processInfo process

/-- `getProcessInfo`; `fuel` bounds the walk over the list. -/
def getProcessInfo (processID : Word) :
    ℕ → Addr → Code 64 (ProcessGlobals α) Addr
  | 0, _ => throw .fuel
  | fuel + 1, pHead => do
      if pHead = 0 then
        return 0
      else if ((← get).globals.processInternal pHead).processID = processID then
        let processOut ← callMemory (M.mallocx sizeofProcess)
        modifyGlobals (processInternalToProcess pHead processOut)
        return processOut
      else
        getProcessInfo processID fuel
          ((← get).globals.processInternal pHead).next

end

end OptimistOS
