import OptimistOS.Foundation.Run
import OptimistOS.Process.Creation

/-!
# The list of processes

Runs of `createProcessFromRoutine`. The first call puts a record of its own at
the head of the list, and every call counts its process twice: once in
`createThreadInternal` and once in `registerProcess`. By the time
`registerProcess` asks whether the list is empty the count is no longer 0, so the
record at the head stays there, in front of the processes created.
-/

namespace OptimistOS

open ByteMemory ByteMemory.Code LinkedList Transition

/-- A call of `createProcessFromRoutine` that has returned `processInfo`, with
the record `processInternal` that it has set up. -/
structure Created where
  locals : UninitLocals
  routine : Routine
  processInfo : Addr
  record : Addr

/-- A call that returns. -/
def CreateStep {α : Type} (M : MemoryManager α) (fuel : ℕ)
    (s : Machine 64 (ProcessGlobals α)) (c : Created)
    (s' : Machine 64 (ProcessGlobals α)) : Prop :=
  (createProcessFromRoutine M fuel c.locals c.routine).run s =
      .ok c.processInfo s' ∧
    c.record = s'.globals.currentProcessInternal

structure ShowsProcess (record : ProcessInternal) (copy : ProcessRecord) :
    Prop where
  processID : copy.processID = record.processID
  PML4 : copy.PML4 = record.PML4
  threads : ∀ i, i.val < record.threadCount.toNat →
    copy.threads i = record.threads i

/-- The list of processes holds the processes of the calls `cs`, in this order,
and `getProcessInfo` finds each of them by its ID. -/
structure ProcessesListed {α : Type} (M : MemoryManager α)
    (s : Machine 64 (ProcessGlobals α)) (cs : List Created) : Prop where
  created : ∀ c ∈ cs, c.processInfo ≠ 0
  list : Chain 0 (fun p => (s.globals.processInternal p).next)
    s.globals.processHead (cs.map Created.record)
  count : s.globals.processCount.toNat = cs.length
  distinct :
    (cs.map fun c => (s.globals.processInternal c.record).processID).Nodup
  info : ∀ c ∈ cs, ∃ fuel copy t,
    (getProcessInfo M (s.globals.processInternal c.record).processID fuel
      s.globals.processHead).run s = .ok copy t ∧
    ShowsProcess (s.globals.processInternal c.record) (t.globals.process copy)

section

variable {α : Type} {M : MemoryManager α} {fuel : ℕ}

theorem processCount_ensureProcesses {s s' : Machine 64 (ProcessGlobals α)}
    (h : (ensureProcesses M).run s = .ok () s') :
    s'.globals.processCount = s.globals.processCount := by
  rcases ensureProcesses_eq_ok h with ⟨-, rfl⟩ | ⟨-, p, t, hp, rfl⟩
  · rfl
  · have ht := (sameProcesses_allocateVirtual hp).eq
    change t.globals.processCount = _
    rw [ht]

theorem processMutex_beforeThread {processInfo process : Addr}
    {s s₁ s₂ s₃ : Machine 64 (ProcessGlobals α)}
    (hensure : (ensureProcesses M).run ⟨s.mem, { s.globals with
      interrupts := false, processMutex := 1 }⟩ = .ok () s₁)
    (hinfo : (allocateVirtual M sizeofProcess).run s₁ = .ok processInfo s₂)
    (hprocess : (setupProcessInfo M).run ⟨s₂.mem,
      s₂.globals.modifyProcess processInfo fun _ => .zero⟩ = .ok process s₃) :
    s₃.globals.processMutex = 1 := by
  have hmutex₁ : s₁.globals.processMutex = 1 := by
    rcases ensureProcesses_eq_ok hensure with ⟨-, rfl⟩ | ⟨-, p, t, hp, rfl⟩
    · rfl
    · change t.globals.processMutex = 1
      rw [(sameProcesses_allocateVirtual hp).eq]
  obtain ⟨t, ht, rfl⟩ := setupProcessInfo_eq_ok.1 hprocess
  change t.globals.processMutex = 1
  rw [(sameProcesses_callMemory ht).eq]
  change s₂.globals.processMutex = 1
  rw [(sameProcesses_allocateVirtual hinfo).eq, hmutex₁]

theorem processCount_createThreadInternal {thread p : Addr}
    {entrypoint : Word} {priority : ThreadPriority} {cpuID : Word}
    {state : ThreadState} {user : Bool} {s s' : Machine 64 (ProcessGlobals α)}
    (h : (createThreadInternal M fuel thread entrypoint priority cpuID state
      user).run s = .ok p s') :
    s'.globals.processCount = s.globals.processCount + 1 := by
  obtain ⟨-, s₁, s₂, s₃, hensure, hsetup, hadd, rfl⟩ :=
    createThreadInternal_eq_ok h
  obtain ⟨stack, kernelStack, h₂⟩ := setupThreadContext_eq_ok hsetup
  have h₃ : s₃.globals.processCount = s₂.globals.processCount := by
    obtain ⟨-, ⟨-, p, t, -, rfl⟩ | ⟨-, l, p, t, -, -, rfl⟩⟩ :=
      addThreadToList_eq_ok hadd <;> rfl
  change s₃.globals.processCount + 1 = _
  rw [h₃, h₂]
  exact congrArg (· + 1) (processCount_ensureProcesses hensure)

theorem sameProcesses_getPageMap {user : Bool} {PML4 : Addr}
    {s s' : Machine 64 (ProcessGlobals α)}
    (h : (getPageMap M user).run s = .ok PML4 s') :
    SameProcesses s.globals s'.globals := by
  cases user with
  | true => exact sameProcesses_callMemory h
  | false =>
      have hs : s' = s := ((EStateM.Result.ok.injEq _ _ _ _).mp h).2.symm
      exact hs ▸ ⟨rfl⟩

/-- A call that creates a process counts it twice. -/
theorem processCount_createProcessFromRoutine {locals : UninitLocals}
    {routine : Routine} {p : Addr} {s s' : Machine 64 (ProcessGlobals α)}
    (h : (createProcessFromRoutine M fuel locals routine).run s = .ok p s')
    (hp : p ≠ 0) :
    s'.globals.processCount = s.globals.processCount + 2 := by
  obtain ⟨-, s₁, processInfo, s₂, process, s₃, hensure, hinfo, hprocess,
    ⟨-, h0, -⟩ | ⟨-, -, hthread⟩⟩ := createProcessFromRoutine_eq_ok h
  · exact absurd h0 hp
  obtain ⟨-, threadInfo, t₁, PML4, t₂, t₃, hinternal, hmap, hregister, rfl⟩ :=
    createThread_eq_ok hthread
  obtain ⟨u, hu, rfl⟩ := setupProcessInfo_eq_ok.1 hprocess
  have hu' : u.globals.processCount = s₂.globals.processCount := by
    rw [(sameProcesses_callMemory hu).eq]
    rfl
  have h₂ : s₂.globals.processCount = s₁.globals.processCount := by
    rw [(sameProcesses_allocateVirtual hinfo).eq]
  have h₁ : s₁.globals.processCount = s.globals.processCount :=
    Eq.trans (processCount_ensureProcesses hensure) rfl
  have ht₁ : t₁.globals.processCount = u.globals.processCount + 1 :=
    Eq.trans (processCount_createThreadInternal hinternal) rfl
  have ht₂ : t₂.globals.processCount = t₁.globals.processCount := by
    rw [(sameProcesses_getPageMap hmap).eq]
    rfl
  have hrecord : (recordProcess process processInfo threadInfo PML4
      t₂.globals).processCount = t₂.globals.processCount := rfl
  have ht₃ : t₃.globals.processCount = t₂.globals.processCount + 1 := by
    rw [← hrecord]
    rcases registerProcess_eq_ok hregister with ⟨-, rfl⟩ | ⟨-, l, -, rfl⟩ <;>
      exact rfl
  have htwo : (1 + 1 : Word) = 2 := by decide
  calc t₃.globals.processCount
      = s.globals.processCount + 1 + 1 := by rw [ht₃, ht₂, ht₁, hu', h₂, h₁]
    _ = s.globals.processCount + 2 := by rw [BitVec.add_assoc, htwo]

theorem processCount_of_run {s₀ s : Machine 64 (ProcessGlobals α)}
    {cs : List Created} (h : Run (CreateStep M fuel) s₀ cs s)
    (hcreated : ∀ c ∈ cs, c.processInfo ≠ 0) :
    s.globals.processCount =
      s₀.globals.processCount + BitVec.ofNat 64 (2 * cs.length) := by
  induction h with
  | nil => simp
  | @snoc cs s s' c h hstep ih =>
      rw [processCount_createProcessFromRoutine hstep.1
        (hcreated c (by simp)),
        ih fun d hd => hcreated d (List.mem_append_left _ hd),
        List.length_append, List.length_singleton, BitVec.add_assoc]
      congr 1
      rw [show (2 : Word) = BitVec.ofNat 64 2 from rfl, ← BitVec.ofNat_add]
      congr 1

theorem not_processesListed {s₀ s : Machine 64 (ProcessGlobals α)}
    {cs : List Created} (hcount : s₀.globals.processCount = 0)
    (h : Run (CreateStep M fuel) s₀ cs s) (hcs : cs ≠ []) :
    ¬ ProcessesListed M s cs := by
  intro hlisted
  have hlen := hlisted.count
  have hpos := List.length_pos_of_ne_nil hcs
  have hlt := s.globals.processCount.isLt
  have hrun := processCount_of_run h hlisted.created
  rw [hcount] at hrun
  rw [hrun.trans (BitVec.zero_add _), BitVec.toNat_ofNat] at hlen
  omega

/-- Starting without processes, the list is right exactly for no process. -/
theorem processesListed_iff {s₀ s : Machine 64 (ProcessGlobals α)}
    {cs : List Created} (hhead : s₀.globals.processHead = 0)
    (hcount : s₀.globals.processCount = 0)
    (h : Run (CreateStep M fuel) s₀ cs s) :
    ProcessesListed M s cs ↔ cs = [] := by
  refine ⟨fun hlisted => ?_, ?_⟩
  · by_contra hcs
    exact not_processesListed hcount h hcs hlisted
  · rintro rfl
    generalize hcs : ([] : List Created) = cs at h
    cases h with
    | nil =>
        refine ⟨by simp, hhead, ?_, List.nodup_nil, by simp⟩
        rw [hcount]
        rfl
    | snoc h hstep => exact absurd hcs (by simp)

end

/-- Memory that is handed out in ascending order and never again. -/
def bumpMemory : MemoryManager Word where
  allocateFrame size := do
    let next := (← get).globals
    modifyGlobals fun g => g + size
    return next
  toVirtualAddr addr := return addr
  toPhysicalAddr addr := return addr
  mallocx size := do
    let next := (← get).globals
    modifyGlobals fun g => g + size
    return next
  map _ _ _ := return true
  newPML4 := do
    let next := (← get).globals
    modifyGlobals fun g => g + 4096
    return next
  kernelPML4 _ := 0x1000

/-- The kernel on this memory: all of it is cleared, and there is one
processor. -/
def bumpKernel : Machine 64 (ProcessGlobals Word) where
  mem _ := 0
  globals :=
    { interrupts := true
      processMutex := 0
      threadMutex := 0
      processCount := 0
      threadCount := 0
      processHead := 0
      currentProcessInternal := 0
      threadHead := 0
      cpusStarted := 1
      cpuInformation := fun _ => 0x2000
      thread := fun _ => Thread.zero
      threadList := fun _ => ⟨0, 0⟩
      process := fun _ => ProcessRecord.zero
      processInternal := fun _ => ProcessInternal.zero
      memory := 0x100000 }

def kernelRoutine : Routine where
  entryPoint := 0xffffffff80001000
  priority := .high
  cpuID := 0
  state := .ready
  user := false

/-- Variables that happen to point to two unused records. -/
def freeLocals : UninitLocals := ⟨0x8000, 0x8000⟩

theorem exists_createStep_bumpKernel :
    ∃ c s, c.processInfo = 0x100008 ∧
      Run (CreateStep bumpMemory 2) bumpKernel [c] s := by
  have hrun : ∃ s, (createProcessFromRoutine bumpMemory 2 freeLocals
      kernelRoutine).run bumpKernel = .ok 0x100008 s := ⟨_, rfl⟩
  obtain ⟨s, hrun⟩ := hrun
  exact ⟨⟨freeLocals, kernelRoutine, 0x100008,
    s.globals.currentProcessInternal⟩, s, rfl, .single ⟨hrun, rfl⟩⟩

/-- Nothing was created, and after two calls not all of it is listed. -/
theorem processesListed_iff_bumpKernel :
    ProcessesListed bumpMemory bumpKernel [] ∧
      ∃ c d s, Run (CreateStep bumpMemory 2) bumpKernel [c, d] s ∧
        c.processInfo = 0x100008 ∧ d.processInfo = 0x112058 ∧
        ¬ ProcessesListed bumpMemory s [c, d] := by
  constructor
  · have hrun : Run (CreateStep bumpMemory 2) bumpKernel [] bumpKernel := .nil
    exact (processesListed_iff rfl rfl hrun).2 rfl
  · obtain ⟨s, hrun, s', hrun'⟩ : ∃ s, (createProcessFromRoutine bumpMemory 2
        freeLocals kernelRoutine).run bumpKernel = .ok 0x100008 s ∧
        ∃ s', (createProcessFromRoutine bumpMemory 2 freeLocals
          kernelRoutine).run s = .ok 0x112058 s' := ⟨_, rfl, _, rfl⟩
    have h : Run (CreateStep bumpMemory 2) bumpKernel
        [⟨freeLocals, kernelRoutine, 0x100008, s.globals.currentProcessInternal⟩,
          ⟨freeLocals, kernelRoutine, 0x112058,
            s'.globals.currentProcessInternal⟩] s' :=
      (Run.single ⟨hrun, rfl⟩).snoc ⟨hrun', rfl⟩
    refine ⟨_, _, s', h, rfl, rfl, fun hlisted => ?_⟩
    exact absurd ((processesListed_iff rfl rfl h).1 hlisted) (by simp)

/-- After the first process the count is 2. -/
theorem exists_not_processesListed :
    ∃ c s, c.processInfo ≠ 0 ∧
      Run (CreateStep bumpMemory 2) bumpKernel [c] s ∧
      ¬ ProcessesListed bumpMemory s [c] := by
  obtain ⟨c, s, hp, h⟩ := exists_createStep_bumpKernel
  exact ⟨c, s, hp ▸ by decide, h, not_processesListed rfl h (by simp)⟩

end OptimistOS
