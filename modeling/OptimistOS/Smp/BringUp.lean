import OptimistOS.Foundation.SpinLock
import OptimistOS.Heap.Malloc
import OptimistOS.Smp.Smp

/-!
# Bringing up the other processors

`initSMP` and `initOtherCPUs` as a whole. The boot processor takes a block of
the heap for its own record, sends one processor after another to
`initOtherCPUs` and waits until `cpusStarted` has reached `cpuCount`. An
application processor first sets up its page tables, behind the lock of
`paging.cpp`, then waits for its turn (`Smp`), takes a block for its record from
the heap, behind the lock of `malloc.cpp`, fills the record and stores its
address.

All processors interleave. Their code runs on shared variables in atomic steps;
the body of `initPaging` is cut into steps by a parameter, and `mallocx` is cut
where it releases its lock, because it marks the block that it has found as
allocated only after that.
-/

namespace OptimistOS

open ByteMemory ByteMemory.Code Transition

inductive CpuInfoMember
  | lock
  | lapicID
  | currentProcess
  | processList
  | processSize
  | processIndex
  | processPRCount
  | lastIdleTime
  | totalTime
  | cpuNumber
  deriving DecidableEq, Repr

def cpuInfo : Layout 64 CpuInfoMember where
  offset
    | .lock => 0
    | .lapicID => 4
    | .currentProcess => 8
    | .processList => 16
    | .processSize => 24
    | .processIndex => 32
    | .processPRCount => 40
    | .lastIdleTime => 48
    | .totalTime => 56
    | .cpuNumber => 64
  width
    | .lock => 4
    | .lapicID => 4
    | .cpuNumber => 4
    | _ => 8
  sizeof := 68
  fits f := by cases f <;> decide
  apart f g h := by cases f <;> cases g <;> simp at h ⊢
  sizeof_le := by decide

def sizeofCpuInfo : Word := BitVec.ofNat 64 cpuInfo.sizeof

/-- The writes of `initOtherCPUs` to its record. -/
def fillCpuInfo (m : Bytes) (cpu : Addr) (lapicID cpuNumber : BitVec 32) :
    Bytes :=
  let m := cpuInfo.set m cpu .lock 0
  let m := cpuInfo.set m cpu .processPRCount 0
  let m := cpuInfo.set m cpu .totalTime 0
  let m := cpuInfo.set m cpu .lastIdleTime 0
  let m := cpuInfo.set m cpu .lapicID (lapicID.setWidth 64)
  let m := cpuInfo.set m cpu .processIndex 0
  let m := cpuInfo.set m cpu .processSize 0
  let m := cpuInfo.set m cpu .processList 0
  let m := cpuInfo.set m cpu .currentProcess 0
  cpuInfo.set m cpu .cpuNumber (cpuNumber.setWidth 64)

section

variable {α : Type} (A : FrameAllocator α) (fuel : ℕ) (size : Word)

/-- `mallocx` between its lock and the first unlock. -/
def mallocSearch : Code 64 (HeapGlobals α) MallocResult := do
  ensurePool A
  let s ← get
  match mallocLoop (blockSize size) fuel s.mem s.globals.freeList with
  | .error e => throw e
  | .ok (result, m) => do
      modifyMem fun _ => m
      unlockHeap
      return result

def mallocFinish : MallocResult → Code 64 (HeapGlobals α) Addr
  | .refused => return 0
  | .blocks currentNode blocksToCoalesce =>
      coalesceBlocks currentNode blocksToCoalesce
  | .node currentNode => do
      modifyMem fun m => head.set m currentNode .status Flag.allocated
      unlockHeap
      return currentNode + sizeofHead

theorem run_mallocx_parts (s : Machine 64 (HeapGlobals α)) :
    (mallocx A fuel size).run s =
      (do lockHeap
          let result ← mallocSearch A fuel size
          mallocFinish result : Code 64 (HeapGlobals α) Addr).run s := by
  rw [mallocx, EStateM.run_bind, EStateM.run_bind]
  cases lockHeap.run s with
  | error e t => rfl
  | ok u t =>
      simp only [mallocSearch, EStateM.run_bind]
      cases (ensurePool A).run t with
      | error e t => rfl
      | ok u t =>
          simp only [EStateM.run_get]
          rcases mallocLoop (blockSize size) fuel t.mem t.globals.freeList with
            e | ⟨result, m⟩
          · rfl
          · cases result <;> rfl

end

/-- How far the boot processor has come. The entries of `smpResponse->cpus` are
application processors, or `none` for the boot processor itself. -/
inductive BootStage (ι : Type)
  /-- The loop that sends the processors; `rest` are still to be sent. -/
  | sending (rest : List (Option ι))
  /-- `while (cpusStarted < cpuCount)`. -/
  | waiting
  | done

inductive RequestStage
  /-- `lock(mutex)` comes next. -/
  | lock
  /-- The search under the lock comes next. -/
  | search
  /-- What comes after the first unlock. -/
  | finish (result : MallocResult)
  /-- `mallocx` has returned. -/
  | served (block : Addr)

def RequestStage.block : RequestStage → Addr
  | .served block => block
  | _ => 0

/-- The shared variables and where the processors are. `record` is
`cpuInformation`, without a bound; `sent` tells whose `goto_address` is set. -/
structure BringUp (ι σ τ α : Type) where
  smp : SmpState ι
  boot : BootStage ι
  sent : ι → Bool
  paging : Locked ι σ τ
  heap : Machine 64 (HeapGlobals α)
  request : ι → RequestStage
  record : BitVec 32 → Addr

/-- The processors as the bootloader lists them, their LAPIC IDs, the body of
`initPaging`, and what `mallocx` depends on. -/
structure Processors (ι σ τ α : Type) where
  cpus : List (Option ι)
  lapic : ι → BitVec 32
  paging : Bodies ι σ τ
  frames : FrameAllocator α
  fuel : ℕ

namespace Processors

variable {ι σ τ α : Type} [DecidableEq ι] (P : Processors ι σ τ α)

def cpuCount : BitVec 32 := BitVec.ofNat 32 P.cpus.length

/-- The next step of the boot processor. -/
def initSMP (s : BringUp ι σ τ α) : Option (BringUp ι σ τ α) :=
  match s.boot with
  | .sending [] => some { s with boot := .waiting }
  | .sending (none :: rest) => some { s with boot := .sending rest }
  | .sending (some i :: rest) =>
      some { s with
        boot := .sending rest
        sent := Function.update s.sent i true }
  | .waiting =>
      if s.smp.cpusStarted < P.cpuCount then
        some s
      else
        some { s with boot := .done }
  | .done => none

/-- The next step of processor `i` in its call of `mallocx`. -/
def takeBlock (s : BringUp ι σ τ α) (i : ι) : Option (BringUp ι σ τ α) :=
  match s.request i with
  | .lock =>
      if s.heap.globals.mutex = 0 then
        some { s with
          heap := ⟨s.heap.mem, { s.heap.globals with mutex := 1 }⟩
          request := Function.update s.request i .search }
      else
        some s
  | .search =>
      match (mallocSearch P.frames P.fuel sizeofCpuInfo).run s.heap with
      | .ok result t =>
          some { s with
            heap := t
            request := Function.update s.request i (.finish result) }
      | .error _ _ => none
  | .finish result =>
      match (mallocFinish result).run s.heap with
      | .ok block t =>
          some { s with
            heap := t
            request := Function.update s.request i (.served block) }
      | .error _ _ => none
  | .served _ => none

/-- The next step of processor `i` behind `initPaging`. -/
def waitAndStore (s : BringUp ι σ τ α) (i : ι) : Option (BringUp ι σ τ α) :=
  match s.smp.phase i, s.request i with
  | .released, .served block =>
      (OptimistOS.initOtherCPUs P.lapic s.smp i).map fun t =>
        { s with
          smp := t
          heap := ⟨fillCpuInfo s.heap.mem block (P.lapic i) s.smp.cpusStarted,
            s.heap.globals⟩ }
  | .released, _ => P.takeBlock s i
  | .numbered n, _ =>
      (OptimistOS.initOtherCPUs P.lapic s.smp i).map fun t =>
        { s with
          smp := t
          record := Function.update s.record n (s.request i).block }
  | _, _ =>
      (OptimistOS.initOtherCPUs P.lapic s.smp i).map fun t => { s with smp := t }

/-- The next step of processor `i` in `initOtherCPUs`; it has none before it is
sent there. -/
def initOtherCPUs (s : BringUp ι σ τ α) (i : ι) : Option (BringUp ι σ τ α) :=
  if s.sent i then
    match s.paging.place i with
    | .after => P.waitAndStore s i
    | _ => (Locked.next P.paging s.paging i).map fun t => { s with paging := t }
  else
    none

/-- The next step of a processor; the boot processor is `none`. -/
def next (s : BringUp ι σ τ α) : Option ι → Option (BringUp ι σ τ α)
  | none => P.initSMP s
  | some i => P.initOtherCPUs s i

/-- A step of one of the processors. -/
def Step (s : BringUp ι σ τ α) (c : Option ι) (s' : BringUp ι σ τ α) : Prop :=
  P.next s c = some s'

/-- The state in which the boot processor starts to send the others: its own
record lies at `block`. The loop leaves out the first entry. -/
def start (shared : σ) (heap : Machine 64 (HeapGlobals α)) (block : Addr) :
    BringUp ι σ τ α where
  smp := OptimistOS.initSMP
  boot := .sending P.cpus.tail
  sent _ := false
  paging := ⟨0, shared, fun _ => .before⟩
  heap := heap
  request _ := .lock
  record := Function.update (fun _ => 0) 0 block

inductive StepCases (s : BringUp ι σ τ α) :
    Option ι → BringUp ι σ τ α → Prop
  | skip {rest : List (Option ι)} (hboot : s.boot = .sending (none :: rest)) :
      StepCases s none { s with boot := .sending rest }
  | send {i : ι} {rest : List (Option ι)}
      (hboot : s.boot = .sending (some i :: rest)) :
      StepCases s none { s with
        boot := .sending rest
        sent := Function.update s.sent i true }
  | sentAll (hboot : s.boot = .sending []) :
      StepCases s none { s with boot := .waiting }
  | waitAll (hboot : s.boot = .waiting)
      (hlt : s.smp.cpusStarted < P.cpuCount) : StepCases s none s
  | bootDone (hboot : s.boot = .waiting)
      (hle : ¬ s.smp.cpusStarted < P.cpuCount) :
      StepCases s none { s with boot := .done }
  | paging {i : ι} {t : Locked ι σ τ} (hsent : s.sent i = true)
      (hplace : s.paging.place i ≠ .after)
      (hstep : Locked.Step P.paging s.paging i t) :
      StepCases s (some i) { s with paging := t }
  | smp {i : ι} {t : SmpState ι} (hsent : s.sent i = true)
      (hplace : s.paging.place i = .after)
      (hphase : s.smp.phase i = .waiting ∨ ∃ n, s.smp.phase i = .stored n)
      (hstep : SmpStep P.lapic s.smp i t) :
      StepCases s (some i) { s with smp := t }
  | lockHeap {i : ι} (hsent : s.sent i = true)
      (hplace : s.paging.place i = .after)
      (hphase : s.smp.phase i = .released) (hrequest : s.request i = .lock)
      (hmutex : s.heap.globals.mutex = 0) :
      StepCases s (some i) { s with
        heap := ⟨s.heap.mem, { s.heap.globals with mutex := 1 }⟩
        request := Function.update s.request i .search }
  | waitHeap {i : ι} (hsent : s.sent i = true)
      (hplace : s.paging.place i = .after)
      (hphase : s.smp.phase i = .released) (hrequest : s.request i = .lock)
      (hmutex : s.heap.globals.mutex ≠ 0) : StepCases s (some i) s
  | search {i : ι} {result : MallocResult} {t : Machine 64 (HeapGlobals α)}
      (hsent : s.sent i = true) (hplace : s.paging.place i = .after)
      (hphase : s.smp.phase i = .released) (hrequest : s.request i = .search)
      (hrun : (mallocSearch P.frames P.fuel sizeofCpuInfo).run s.heap =
        .ok result t) :
      StepCases s (some i) { s with
        heap := t
        request := Function.update s.request i (.finish result) }
  | finish {i : ι} {result : MallocResult} {block : Addr}
      {t : Machine 64 (HeapGlobals α)}
      (hsent : s.sent i = true) (hplace : s.paging.place i = .after)
      (hphase : s.smp.phase i = .released)
      (hrequest : s.request i = .finish result)
      (hrun : (mallocFinish result).run s.heap = .ok block t) :
      StepCases s (some i) { s with
        heap := t
        request := Function.update s.request i (.served block) }
  | fill {i : ι} {block : Addr} {t : SmpState ι}
      (hsent : s.sent i = true) (hplace : s.paging.place i = .after)
      (hphase : s.smp.phase i = .released)
      (hrequest : s.request i = .served block)
      (hstep : SmpStep P.lapic s.smp i t) :
      StepCases s (some i) { s with
        smp := t
        heap := ⟨fillCpuInfo s.heap.mem block (P.lapic i) s.smp.cpusStarted,
          s.heap.globals⟩ }
  | store {i : ι} {n : BitVec 32} {t : SmpState ι}
      (hsent : s.sent i = true) (hplace : s.paging.place i = .after)
      (hphase : s.smp.phase i = .numbered n)
      (hstep : SmpStep P.lapic s.smp i t) :
      StepCases s (some i) { s with
        smp := t
        record := Function.update s.record n (s.request i).block }

variable {P} {s s' : BringUp ι σ τ α}

theorem initSMP_cases (h : P.initSMP s = some s') : P.StepCases s none s' := by
  rw [initSMP] at h
  cases hboot : s.boot with
  | sending rest =>
      rw [hboot] at h
      match rest, hboot, h with
      | [], hboot, h =>
          obtain rfl := Option.some.inj h
          exact .sentAll hboot
      | none :: rest, hboot, h =>
          obtain rfl := Option.some.inj h
          exact .skip hboot
      | some i :: rest, hboot, h =>
          obtain rfl := Option.some.inj h
          exact .send hboot
  | waiting =>
      rw [hboot] at h
      simp only at h
      split_ifs at h with hlt <;> obtain rfl := Option.some.inj h
      · exact .waitAll hboot hlt
      · exact .bootDone hboot hlt
  | done =>
      rw [hboot] at h
      exact absurd h (by simp)

theorem takeBlock_cases {i : ι} (hsent : s.sent i = true)
    (hplace : s.paging.place i = .after) (hphase : s.smp.phase i = .released)
    (h : P.takeBlock s i = some s') : P.StepCases s (some i) s' := by
  rw [takeBlock] at h
  cases hrequest : s.request i with
  | lock =>
      rw [hrequest] at h
      simp only at h
      split_ifs at h with hmutex <;> obtain rfl := Option.some.inj h
      · exact .lockHeap hsent hplace hphase hrequest hmutex
      · exact .waitHeap hsent hplace hphase hrequest hmutex
  | search =>
      rw [hrequest] at h
      simp only at h
      cases hrun : (mallocSearch P.frames P.fuel sizeofCpuInfo).run s.heap with
      | ok result t =>
          rw [hrun] at h
          obtain rfl := Option.some.inj h
          exact .search hsent hplace hphase hrequest hrun
      | error e t =>
          rw [hrun] at h
          exact absurd h (by simp)
  | finish result =>
      rw [hrequest] at h
      simp only at h
      cases hrun : (mallocFinish result).run s.heap with
      | ok block t =>
          rw [hrun] at h
          obtain rfl := Option.some.inj h
          exact .finish hsent hplace hphase hrequest hrun
      | error e t =>
          rw [hrun] at h
          exact absurd h (by simp)
  | served block =>
      rw [hrequest] at h
      exact absurd h (by simp)

theorem waitAndStore_cases {i : ι} (hsent : s.sent i = true)
    (hplace : s.paging.place i = .after)
    (h : P.waitAndStore s i = some s') : P.StepCases s (some i) s' := by
  rw [waitAndStore] at h
  cases hphase : s.smp.phase i with
  | waiting =>
      rw [hphase] at h
      obtain ⟨t, ht, rfl⟩ := Option.map_eq_some_iff.1 h
      exact .smp hsent hplace (.inl hphase) ht
  | released =>
      rw [hphase] at h
      cases hrequest : s.request i with
      | served block =>
          rw [hrequest] at h
          obtain ⟨t, ht, rfl⟩ := Option.map_eq_some_iff.1 h
          exact .fill hsent hplace hphase hrequest ht
      | lock | search | finish =>
          rw [hrequest] at h
          exact takeBlock_cases hsent hplace hphase h
  | numbered n =>
      rw [hphase] at h
      obtain ⟨t, ht, rfl⟩ := Option.map_eq_some_iff.1 h
      exact .store hsent hplace hphase ht
  | stored n =>
      rw [hphase] at h
      obtain ⟨t, ht, rfl⟩ := Option.map_eq_some_iff.1 h
      exact .smp hsent hplace (.inr ⟨n, hphase⟩) ht
  | started n =>
      rw [hphase, OptimistOS.initOtherCPUs, hphase] at h
      exact absurd h (by simp)

theorem step_cases {c : Option ι} (h : P.Step s c s') : P.StepCases s c s' := by
  cases c with
  | none => exact initSMP_cases h
  | some i =>
      rw [Step, next, initOtherCPUs] at h
      split_ifs at h with hsent
      cases hplace : s.paging.place i with
      | after =>
          rw [hplace] at h
          exact waitAndStore_cases hsent hplace h
      | before | inside =>
          rw [hplace] at h
          obtain ⟨t, ht, rfl⟩ := Option.map_eq_some_iff.1 h
          exact .paging hsent (by rw [hplace]; simp) ht

/-- A step of the whole is one of the start protocol, one of the critical section
in `initPaging`, or leaves both alone. -/
theorem smp_or_paging {c : Option ι} (h : P.Step s c s') :
    (s'.smp = s.smp ∧ s'.paging = s.paging) ∨
      (∃ i, c = some i ∧ s.paging.place i = .after ∧ s'.paging = s.paging ∧
        SmpStep P.lapic s.smp i s'.smp) ∨
      ∃ i, c = some i ∧ s.sent i = true ∧ s.paging.place i ≠ .after ∧
        s'.smp = s.smp ∧ Locked.Step P.paging s.paging i s'.paging := by
  cases step_cases h with
  | smp _ hplace _ hstep => exact .inr (.inl ⟨_, rfl, hplace, rfl, hstep⟩)
  | fill _ hplace _ _ hstep => exact .inr (.inl ⟨_, rfl, hplace, rfl, hstep⟩)
  | store _ hplace _ hstep => exact .inr (.inl ⟨_, rfl, hplace, rfl, hstep⟩)
  | paging hsent hplace hstep =>
      exact .inr (.inr ⟨_, rfl, hsent, hplace, rfl, hstep⟩)
  | _ => exact .inl ⟨rfl, rfl⟩

theorem inOrder_step [Fintype ι] (hinj : Function.Injective P.lapic)
    {bsp : BitVec 32} (hbsp : ∀ i, P.lapic i ≠ bsp) {m : BitVec 32}
    (hm : m = 0 ∨ m = 1) (hmiss : ∀ i, P.lapic i ≠ m)
    (hs : InOrder P.lapic s.smp) {c : Option ι} (h : P.Step s c s') :
    InOrder P.lapic s'.smp := by
  rcases smp_or_paging h with ⟨heq, -⟩ | ⟨i, -, -, -, hstep⟩ | ⟨i, -, -, -, heq, -⟩
  · rwa [heq]
  · exact hs.step hinj hbsp hm hmiss hstep
  · rwa [heq]

end Processors

theorem phase_of_smpStep {ι : Type} [DecidableEq ι] {lapic : ι → BitVec 32}
    {s s' : SmpState ι} {i j : ι} (h : SmpStep lapic s i s') (hj : j ≠ i) :
    s'.phase j = s.phase j := by
  rw [SmpStep, initOtherCPUs] at h
  cases hphase : s.phase i with
  | waiting =>
      rw [hphase] at h
      simp only at h
      split_ifs at h <;> obtain rfl := Option.some.inj h
      · rfl
      · exact Function.update_of_ne hj _ _
  | released | numbered | stored =>
      rw [hphase] at h
      obtain rfl := Option.some.inj h
      exact Function.update_of_ne hj _ _
  | started =>
      rw [hphase] at h
      exact absurd h (by simp)

theorem not_smpStep_of_started {ι : Type} [DecidableEq ι] {lapic : ι → BitVec 32}
    {s : SmpState ι} {i : ι} {n : BitVec 32} (h : s.phase i = .started n)
    (s' : SmpState ι) : ¬ SmpStep lapic s i s' := by
  rw [SmpStep, initOtherCPUs, h]
  simp

end OptimistOS
