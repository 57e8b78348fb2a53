import OptimistOS.Process.ListWalks

/-!
# Leaving `createProcessFromRoutine`

`createProcessFromRoutine` turns the interrupts off and takes `processMutex`
before it does anything else. It gives both back at its end, behind the two early
returns: a call that finds a null pointer in the variable it never sets, or that
gets no frame for the record of the process, keeps the lock and leaves the
interrupts off.
-/

namespace OptimistOS

open ByteMemory ByteMemory.Code LinkedList

variable {α : Type}

/-- The memory calls of `createProcessFromRoutine` up to the record of the
process: a frame for the head of the list if there is none, and the record. -/
def MemoryManager.recordFrame (M : MemoryManager α) (g : ProcessGlobals α) :
    Code 64 α Addr :=
  if g.processHead = 0 then do
    let _ ← M.frame 8
    M.frame sizeofProcess
  else
    M.frame sizeofProcess

/-- A call that leads from `g` to `g'` and returns `p` has given back the lock
and the interrupts, and has changed no list if it returns the null pointer. -/
structure ExitsCleanly (g g' : ProcessGlobals α) (p : Addr) : Prop where
  processMutex : g'.processMutex = 0
  interrupts : g'.interrupts = true
  processes : p = 0 → ∀ ps, ListsProcesses g ps → ListsProcesses g' ps
  threads : p = 0 → ∀ ts, CarriesThreads g ts → CarriesThreads g' ts
  processCount : p = 0 → g'.processCount = g.processCount
  threadCount : p = 0 → g'.threadCount = g.threadCount

theorem exists_run_recordFrame {M : MemoryManager α} {processInfo : Addr}
    {s s₁ s₂ : Machine 64 (ProcessGlobals α)}
    (hensure : (ensureProcesses M).run ⟨s.mem, { s.globals with
      interrupts := false, processMutex := 1 }⟩ = .ok () s₁)
    (hinfo : (allocateVirtual M sizeofProcess).run s₁ = .ok processInfo s₂) :
    ∃ t, (M.recordFrame s.globals).run ⟨s.mem, s.globals.memory⟩ =
      .ok processInfo t := by
  obtain ⟨t, hframe, -⟩ := run_callMemory_eq_ok.1
    (allocateVirtual_eq_ok.1 hinfo)
  refine ⟨t, ?_⟩
  rw [MemoryManager.recordFrame]
  rcases ensureProcesses_eq_ok hensure with ⟨hhead, rfl⟩ | ⟨hhead, p, u, hp, rfl⟩
  · rw [if_neg hhead]
    exact hframe
  · rw [if_pos hhead]
    obtain ⟨v, hv, rfl⟩ := run_callMemory_eq_ok.1 (allocateVirtual_eq_ok.1 hp)
    exact (run_bind_of_ok hv).trans hframe

/-- A call that returns has left cleanly exactly if the variable that it does
not set is not null and it got a frame for the record of the process. -/
theorem exitsCleanly_iff {M : MemoryManager α} {fuel : ℕ}
    {locals : UninitLocals} {routine : Routine} {p : Addr}
    {s s' : Machine 64 (ProcessGlobals α)}
    (h : (createProcessFromRoutine M fuel locals routine).run s = .ok p s') :
    ExitsCleanly s.globals s'.globals p ↔ locals.threadInfo ≠ 0 ∧
      ∀ t, (M.recordFrame s.globals).run ⟨s.mem, s.globals.memory⟩ ≠
        .ok 0 t := by
  obtain ⟨-, s₁, processInfo, s₂, process, s₃, hensure, hinfo, hprocess, hend⟩ :=
    createProcessFromRoutine_eq_ok h
  obtain ⟨t, hframe⟩ := exists_run_recordFrame hensure hinfo
  rcases hend with ⟨hnull, -, rfl⟩ | ⟨hne, hlocal, hthread⟩
  · have hmutex := processMutex_beforeThread hensure hinfo hprocess
    refine iff_of_false (fun hexit => ?_) ?_
    · rw [hexit.processMutex] at hmutex
      exact absurd hmutex (by decide)
    · rintro ⟨hlocal, hanswer⟩
      rcases hnull with rfl | hnull
      · exact hanswer t hframe
      · exact hlocal hnull
  · obtain ⟨rfl, threadInfo, t₁, PML4, t₂, t₃, -, -, -, rfl⟩ :=
      createThread_eq_ok hthread
    have hzero : ∀ {P : Prop}, p = 0 → P := fun hp => absurd hp hne
    refine iff_of_true ⟨rfl, rfl, hzero, hzero, hzero, hzero⟩
      ⟨hlocal, fun u hu => ?_⟩
    rw [hframe, EStateM.Result.ok.injEq] at hu
    exact hne hu.1

/-- The first call on fresh memory leaves cleanly. -/
theorem exitsCleanly_iff_bumpKernel :
    ∃ p s, (createProcessFromRoutine bumpMemory 2 freeLocals kernelRoutine).run
        bumpKernel = .ok p s ∧
      ExitsCleanly bumpKernel.globals s.globals p := by
  obtain ⟨s, hrun⟩ : ∃ s, (createProcessFromRoutine bumpMemory 2 freeLocals
      kernelRoutine).run bumpKernel = .ok 0x100008 s := ⟨_, rfl⟩
  refine ⟨_, s, hrun, (exitsCleanly_iff hrun).2 ⟨by decide, fun t ht => ?_⟩⟩
  obtain ⟨u, hu⟩ : ∃ u, (bumpMemory.recordFrame bumpKernel.globals).run
      ⟨bumpKernel.mem, bumpKernel.globals.memory⟩ = .ok 0x100008 u := ⟨_, rfl⟩
  rw [hu, EStateM.Result.ok.injEq] at ht
  exact absurd ht.1 (by decide)

/-- With a null pointer in the variable it keeps the lock. -/
theorem exists_not_exitsCleanly :
    ∃ (locals : UninitLocals) (s' : Machine 64 (ProcessGlobals Word)),
      (createProcessFromRoutine bumpMemory 2 locals kernelRoutine).run
        bumpKernel = .ok 0 s' ∧
      ¬ ExitsCleanly bumpKernel.globals s'.globals 0 := by
  obtain ⟨s', hrun, hmutex⟩ : ∃ s', (createProcessFromRoutine bumpMemory 2
      ⟨0, 0⟩ kernelRoutine).run bumpKernel = .ok 0 s' ∧
      s'.globals.processMutex = 1 := ⟨_, rfl, rfl⟩
  refine ⟨⟨0, 0⟩, s', hrun, fun hexit => ?_⟩
  rw [hexit.processMutex] at hmutex
  exact absurd hmutex (by decide)

end OptimistOS
