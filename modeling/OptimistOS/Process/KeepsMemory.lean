import OptimistOS.Foundation.Keeps
import OptimistOS.Process.Creation

/-!
# What processes leave to the memory management

A property of the memory that the calls of the memory management keep is kept by
the functions that set up a process: they only change their own records besides.
-/

namespace OptimistOS

open ByteMemory ByteMemory.Code

variable {α : Type} {M : MemoryManager α} {P : Machine 64 α → Prop}

/-- The sizes that `mallocx` is asked for when a process is set up. -/
def blockSizes : List Word :=
  [sizeofProcessInternal, THREAD_STACK_SIZE, sizeofThreadList]

/-- The memory management keeps `P` in all calls that set up a process, up to
`newPML4`. -/
structure KeepsCalls (M : MemoryManager α) (P : Machine 64 α → Prop) :
    Prop where
  frame : ∀ size, Keeps P (M.frame size)
  toPhysicalAddr : ∀ addr, Keeps P (M.toPhysicalAddr addr)
  mallocx : ∀ size ∈ blockSizes, Keeps P (M.mallocx size)
  map : ∀ physicalAddr virtualAddr,
    Keeps P (M.map physicalAddr virtualAddr stackFlags)

def OnMemory (P : Machine 64 α → Prop) (s : Machine 64 (ProcessGlobals α)) :
    Prop :=
  P ⟨s.mem, s.globals.memory⟩

theorem keeps_callMemory {β : Type} {x : Code 64 α β} (h : Keeps P x) :
    Keeps (OnMemory P) (callMemory x) :=
  h.zoom fun _ _ => rfl

theorem keeps_modifyRecords {f : ProcessGlobals α → ProcessGlobals α}
    (hf : ∀ g, (f g).memory = g.memory) :
    Keeps (OnMemory P) (modifyGlobals f) :=
  .modifyGlobals fun m g h => by
    change P ⟨m, (f g).memory⟩
    rw [hf]
    exact h

theorem KeepsCalls.allocateVirtual (h : KeepsCalls M P) (size : Word) :
    Keeps (OnMemory P) (allocateVirtual M size) :=
  fun s p s' hs hrun => keeps_callMemory (h.frame size) s p s' hs
    (allocateVirtual_eq_ok.1 hrun)

theorem KeepsCalls.ensureProcesses (h : KeepsCalls M P) :
    Keeps (OnMemory P) (ensureProcesses M) := by
  refine .bind .get fun _ => .ite (.bind (.bind (h.allocateVirtual 8) fun _ =>
    .bind ?_ fun _ => .pure _) fun _ => ?_) (.pure _)
  · exact keeps_modifyRecords fun _ => rfl
  · exact keeps_modifyRecords fun _ => rfl

theorem KeepsCalls.setupProcessInfo (h : KeepsCalls M P) :
    Keeps (OnMemory P) (setupProcessInfo M) := by
  refine .bind (keeps_callMemory (h.mallocx _ (by simp [blockSizes])))
    fun _ => .bind ?_ fun _ => .bind ?_ fun _ => .bind ?_ fun _ => .pure _
  all_goals exact keeps_modifyRecords fun _ => rfl

theorem KeepsCalls.mapStack (h : KeepsCalls M P) (stack : Addr) :
    Keeps (OnMemory P) (mapStack M stack) :=
  .forLoop (fun _ => .bind (keeps_callMemory (h.toPhysicalAddr stack)) fun _ =>
    .bind (keeps_callMemory (h.map _ _)) fun _ => .pure _) _ _

theorem KeepsCalls.setupThreadContext (h : KeepsCalls M P) (thread : Addr)
    (entryPoint : Word) (user : Bool) (state : ThreadState) :
    Keeps (OnMemory P) (setupThreadContext M thread entryPoint user state) := by
  have hrecords : ∀ (f : ProcessGlobals α → ProcessGlobals α)
      (_ : ∀ g, (f g).memory = g.memory),
      Keeps (OnMemory P) (modifyGlobals f) := fun _ => keeps_modifyRecords
  refine .bind (h.allocateVirtual _) fun stack => .bind (hrecords _ fun _ => rfl)
    fun _ => .bind (keeps_callMemory (h.mallocx _ (by simp [blockSizes])))
      fun _ => .bind (hrecords _ fun _ => rfl) fun _ => ?_
  dsimp only
  split_ifs
  · exact .bind (hrecords _ fun _ => rfl) fun _ => .bind (h.mapStack stack)
      fun _ => .bind (hrecords _ fun _ => rfl) fun _ =>
        .bind (hrecords _ fun _ => rfl) fun _ => hrecords _ fun _ => rfl
  · exact .bind (hrecords _ fun _ => rfl) fun _ =>
      .bind (hrecords _ fun _ => rfl) fun _ =>
        .bind (hrecords _ fun _ => rfl) fun _ => hrecords _ fun _ => rfl

theorem keeps_lockThreads :
    Keeps (OnMemory P) (lockThreads : Code 64 (ProcessGlobals α) Unit) :=
  .bind .get fun _ => .ite (keeps_modifyRecords fun _ => rfl) (.throw _)

theorem keeps_unlockThreads :
    Keeps (OnMemory P) (unlockThreads : Code 64 (ProcessGlobals α) Unit) :=
  keeps_modifyRecords (f := fun g => { g with threadMutex := 0 }) fun _ => rfl

theorem KeepsCalls.addThreadToList (h : KeepsCalls M P) (fuel : ℕ)
    (thread : Addr) : Keeps (OnMemory P) (addThreadToList M fuel thread) := by
  have hrecords : ∀ (f : ProcessGlobals α → ProcessGlobals α)
      (_ : ∀ g, (f g).memory = g.memory),
      Keeps (OnMemory P) (modifyGlobals f) := fun _ => keeps_modifyRecords
  refine .bind keeps_lockThreads fun _ => .bind .get fun s => .ite ?_ ?_
  · exact .bind (h.allocateVirtual _) fun _ => .bind (hrecords _ fun _ => rfl)
      fun _ => .bind (hrecords _ fun _ => rfl) fun _ =>
        .bind (hrecords _ fun _ => rfl) fun _ => keeps_unlockThreads
  · refine .bind .get fun t => ?_
    dsimp only
    split
    · exact .throw _
    · exact .bind (keeps_callMemory (h.mallocx _ (by simp [blockSizes])))
        fun _ => .bind (hrecords _ fun _ => rfl) fun _ =>
          .bind (hrecords _ fun _ => rfl) fun _ =>
            .bind (hrecords _ fun _ => rfl) fun _ => keeps_unlockThreads

theorem KeepsCalls.createThreadInternal (h : KeepsCalls M P) (fuel : ℕ)
    (thread : Addr) (entrypoint : Word) (priority : ThreadPriority)
    (cpuID : Word) (state : ThreadState) (user : Bool) :
    Keeps (OnMemory P) (createThreadInternal M fuel thread entrypoint priority
      cpuID state user) := by
  refine .bind h.ensureProcesses fun _ => .bind .get fun s => ?_
  dsimp only
  split_ifs
  · exact .bind (.throw _) fun _ => .bind (h.setupThreadContext _ _ _ state) fun _ =>
      .bind (keeps_modifyRecords fun _ => rfl) fun _ =>
        .bind (h.addThreadToList fuel thread) fun _ =>
          .bind (keeps_modifyRecords fun _ => rfl) fun _ => .pure _
  · exact .bind (h.setupThreadContext _ _ _ state) fun _ =>
      .bind (keeps_modifyRecords fun _ => rfl) fun _ =>
        .bind (h.addThreadToList fuel thread) fun _ =>
          .bind (keeps_modifyRecords fun _ => rfl) fun _ => .pure _

end OptimistOS
