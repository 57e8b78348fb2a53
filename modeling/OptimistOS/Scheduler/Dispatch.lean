import OptimistOS.Scheduler.Scheduler

/-!
# Passes of the scheduler

What the statements of the scheduler do together: `runThread` puts the running
thread back and chooses the next one (`switched`), takes its lock and loads its
context (`dispatched`), and `schedulerWrapper` ends a thread (`ended`). A pass
is a piece of a run, for `runThread` with either of its callers.
-/

namespace OptimistOS

open Transition

namespace Kernel

/-- The kernel after `runThread` has put the running thread back with the
registers `value` and has chosen `next`. -/
def switched (k : Kernel) (value : Regs) (next : Addr) : Kernel :=
  { k.modifyThread k.runningThread fun thread =>
      { thread with regs := value, state := .ready } with
    runningThread := next }

/-- The kernel after `runThread` has prepared the running thread for
`contextSwitch`. -/
def dispatched (w : Word) (k : Kernel) : Kernel :=
  { k.modifyThread k.runningThread fun thread =>
      { thread with
        lock := 1
        state := .running
        regs := Function.update
          (Function.update thread.regs (.reg .rdi) thread.entryPoint) .rip w }
    with cr3 := (k.process (k.thread k.runningThread).parentProcess).PML4 }

@[simp] theorem dispatched_runningThread (w : Word) (k : Kernel) :
    (k.dispatched w).runningThread = k.runningThread := rfl

theorem dispatched_rip (w : Word) (k : Kernel) :
    ((k.dispatched w).thread k.runningThread).regs .rip = w := by
  simp only [dispatched, modifyThread, Function.update_self]

/-- The kernel after `schedulerWrapper` has suspended the running thread and
released its lock. -/
def ended (k : Kernel) : Kernel :=
  k.modifyThread k.runningThread fun thread =>
    { thread with state := .suspended, lock := 0 }

theorem writeRegs_running {k : Kernel} {regs : RegsPtr}
    (h : ∀ t, regs = .thread t → t = k.runningThread)
    (hrunning : k.runningThread ≠ 0) :
    k.writeRegs (k.thread k.runningThread).regs regs = some k := by
  cases regs with
  | frame => rfl
  | thread t =>
      obtain rfl := h t rfl
      rw [writeRegs, deref_of_ne _ hrunning]
      exact congrArg some (modifyThread_eq_self k k.runningThread rfl)

end Kernel

/-- `runThread`, called with the argument `regs`, is at the statements
`caller point`. -/
structure CallsRunThread (w : Word) (regs : RegsPtr)
    (caller : RunThread → Control) : Prop where
  proceed : ∀ {k k' : Kernel} {point point' : RunThread},
    Kernel.RunThreadStep w regs k point (some point') k' →
    SchedState.proceed w ⟨caller point, k⟩ = some ⟨caller point', k'⟩
  silent : ∀ {k : Kernel} {point : RunThread}, point ≠ .save →
    SchedState.event ⟨caller point, k⟩ = .silent
  runThread? : ∀ point, (caller point).runThread? = some point

theorem callsRunThread_pitHandler (w : Word) (regs : Regs)
    (interrupted : Control) :
    CallsRunThread w (.frame regs)
      (fun point => .pitHandler (.runThread point) regs interrupted) := by
  refine ⟨fun h => ?_, fun {k point} h => ?_, fun _ => rfl⟩
  · rw [SchedState.proceed]
    simp only [Kernel.pitHandler, h.run]
    rfl
  · cases point with
    | save => exact absurd rfl h
    | _ => rfl

theorem callsRunThread_schedulerWrapper (w : Word) (next : Addr) :
    CallsRunThread w (.thread next)
      (fun point => .schedulerWrapper (.runThread next point)) := by
  refine ⟨fun h => ?_, fun _ => rfl, fun _ => rfl⟩
  rw [SchedState.proceed]
  simp only [Kernel.schedulerWrapper, h.run]
  rfl

/-- The steps of `R` include those of the code, without the ticks and without
the statement that stores a frame. -/
structure RunsCode (w : Word) (R : SchedState → SchedEvent → SchedState → Prop) :
    Prop where
  finish : ∀ k, R ⟨.function, k⟩ .silent ⟨.schedulerWrapper .suspend, k⟩
  proceed : ∀ {s s' : SchedState}, s.event = .silent → s.proceed w = some s' →
    R s .silent s'
  contextSwitch : ∀ {s : SchedState} (c : Cpu),
    s.control.runThread? = some .contextSwitch → s.kernel.runningThread ≠ 0 →
    PassesRegs c (s.kernel.thread s.kernel.runningThread).regs →
    R s (.take s.kernel.runningThread
      (runInstrs OptimistOS.contextSwitch c).toCpuContext)
      ⟨.function, s.kernel⟩

theorem SchedStep.of_proceed {w : Word} {s s' : SchedState}
    (hevent : s.event = .silent) (h : s.proceed w = some s') :
    SchedStep w s .silent s' :=
  hevent ▸ .proceed h

theorem runsCode_guarded (w : Word) {guard : SchedState → SchedEvent → Prop}
    (hsilent : ∀ s, guard s .silent) (htake : ∀ s t c, guard s (.take t c)) :
    RunsCode w (Guarded guard (SchedStep w)) :=
  ⟨fun _ => ⟨hsilent _, .finish⟩,
    fun hevent h => ⟨hsilent _, .of_proceed hevent h⟩,
    fun c h hnull hc => ⟨htake _ _ _, .contextSwitch c h hnull hc⟩⟩

theorem run_proceeds {w : Word} {R : SchedState → SchedEvent → SchedState → Prop}
    (hR : RunsCode w R) {s₀ s s' : SchedState} {es : List SchedEvent} {n : ℕ}
    (h : Run R s₀ es s) (hn : s.proceeds w n = some s') :
    Run R s₀ (es ++ List.replicate n .silent) s' := by
  induction n generalizing es s with
  | zero =>
      obtain rfl := Option.some.inj hn
      rwa [List.replicate_zero, List.append_nil]
  | succ n ih =>
      rw [SchedState.proceeds] at hn
      split at hn
      · next hevent =>
          obtain ⟨t, ht, hn⟩ := Option.bind_eq_some_iff.1 hn
          have hrest := ih (h.snoc (hR.proceed hevent ht)) hn
          rwa [List.append_assoc, List.singleton_append,
            ← List.replicate_succ] at hrest
      · exact absurd hn (by simp)

section Passes

variable {w : Word} {R : SchedState → SchedEvent → SchedState → Prop}
  {regs : RegsPtr} {caller : RunThread → Control}

theorem CallsRunThread.step (hcall : CallsRunThread w regs caller)
    (hR : RunsCode w R) {k k' : Kernel} {point point' : RunThread}
    (h : Kernel.RunThreadStep w regs k point (some point') k')
    (hsave : point ≠ .save) :
    R ⟨caller point, k⟩ .silent ⟨caller point', k'⟩ :=
  hR.proceed (hcall.silent hsave) (hcall.proceed h)

/-- From the lock of the running thread to its first instruction. -/
theorem run_dispatched (hcall : CallsRunThread w regs caller)
    (hR : RunsCode w R) {s₀ : SchedState} {es : List SchedEvent} {k : Kernel}
    (h : Run R s₀ es ⟨caller .lock, k⟩)
    (hregs : ∀ t, regs = .thread t → t = k.runningThread)
    (hrunning : k.runningThread ≠ 0)
    (hlock : (k.thread k.runningThread).lock = 0)
    (hprocess : (k.thread k.runningThread).parentProcess ≠ 0) :
    ∃ c, c.rip = w ∧ Run R s₀
      (es ++ List.replicate 6 .silent ++ [.take k.runningThread c])
      ⟨.function, k.dispatched w⟩ := by
  replace h := h.snoc (hcall.step hR (.lock hlock hrunning) (by simp))
  have hprocess' : ∀ {f : Thread → Thread},
      (f (k.thread k.runningThread)).parentProcess =
        (k.thread k.runningThread).parentProcess →
      ((k.modifyThread k.runningThread f).thread
        k.runningThread).parentProcess ≠ 0 := by
    intro f hf
    rwa [Kernel.modifyThread_self, hf]
  replace h := h.snoc (
    hcall.step hR (.pageMap hrunning (hprocess' rfl)) (by simp))
  replace h := h.snoc (hcall.step hR (.running hrunning) (by simp))
  replace h := h.snoc (hcall.step hR (.setRdi hrunning) (by simp))
  replace h := h.snoc (hcall.step hR (.setRip hrunning) (by simp))
  simp only [Kernel.modifyThread, Function.update_self,
    Function.update_idem] at h
  change Run _ s₀ _ ⟨caller .copyBack, k.dispatched w⟩ at h
  rw [← Kernel.dispatched_runningThread w k] at hregs hrunning
  replace h := h.snoc (hcall.step hR
    (.copyBack hrunning (Kernel.writeRegs_running hregs hrunning)) (by simp))
  obtain ⟨c, hc⟩ := exists_passesRegs
    ((k.dispatched w).thread (k.dispatched w).runningThread).regs
  refine ⟨(runInstrs contextSwitch c).toCpuContext, ?_, ?_⟩
  · rw [contextSwitch_context hc]
    exact Kernel.dispatched_rip w k
  · have hlast := h.snoc
      (hR.contextSwitch c (hcall.runThread? _) hrunning hc)
    rw [Kernel.dispatched_runningThread] at hlast
    simpa only [List.append_assoc, List.cons_append, List.nil_append,
      List.replicate] using hlast

/-- From the next statement after `*regs` was saved to the lock of the thread that
comes next. -/
theorem run_switched (hcall : CallsRunThread w regs caller)
    (hR : RunsCode w R) {s₀ : SchedState} {es : List SchedEvent}
    {k : Kernel} {value : Regs} {next : Addr}
    (h : Run R s₀ es
      ⟨caller .ready, k.modifyThread k.runningThread fun thread =>
        { thread with regs := value }⟩)
    (hrunning : k.runningThread ≠ 0)
    (hnext : k.getNextThread k.runningThread = some next) (hne : next ≠ 0) :
    Run R s₀ (es ++ List.replicate 3 .silent)
      ⟨caller .lock, k.switched value next⟩ := by
  replace h := h.snoc (hcall.step hR (.ready hrunning) (by simp))
  rw [Kernel.modifyThread_runningThread, Kernel.modifyThread_modifyThread] at h
  have hsame := Kernel.sameThreads_modifyThread k k.runningThread
    (f := fun thread => { thread with regs := value, state := .ready }) rfl rfl
  replace h := h.snoc (
    hcall.step hR (.choose ((hsame.getNextThread _).trans hnext)) (by simp))
  replace h := h.snoc (hcall.step hR (.chosen hne) (by simp))
  change Run _ s₀ _ ⟨caller .lock, k.switched value next⟩ at h
  simpa only [List.append_assoc, List.cons_append, List.nil_append,
    List.replicate] using h

omit caller regs in
theorem run_pitHandler (hR : RunsCode w R) {s₀ : SchedState}
    {es : List SchedEvent} {c : Control} {k : Kernel} {F : Regs}
    (h : Run R s₀ es ⟨.pitHandler .lock F c, k⟩) (hlockx : k.lockx = 0) :
    Run R s₀ (es ++ List.replicate 2 .silent)
      ⟨.pitHandler (.runThread .start) F c,
        { k with lockx := 1, pitTicks := k.pitTicks + 1 }⟩ := by
  have hlock : SchedState.proceed w ⟨.pitHandler .lock F c, k⟩ =
      some ⟨.pitHandler .count F c, { k with lockx := 1 }⟩ := by
    rw [SchedState.proceed]
    simp only [Kernel.pitHandler, if_pos hlockx]
    rfl
  replace h := h.snoc (hR.proceed rfl hlock)
  replace h := h.snoc (hR.proceed rfl rfl)
  simp only [List.append_assoc, List.cons_append, List.nil_append] at h
  exact h

omit caller regs in
theorem run_ended (hR : RunsCode w R) {s₀ : SchedState}
    {es : List SchedEvent} {k : Kernel}
    (h : Run R s₀ es ⟨.function, k⟩)
    (hrunning : k.runningThread ≠ 0) :
    Run R s₀ (es ++ List.replicate 3 .silent)
      ⟨.schedulerWrapper .unlockLockx, k.ended⟩ := by
  have hsuspend : SchedState.proceed w ⟨.schedulerWrapper .suspend, k⟩ =
      some ⟨.schedulerWrapper .unlockThread,
        k.modifyThread k.runningThread fun thread =>
          { thread with state := .suspended }⟩ := by
    rw [SchedState.proceed]
    simp only [Kernel.schedulerWrapper, Kernel.modifyRunning_of_ne _ hrunning]
    rfl
  have hunlock : ∀ k : Kernel, k.runningThread ≠ 0 →
      SchedState.proceed w ⟨.schedulerWrapper .unlockThread, k⟩ =
        some ⟨.schedulerWrapper .unlockLockx,
          k.modifyThread k.runningThread fun thread =>
            { thread with lock := 0 }⟩ := by
    intro k hk
    rw [SchedState.proceed]
    simp only [Kernel.schedulerWrapper, Kernel.modifyRunning_of_ne _ hk]
    rfl
  replace h := h.snoc (hR.finish _)
  replace h := h.snoc (hR.proceed rfl hsuspend)
  replace h := h.snoc (hR.proceed rfl (hunlock _ hrunning))
  rw [Kernel.modifyThread_runningThread, Kernel.modifyThread_modifyThread] at h
  simp only [List.append_assoc, List.cons_append, List.nil_append] at h
  exact h

end Passes

def firstThread : Addr := 0xffff800000220000

def secondThread : Addr := 0xffff800000221000

/-- Two threads as `createProcessFromRoutine` leaves them: both have the thread
ID 2. -/
def twoThreads : Kernel where
  processHead := 0xffff800000200000
  threadHead := 0xffff800000210000
  threadCount := 2
  runningThread := 0
  lockx := 0
  pitTicks := 0
  cr3 := 0x100000
  thread t :=
    { threadID := 2
      regs := fun f =>
        match f with
        | .cs => 0x28
        | .eFlags => 0x202
        | .ss => 0x30
        | _ => 0
      priority := .high
      stackAddress := 0x5000
      cpuID := 0
      kernelStack := 0x5000
      entryPoint :=
        if t = firstThread then 0xffffffff80001000 else 0xffffffff80001100
      state := .ready
      parentProcess := 0xffff800000230000
      lock := 0 }
  threadList p :=
    if p = 0xffff800000210000 then
      ⟨firstThread, 0xffff800000211000⟩
    else
      ⟨secondThread, 0⟩
  process _ := ⟨0x100000⟩

end OptimistOS
