import OptimistOS.Foundation.Handover
import OptimistOS.Foundation.Run
import OptimistOS.Scheduler.Thread

/-!
# The scheduler

`pitHandler` (`isr.cpp`), `runThread` and `schedulerWrapper` (`scheduler.cpp`)
on one processor, one statement at a time. The timer interrupts whatever runs
with interrupts enabled, so a tick may arrive between any two statements of
`schedulerWrapper` and of `runThread`, and `Control` says where the processor
is. Between the statements of the scheduler the functions of the threads run;
of them the model keeps that they can be interrupted and that they can return.

`contextSwitch` does not return to `runThread`. The statements that follow its
call are never reached and the frames of its callers stay behind. Nothing in the
kernel goes back to them: `runThread` sets `rip` of every record it loads to
`schedulerWrapper`.
-/

namespace OptimistOS

open Transition

inductive RegsPtr
  /-- A frame that the interrupt stub has pushed. -/
  | frame (regs : Regs)
  /-- `&t->regs`. -/
  | thread (t : Addr)

inductive RunThread
  /-- `sti`, the tests that return, and the test for a first dispatch. -/
  | start
  /-- `runningThread->regs = *regs`. -/
  | save
  /-- `runningThread->state = THREAD_READY`. -/
  | ready
  /-- `runningThread = getNextThread(runningThread)`. -/
  | choose
  /-- `if (runningThread == nullptr) runThread(regs)`. -/
  | retry
  /-- `lock(runningThread->lock)`. -/
  | lock
  /-- `writeCrReg(3, runningThread->parentProcess->PML4)`. -/
  | pageMap
  /-- `runningThread->state = THREAD_RUNNING`. -/
  | running
  /-- `runningThread->regs.rdi = runningThread->entryPoint`. -/
  | setRdi
  /-- `runningThread->regs.rip = schedulerWrapper`. -/
  | setRip
  /-- `*regs = runningThread->regs`. -/
  | copyBack
  /-- `contextSwitch(&runningThread->regs)`. -/
  | contextSwitch
  deriving DecidableEq, Repr

/-- The statements of `schedulerWrapper` after the call of the thread's
function. -/
inductive SchedulerWrapper
  /-- `runningThread->state = THREAD_SUSPENDED`. -/
  | suspend
  /-- `unlock(runningThread->lock)`. -/
  | unlockThread
  /-- `unlock(lockx)`. -/
  | unlockLockx
  /-- `threadCount--` and `sti`. -/
  | count
  /-- `next = getNextThread(runningThread)`. -/
  | next
  /-- `runThread(&next->regs)`. -/
  | runThread (next : Addr) (point : RunThread)
  deriving DecidableEq, Repr

inductive PitHandler
  /-- `lock(lockx)`. -/
  | lock
  /-- `++pitTicks`. -/
  | count
  /-- `sti` and `runThread(regs)`. -/
  | runThread (point : RunThread)
  /-- `unlock(lockx)`. -/
  | unlock
  deriving DecidableEq, Repr

/-- Where the processor is. -/
inductive Control
  /-- In code that is not part of a thread: before the first dispatch, or in the
  endless loop at the end of `schedulerWrapper`. -/
  | idle
  /-- In the function of a thread, called by `schedulerWrapper`. -/
  | function
  | schedulerWrapper (point : SchedulerWrapper)
  /-- In the interrupt handler, with the frame of the code it interrupted. -/
  | pitHandler (point : PitHandler) (regs : Regs) (interrupted : Control)

/-- The timer interrupt is enabled. The interrupt gate disables it, the `sti` of
`runThread` enables it again. -/
def Control.Interruptible : Control → Prop
  | .pitHandler .lock _ _ => False
  | .pitHandler .count _ _ => False
  | .pitHandler (.runThread .start) _ _ => False
  | _ => True

def Control.runThread? : Control → Option RunThread
  | .schedulerWrapper (.runThread _ point) => some point
  | .pitHandler (.runThread point) _ _ => some point
  | _ => none

theorem Control.runThread?_eq_some {c : Control} {point : RunThread}
    (h : c.runThread? = some point) :
    (∃ next, c = .schedulerWrapper (.runThread next point)) ∨
      ∃ regs interrupted, c = .pitHandler (.runThread point) regs interrupted := by
  cases c with
  | idle | function => cases h
  | schedulerWrapper at_ =>
      cases at_ with
      | runThread next =>
          obtain rfl := Option.some.inj h
          exact .inl ⟨next, rfl⟩
      | _ => cases h
  | pitHandler at_ regs interrupted =>
      cases at_ with
      | runThread =>
          obtain rfl := Option.some.inj h
          exact .inr ⟨regs, interrupted, rfl⟩
      | _ => cases h

structure SchedState where
  control : Control
  kernel : Kernel

/-- What a step of the scheduler does with the saved frames: `pitHandler` stores
the frame of the running thread, or `contextSwitch` loads a context. -/
abbrev SchedEvent := Access Addr Regs CpuContext

namespace Kernel

def readRegs (k : Kernel) : RegsPtr → Option Regs
  | .frame regs => some regs
  | .thread t => return (← deref k.thread t).regs

theorem readRegs_thread (k : Kernel) {t : Addr} (h : t ≠ 0) :
    k.readRegs (.thread t) = some (k.thread t).regs := by
  rw [readRegs, deref_of_ne _ h]
  rfl

/-- `*regs = value`. Nobody reads the frame of an interrupted thread again. -/
def writeRegs (k : Kernel) (value : Regs) : RegsPtr → Option Kernel
  | .frame _ => some k
  | .thread t => do
      let _ ← deref k.thread t
      return k.modifyThread t fun thread => { thread with regs := value }

/-- `runThread` finds a thread to run. -/
def Runnable (k : Kernel) : Prop :=
  k.processHead ≠ 0 ∧ k.threadHead ≠ 0 ∧
    (k.threadList k.threadHead).threadInfo ≠ 0 ∧ k.threadCount ≠ 0

instance (k : Kernel) : Decidable k.Runnable :=
  inferInstanceAs (Decidable (_ ∧ _ ∧ _ ∧ _))

def modifyRunning (k : Kernel) (f : Thread → Thread) : Option Kernel := do
  let _ ← deref k.thread k.runningThread
  return k.modifyThread k.runningThread f

theorem modifyRunning_eq_some {k k' : Kernel} {f : Thread → Thread} :
    k.modifyRunning f = some k' ↔
      k.runningThread ≠ 0 ∧ k.modifyThread k.runningThread f = k' := by
  simp only [modifyRunning, Option.bind_eq_bind, Option.bind_eq_some_iff,
    deref_eq_some, Option.pure_def, Option.some.injEq]
  exact ⟨fun ⟨_, h, hk⟩ => ⟨h.1, hk⟩, fun h => ⟨_, ⟨h.1, rfl⟩, h.2⟩⟩

theorem modifyRunning_of_ne {k : Kernel} (f : Thread → Thread)
    (h : k.runningThread ≠ 0) :
    k.modifyRunning f = some (k.modifyThread k.runningThread f) := by
  rw [modifyRunning, deref_of_ne _ h]
  rfl

/-- A statement of `runThread`, without the call of `contextSwitch`, and where
it leads; `none` is its return. -/
def runThread (schedulerWrapper : Word) (regs : RegsPtr) (k : Kernel) :
    RunThread → Option (Option RunThread × Kernel)
  | .start =>
      if ¬ k.Runnable then
        some (none, k)
      else if k.runningThread = 0 then
        some (some .lock, { k with
          runningThread := (k.threadList k.threadHead).threadInfo })
      else
        some (some .save, k)
  | .save => do
      let value ← k.readRegs regs
      let k ← k.modifyRunning fun thread => { thread with regs := value }
      return (some .ready, k)
  | .ready => do
      let k ← k.modifyRunning fun thread => { thread with state := .ready }
      return (some .choose, k)
  | .choose => do
      let next ← k.getNextThread k.runningThread
      return (some .retry, { k with runningThread := next })
  | .retry =>
      if k.runningThread ≠ 0 then
        some (some .lock, k)
      else if k.Runnable then
        -- the inner call starts over with the head of the list
        some (some .lock, { k with
          runningThread := (k.threadList k.threadHead).threadInfo })
      else
        -- the inner call returns, and the null pointer is dereferenced
        none
  | .lock => do
      let thread ← deref k.thread k.runningThread
      if thread.lock = 0 then
        let k ← k.modifyRunning fun thread => { thread with lock := 1 }
        return (some .pageMap, k)
      else
        return (some .lock, k)
  | .pageMap => do
      let thread ← deref k.thread k.runningThread
      let process ← deref k.process thread.parentProcess
      return (some .running, { k with cr3 := process.PML4 })
  | .running => do
      let k ← k.modifyRunning fun thread => { thread with state := .running }
      return (some .setRdi, k)
  | .setRdi => do
      let k ← k.modifyRunning fun thread => { thread with
        regs := Function.update thread.regs (.reg .rdi) thread.entryPoint }
      return (some .setRip, k)
  | .setRip => do
      let k ← k.modifyRunning fun thread => { thread with
        regs := Function.update thread.regs .rip schedulerWrapper }
      return (some .copyBack, k)
  | .copyBack => do
      let thread ← deref k.thread k.runningThread
      let k ← k.writeRegs thread.regs regs
      return (some .contextSwitch, k)
  | .contextSwitch => none

inductive RunThreadStep (w : Word) (regs : RegsPtr) (k : Kernel) :
    RunThread → Option RunThread → Kernel → Prop
  | returns (h : ¬ k.Runnable) : RunThreadStep w regs k .start none k
  | first (h : k.Runnable) (hrunning : k.runningThread = 0) :
      RunThreadStep w regs k .start (some .lock)
        { k with runningThread := (k.threadList k.threadHead).threadInfo }
  | start (h : k.Runnable) (hrunning : k.runningThread ≠ 0) :
      RunThreadStep w regs k .start (some .save) k
  | save {value : Regs} (hvalue : k.readRegs regs = some value)
      (hrunning : k.runningThread ≠ 0) :
      RunThreadStep w regs k .save (some .ready)
        (k.modifyThread k.runningThread fun thread =>
          { thread with regs := value })
  | ready (hrunning : k.runningThread ≠ 0) :
      RunThreadStep w regs k .ready (some .choose)
        (k.modifyThread k.runningThread fun thread =>
          { thread with state := .ready })
  | choose {next : Addr} (hnext : k.getNextThread k.runningThread = some next) :
      RunThreadStep w regs k .choose (some .retry)
        { k with runningThread := next }
  | chosen (hrunning : k.runningThread ≠ 0) :
      RunThreadStep w regs k .retry (some .lock) k
  | retry (h : k.Runnable) (hrunning : k.runningThread = 0) :
      RunThreadStep w regs k .retry (some .lock)
        { k with runningThread := (k.threadList k.threadHead).threadInfo }
  | lock (hlock : (k.thread k.runningThread).lock = 0)
      (hrunning : k.runningThread ≠ 0) :
      RunThreadStep w regs k .lock (some .pageMap)
        (k.modifyThread k.runningThread fun thread =>
          { thread with lock := 1 })
  | spin (hlock : (k.thread k.runningThread).lock ≠ 0)
      (hrunning : k.runningThread ≠ 0) :
      RunThreadStep w regs k .lock (some .lock) k
  | pageMap (hrunning : k.runningThread ≠ 0)
      (hprocess : (k.thread k.runningThread).parentProcess ≠ 0) :
      RunThreadStep w regs k .pageMap (some .running)
        { k with
          cr3 := (k.process (k.thread k.runningThread).parentProcess).PML4 }
  | running (hrunning : k.runningThread ≠ 0) :
      RunThreadStep w regs k .running (some .setRdi)
        (k.modifyThread k.runningThread fun thread =>
          { thread with state := .running })
  | setRdi (hrunning : k.runningThread ≠ 0) :
      RunThreadStep w regs k .setRdi (some .setRip)
        (k.modifyThread k.runningThread fun thread => { thread with
          regs := Function.update thread.regs (.reg .rdi) thread.entryPoint })
  | setRip (hrunning : k.runningThread ≠ 0) :
      RunThreadStep w regs k .setRip (some .copyBack)
        (k.modifyThread k.runningThread fun thread => { thread with
          regs := Function.update thread.regs .rip w })
  | copyBack {k' : Kernel} (hrunning : k.runningThread ≠ 0)
      (hwrite : k.writeRegs (k.thread k.runningThread).regs regs = some k') :
      RunThreadStep w regs k .copyBack (some .contextSwitch) k'

theorem runThread_step {w : Word} {regs : RegsPtr} {k k' : Kernel}
    {point : RunThread} {next : Option RunThread}
    (h : k.runThread w regs point = some (next, k')) :
    RunThreadStep w regs k point next k' := by
  cases point <;>
    simp only [runThread, Option.bind_eq_bind, Option.pure_def,
      Option.bind_eq_some_iff, modifyRunning_eq_some, deref_eq_some,
      Option.some.injEq, Prod.mk.injEq] at h
  case start =>
    split_ifs at h with hrunnable hrunning
    · obtain ⟨rfl, rfl⟩ := h
      exact .first hrunnable hrunning
    · obtain ⟨rfl, rfl⟩ := h
      exact .start hrunnable hrunning
    · obtain ⟨rfl, rfl⟩ := h
      exact .returns hrunnable
  case save =>
    obtain ⟨value, hvalue, _, ⟨hrunning, rfl⟩, rfl, rfl⟩ := h
    exact .save hvalue hrunning
  case choose =>
    obtain ⟨n, hnext, rfl, rfl⟩ := h
    exact .choose hnext
  case retry =>
    split_ifs at h with hrunning hrunnable
    · obtain ⟨rfl, rfl⟩ := Prod.mk.inj (Option.some.inj h)
      exact .chosen hrunning
    · obtain ⟨rfl, rfl⟩ := Prod.mk.inj (Option.some.inj h)
      exact .retry hrunnable (not_not.1 hrunning)
  case lock =>
    obtain ⟨_, ⟨hrunning, rfl⟩, h⟩ := h
    split_ifs at h with hlock
    · simp only [Option.bind_eq_some_iff, modifyRunning_eq_some,
        Option.some.injEq, Prod.mk.injEq] at h
      obtain ⟨_, ⟨-, rfl⟩, rfl, rfl⟩ := h
      exact .lock hlock hrunning
    · obtain ⟨rfl, rfl⟩ := Prod.mk.inj (Option.some.inj h)
      exact .spin hlock hrunning
  case pageMap =>
    obtain ⟨_, ⟨hrunning, rfl⟩, _, ⟨hprocess, rfl⟩, rfl, rfl⟩ := h
    exact .pageMap hrunning hprocess
  case copyBack =>
    obtain ⟨_, ⟨hrunning, rfl⟩, _, hwrite, rfl, rfl⟩ := h
    exact .copyBack hrunning hwrite
  case contextSwitch => exact absurd h (by simp)
  all_goals obtain ⟨_, ⟨hrunning, rfl⟩, rfl, rfl⟩ := h
  case ready => exact .ready hrunning
  case running => exact .running hrunning
  case setRdi => exact .setRdi hrunning
  case setRip => exact .setRip hrunning

theorem RunThreadStep.run {w : Word} {regs : RegsPtr} {k k' : Kernel}
    {point : RunThread} {next : Option RunThread}
    (h : RunThreadStep w regs k point next k') :
    k.runThread w regs point = some (next, k') := by
  cases h with
  | returns h => rw [runThread, if_pos h]
  | first h hrunning =>
      rw [runThread, if_neg (not_not.2 h), if_pos hrunning]
  | start h hrunning =>
      rw [runThread, if_neg (not_not.2 h), if_neg hrunning]
  | chosen hrunning => rw [runThread, if_pos hrunning]
  | retry h hrunning =>
      rw [runThread, if_neg (not_not.2 hrunning), if_pos h]
  | save hvalue hrunning =>
      rw [runThread, hvalue]
      exact congrArg (Option.bind · _) (modifyRunning_of_ne _ hrunning)
  | ready hrunning | running hrunning | setRdi hrunning | setRip hrunning =>
      rw [runThread, modifyRunning_of_ne _ hrunning]
      rfl
  | choose hnext =>
      rw [runThread, hnext]
      rfl
  | lock hlock hrunning =>
      rw [runThread, deref_of_ne _ hrunning]
      change (if (k.thread k.runningThread).lock = 0 then _ else _) = _
      rw [if_pos hlock, modifyRunning_of_ne _ hrunning]
      rfl
  | spin hlock hrunning =>
      rw [runThread, deref_of_ne _ hrunning]
      exact if_neg hlock
  | pageMap hrunning hprocess =>
      rw [runThread, deref_of_ne _ hrunning]
      change Option.bind (deref k.process _) _ = _
      rw [deref_of_ne _ hprocess]
      rfl
  | copyBack hrunning hwrite =>
      rw [runThread, deref_of_ne _ hrunning]
      change Option.bind (k.writeRegs _ regs) _ = _
      rw [hwrite]
      rfl

/-- A statement of `schedulerWrapper` and where it leads; `none` is the endless
loop at its end. -/
def schedulerWrapper (wrapper : Word) (k : Kernel) :
    SchedulerWrapper → Option (Option SchedulerWrapper × Kernel)
  | .suspend => do
      let k ← k.modifyRunning fun thread => { thread with state := .suspended }
      return (some .unlockThread, k)
  | .unlockThread => do
      let k ← k.modifyRunning fun thread => { thread with lock := 0 }
      return (some .unlockLockx, k)
  | .unlockLockx => some (some .count, { k with lockx := 0 })
  | .count => some (some .next, { k with threadCount := k.threadCount - 1 })
  | .next => do
      let next ← k.getNextThread k.runningThread
      return (some (.runThread next .start), k)
  | .runThread next point => do
      let (point, k) ← k.runThread wrapper (.thread next) point
      return (point.map (.runThread next), k)

/-- A statement of `pitHandler` and where it leads; `none` is its return. -/
def pitHandler (wrapper : Word) (regs : Regs) (k : Kernel) :
    PitHandler → Option (Option PitHandler × Kernel)
  | .lock =>
      if k.lockx = 0 then
        some (some .count, { k with lockx := 1 })
      else
        some (some .lock, k)
  | .count => some (some (.runThread .start),
      { k with pitTicks := k.pitTicks + 1 })
  | .runThread point => do
      let (point, k) ← k.runThread wrapper (.frame regs) point
      return (some (point.elim .unlock .runThread), k)
  | .unlock => some (none, { k with lockx := 0 })

theorem schedulerWrapper_runThread {w : Word} {k k' : Kernel} {n : Addr}
    {point : RunThread} {next : Option SchedulerWrapper}
    (h : k.schedulerWrapper w (.runThread n point) = some (next, k')) :
    ∃ p, RunThreadStep w (.thread n) k point p k' ∧
      next = p.map (.runThread n) := by
  simp only [schedulerWrapper, Option.bind_eq_bind, Option.pure_def,
    Option.bind_eq_some_iff, Prod.exists, Option.some.injEq,
    Prod.mk.injEq] at h
  obtain ⟨p, k', hrun, rfl, rfl⟩ := h
  exact ⟨p, runThread_step hrun, rfl⟩

theorem pitHandler_runThread {w : Word} {k k' : Kernel} {regs : Regs}
    {point : RunThread} {next : Option PitHandler}
    (h : k.pitHandler w regs (.runThread point) = some (next, k')) :
    ∃ p, RunThreadStep w (.frame regs) k point p k' ∧
      next = some (p.elim .unlock .runThread) := by
  simp only [pitHandler, Option.bind_eq_bind, Option.pure_def,
    Option.bind_eq_some_iff, Prod.exists, Option.some.injEq,
    Prod.mk.injEq] at h
  obtain ⟨p, k', hrun, rfl, rfl⟩ := h
  exact ⟨p, runThread_step hrun, rfl⟩

end Kernel

def SchedState.proceed (wrapper : Word) (s : SchedState) : Option SchedState :=
  match s.control with
  | .idle => none
  | .function => none
  | .schedulerWrapper point => do
      let (point, k) ← s.kernel.schedulerWrapper wrapper point
      return ⟨point.elim .idle .schedulerWrapper, k⟩
  | .pitHandler point regs interrupted => do
      let (point, k) ← s.kernel.pitHandler wrapper regs point
      return ⟨point.elim interrupted (.pitHandler · regs interrupted), k⟩

theorem SchedState.proceed_eq_some {w : Word} {control : Control} {k : Kernel}
    {s' : SchedState} (h : SchedState.proceed w ⟨control, k⟩ = some s') :
    (∃ point next k', control = .schedulerWrapper point ∧
      k.schedulerWrapper w point = some (next, k') ∧
        s' = ⟨next.elim .idle .schedulerWrapper, k'⟩) ∨
      ∃ point regs interrupted next k',
        control = .pitHandler point regs interrupted ∧
        k.pitHandler w regs point = some (next, k') ∧
          s' = ⟨next.elim interrupted (.pitHandler · regs interrupted), k'⟩ := by
  cases control with
  | idle | function => exact absurd h (by simp [SchedState.proceed])
  | schedulerWrapper point =>
      simp only [SchedState.proceed, Option.bind_eq_bind, Option.pure_def,
        Option.bind_eq_some_iff, Prod.exists, Option.some.injEq] at h
      obtain ⟨next, k', hstep, rfl⟩ := h
      exact Or.inl ⟨point, next, k', rfl, hstep, rfl⟩
  | pitHandler point regs interrupted =>
      simp only [SchedState.proceed, Option.bind_eq_bind, Option.pure_def,
        Option.bind_eq_some_iff, Prod.exists, Option.some.injEq] at h
      obtain ⟨next, k', hstep, rfl⟩ := h
      exact Or.inr ⟨point, regs, interrupted, next, k', rfl, hstep, rfl⟩

def SchedState.event (s : SchedState) : SchedEvent :=
  match s.control with
  | .pitHandler (.runThread .save) regs _ => .put s.kernel.runningThread regs
  | _ => .silent

def SchedState.proceeds (wrapper : Word) : ℕ → SchedState → Option SchedState
  | 0, s => some s
  | n + 1, s =>
      match s.event with
      | .silent => (s.proceed wrapper).bind (proceeds wrapper n)
      | _ => none

/-- One step of the processor, with `schedulerWrapper` at the address
`wrapper`. -/
inductive SchedStep (wrapper : Word) :
    SchedState → SchedEvent → SchedState → Prop
  /-- The timer interrupts the processor, and the stub pushes the frame
  `regs`. -/
  | tick {s : SchedState} (regs : Regs) (h : s.control.Interruptible) :
      SchedStep wrapper s .silent
        { s with control := .pitHandler .lock regs s.control }
  /-- The function of a thread returns. -/
  | finish {k : Kernel} :
      SchedStep wrapper ⟨.function, k⟩ .silent
        ⟨.schedulerWrapper .suspend, k⟩
  | proceed {s s' : SchedState} (h : s.proceed wrapper = some s') :
      SchedStep wrapper s s.event s'
  /-- `contextSwitch(&runningThread->regs)`, called by the processor in the
  state `c`. It continues at `schedulerWrapper`, which calls the function of the
  thread. -/
  | contextSwitch {s : SchedState} (c : Cpu)
      (h : s.control.runThread? = some .contextSwitch)
      (hnull : s.kernel.runningThread ≠ 0)
      (hc : PassesRegs c (s.kernel.thread s.kernel.runningThread).regs) :
      SchedStep wrapper s
        (.take s.kernel.runningThread
          (runInstrs OptimistOS.contextSwitch c).toCpuContext)
        ⟨.function, s.kernel⟩

end OptimistOS
