import OptimistOS.Scheduler.Locks

/-!
# The address spaces of the threads

`runThread` writes `cr3` before it marks a thread as running, with interrupts
enabled all the while. A tick that arrives in between either waits for `lockx`
for ever or finds nothing to run and returns, or it puts the thread back and
takes another one, and then the interrupted code is not returned to. So the
function of a thread runs in the address space of its own process, whenever the
ticks arrive, and no second thread is marked as running.

`Reached` says what holds before each statement of `runThread`, `ResumesIn` what
holds of code that `pitHandler` may return to, and `PlacedIn` what holds where
the processor is.
-/

namespace OptimistOS

open Transition

namespace Kernel

/-- The running thread is dispatched: it is marked as running and holds its lock,
and the page map of its process is loaded. -/
structure Dispatched (k : Kernel) : Prop where
  ne_zero : k.runningThread ≠ 0
  state : (k.thread k.runningThread).state = .running
  cr3 : k.cr3 = (k.process (k.thread k.runningThread).parentProcess).PML4
  lock : (k.thread k.runningThread).lock ≠ 0

def NoneRuns (threads : Set Addr) (k : Kernel) : Prop :=
  ∀ t ∈ threads, (k.thread t).state ≠ .running

def OnlyRuns (threads : Set Addr) (k : Kernel) : Prop :=
  ∀ t ∈ threads, (k.thread t).state = .running → t = k.runningThread ∧ t ≠ 0

variable {threads : Set Addr} {k k' : Kernel}

theorem NoneRuns.onlyRuns (h : k.NoneRuns threads) : k.OnlyRuns threads :=
  fun t ht hstate => absurd hstate (h t ht)

theorem OnlyRuns.noneRuns (h : k.OnlyRuns threads) (hnull : k.runningThread = 0) :
    k.NoneRuns threads := by
  intro t ht hstate
  obtain ⟨rfl, hne⟩ := h t ht hstate
  exact hne hnull

theorem NoneRuns.congr (h : k.NoneRuns threads)
    (hstate : ∀ t, (k'.thread t).state = (k.thread t).state) :
    k'.NoneRuns threads :=
  fun t ht hrun => h t ht ((hstate t).symm.trans hrun)

theorem OnlyRuns.congr (h : k.OnlyRuns threads)
    (hstate : ∀ t, (k'.thread t).state = (k.thread t).state)
    (hrunning : k'.runningThread = k.runningThread) : k'.OnlyRuns threads := by
  intro t ht hrun
  rw [hrunning]
  exact h t ht ((hstate t).symm.trans hrun)

theorem OnlyRuns.modifyRunning (h : k.OnlyRuns threads)
    (hrunning : k.runningThread ≠ 0) (f : Thread → Thread) :
    (k.modifyThread k.runningThread f).OnlyRuns threads := by
  intro t ht hstate
  by_cases hr : t = k.runningThread
  · exact ⟨hr, hr ▸ hrunning⟩
  · rw [modifyThread_of_ne k f hr] at hstate
    exact h t ht hstate

theorem OnlyRuns.noneRuns_modify (h : k.OnlyRuns threads) {f : Thread → Thread}
    (hf : (f (k.thread k.runningThread)).state ≠ .running) :
    (k.modifyThread k.runningThread f).NoneRuns threads := by
  intro t ht hstate
  by_cases hr : t = k.runningThread
  · rw [hr, modifyThread_self] at hstate
    exact hf hstate
  · rw [modifyThread_of_ne k f hr] at hstate
    exact hr (h t ht hstate).1

theorem Dispatched.congr (h : k.Dispatched)
    (hrunning : k'.runningThread = k.runningThread) (hcr3 : k'.cr3 = k.cr3)
    (hprocess : k'.process = k.process)
    (hstate : ∀ t, (k'.thread t).state = (k.thread t).state)
    (hparent : ∀ t, (k'.thread t).parentProcess = (k.thread t).parentProcess)
    (hlock : ∀ t, (k'.thread t).lock = (k.thread t).lock) : k'.Dispatched := by
  refine ⟨hrunning ▸ h.ne_zero, ?_, ?_, ?_⟩
  · rw [hrunning, hstate]
    exact h.state
  · rw [hrunning, hcr3, hprocess, hparent]
    exact h.cr3
  · rw [hrunning, hlock]
    exact h.lock

theorem Dispatched.modifyRegs (h : k.Dispatched) (t : Addr)
    (f : Thread → Regs) :
    (k.modifyThread t fun thread => { thread with regs := f thread }).Dispatched :=
  h.congr rfl rfl rfl (fun u => modifyThread_member k t u Thread.state rfl)
    (fun u => modifyThread_member k t u Thread.parentProcess rfl)
    (fun u => modifyThread_member k t u Thread.lock rfl)

def Reached (threads : Set Addr) (k : Kernel) : RunThread → Prop
  | .start | .save | .ready => True
  | .choose | .retry | .lock => k.NoneRuns threads
  | .pageMap =>
      k.NoneRuns threads ∧ (k.thread k.runningThread).lock ≠ 0
  | .running =>
      k.NoneRuns threads ∧ (k.thread k.runningThread).lock ≠ 0 ∧
        k.cr3 = (k.process (k.thread k.runningThread).parentProcess).PML4
  | .setRdi | .setRip | .copyBack | .contextSwitch => k.Dispatched

theorem onlyRuns_writeRegs {value : Regs} {regs : RegsPtr}
    (h : k.OnlyRuns threads) (hwrite : k.writeRegs value regs = some k') :
    k'.OnlyRuns threads := by
  cases regs with
  | frame =>
      obtain rfl := Option.some.inj hwrite
      exact h
  | thread n =>
      simp only [writeRegs, Option.bind_eq_bind, Option.pure_def,
        Option.bind_eq_some_iff, Option.some.injEq] at hwrite
      obtain ⟨_, -, rfl⟩ := hwrite
      exact h.congr (fun u => modifyThread_member k n u Thread.state rfl) rfl

theorem Dispatched.writeRegs {value : Regs} {regs : RegsPtr}
    (h : k.Dispatched) (hwrite : k.writeRegs value regs = some k') :
    k'.Dispatched := by
  cases regs with
  | frame =>
      obtain rfl := Option.some.inj hwrite
      exact h
  | thread n =>
      simp only [Kernel.writeRegs, Option.bind_eq_bind, Option.pure_def,
        Option.bind_eq_some_iff, Option.some.injEq] at hwrite
      obtain ⟨_, -, rfl⟩ := hwrite
      exact h.modifyRegs n fun _ => value

theorem RunThreadStep.onlyRuns {w : Word} {regs : RegsPtr} {point : RunThread}
    {next : Option RunThread} (hstep : RunThreadStep w regs k point next k')
    (h : k.OnlyRuns threads) (hreached : k.Reached threads point) :
    k'.OnlyRuns threads := by
  cases hstep with
  | returns | start | chosen | spin => exact h
  | pageMap => exact h.congr (fun _ => rfl) rfl
  | first _ hnull =>
      have hnone := h.noneRuns hnull
      exact NoneRuns.onlyRuns (hnone.congr fun _ => rfl)
  | retry | choose =>
      apply NoneRuns.onlyRuns
      exact NoneRuns.congr hreached fun _ => rfl
  | save _ hrunning | ready hrunning | lock _ hrunning | running hrunning
  | setRdi hrunning | setRip hrunning => exact h.modifyRunning hrunning _
  | copyBack _ hwrite => exact onlyRuns_writeRegs h hwrite

theorem RunThreadStep.reached {w : Word} {regs : RegsPtr}
    {point point' : RunThread}
    (hstep : RunThreadStep w regs k point (some point') k')
    (h : k.OnlyRuns threads) (hreached : k.Reached threads point) :
    k'.Reached threads point' := by
  cases hstep with
  | start | save => trivial
  | first _ hnull => exact (h.noneRuns hnull).congr fun _ => rfl
  | ready => exact h.noneRuns_modify ThreadState.noConfusion
  | choose | chosen | retry => exact NoneRuns.congr hreached fun _ => rfl
  | spin => exact hreached
  | lock =>
      refine ⟨NoneRuns.congr hreached fun t =>
        modifyThread_member k _ t Thread.state rfl, ?_⟩
      rw [modifyThread_runningThread, modifyThread_self]
      change (1 : BitVec 32) ≠ 0
      decide
  | pageMap => exact ⟨hreached.1.congr fun _ => rfl, hreached.2, rfl⟩
  | running hrunning =>
      obtain ⟨-, hlock, hcr3⟩ := hreached
      refine ⟨hrunning, ?_, ?_, ?_⟩ <;>
        rw [modifyThread_runningThread, modifyThread_self]
      · exact hcr3
      · exact hlock
  | setRdi | setRip => exact Dispatched.modifyRegs hreached _ _
  | copyBack _ hwrite => exact Dispatched.writeRegs hreached hwrite

def ResumesIn (threads : Set Addr) (k : Kernel) : Control → Prop
  | .pitHandler _ _ _ => False
  | .function => k.Dispatched
  | .schedulerWrapper (.runThread _ point) => k.Reached threads point
  | _ => True

/-- What holds where the processor is. A handler that has found `lockx` taken
does not get any further. -/
def PlacedIn (threads : Set Addr) (k : Kernel) : Control → Prop
  | .pitHandler .lock _ interrupted =>
      k.lockx = 0 → k.ResumesIn threads interrupted
  | .pitHandler (.runThread .start) _ interrupted =>
      k.lockx ≠ 0 ∧ k.ResumesIn threads interrupted
  | .pitHandler (.runThread point) _ _ => k.lockx ≠ 0 ∧ k.Reached threads point
  | .pitHandler _ _ interrupted => k.lockx ≠ 0 ∧ k.ResumesIn threads interrupted
  | c => k.ResumesIn threads c

theorem ResumesIn.placedIn {c : Control} (h : k.ResumesIn threads c) :
    k.PlacedIn threads c := by
  cases c with
  | pitHandler => exact h.elim
  | _ => exact h

theorem ResumesIn.congr {c : Control} (h : k.ResumesIn threads c)
    (hthread : k'.thread = k.thread)
    (hrunning : k'.runningThread = k.runningThread) (hcr3 : k'.cr3 = k.cr3)
    (hprocess : k'.process = k.process) : k'.ResumesIn threads c := by
  cases c with
  | idle => trivial
  | pitHandler => exact h.elim
  | function =>
      refine Dispatched.congr h hrunning hcr3 hprocess ?_ ?_ ?_ <;> intro t <;>
        rw [hthread]
  | schedulerWrapper at_ =>
      cases at_ with
      | runThread n point =>
          cases point with
          | start | save | ready => trivial
          | choose | retry | lock | pageMap | running =>
              simpa only [ResumesIn, Reached, NoneRuns, hthread, hrunning, hcr3,
                hprocess] using h
          | setRdi | setRip | copyBack | contextSwitch =>
              refine Dispatched.congr h hrunning hcr3 hprocess ?_ ?_ ?_ <;>
                intro t <;> rw [hthread]
      | _ => trivial

end Kernel

/-- The running thread is the only one that is marked, and its address space is
loaded where its function runs. -/
structure SpacesKept (threads : Set Addr) (s : SchedState) : Prop where
  only : s.kernel.OnlyRuns threads
  placed : s.kernel.PlacedIn threads s.control

namespace SpacesKept

variable {w : Word} {threads : Set Addr}

theorem tick {s : SchedState} (h : SpacesKept threads s) (regs : Regs)
    (hc : s.control.Interruptible) :
    SpacesKept threads { s with control := .pitHandler .lock regs s.control } := by
  obtain ⟨control, k⟩ := s
  refine ⟨h.only, ?_⟩
  have hplaced := h.placed
  cases control with
  | idle | function | schedulerWrapper => exact fun _ => hplaced
  | pitHandler point =>
      cases point with
      | lock | count => exact hc.elim
      | unlock => exact fun hfree => absurd hfree hplaced.1
      | runThread point =>
          cases point <;> exact fun hfree => absurd hfree hplaced.1

theorem modifyRunning {c c' : Control} {k : Kernel} {f : Thread → Thread}
    (h : SpacesKept threads ⟨c, k⟩) (hrunning : k.runningThread ≠ 0)
    (hplaced : (k.modifyThread k.runningThread f).PlacedIn threads c') :
    SpacesKept threads ⟨c', k.modifyThread k.runningThread f⟩ :=
  ⟨Kernel.OnlyRuns.modifyRunning h.only hrunning f, hplaced⟩

theorem schedulerWrapper {k k' : Kernel} {point : SchedulerWrapper}
    {next : Option SchedulerWrapper}
    (h : SpacesKept threads ⟨.schedulerWrapper point, k⟩)
    (hstep : k.schedulerWrapper w point = some (next, k')) :
    SpacesKept threads ⟨next.elim .idle .schedulerWrapper, k'⟩ := by
  cases point with
  | runThread n point =>
      obtain ⟨next, hrun, rfl⟩ := Kernel.schedulerWrapper_runThread hstep
      refine ⟨hrun.onlyRuns h.only h.placed, ?_⟩
      cases next with
      | none => trivial
      | some point' => exact hrun.reached h.only h.placed
  | unlockLockx | count =>
      obtain ⟨rfl, rfl⟩ := Prod.mk.inj (Option.some.inj hstep)
      exact ⟨h.only.congr (fun _ => rfl) rfl, trivial⟩
  | suspend | unlockThread =>
      simp only [Kernel.schedulerWrapper, Option.bind_eq_bind, Option.pure_def,
        Option.bind_eq_some_iff, Kernel.modifyRunning_eq_some,
        Option.some.injEq, Prod.mk.injEq] at hstep
      obtain ⟨_, ⟨hrunning, rfl⟩, rfl, rfl⟩ := hstep
      exact h.modifyRunning hrunning trivial
  | next =>
      simp only [Kernel.schedulerWrapper, Option.bind_eq_bind, Option.pure_def,
        Option.bind_eq_some_iff, Option.some.injEq, Prod.mk.injEq] at hstep
      obtain ⟨n, -, rfl, rfl⟩ := hstep
      exact ⟨h.only, trivial⟩

/-- A statement of `pitHandler`. -/
theorem pitHandler {k k' : Kernel} {point : PitHandler} {regs : Regs}
    {interrupted : Control} {next : Option PitHandler}
    (h : SpacesKept threads ⟨.pitHandler point regs interrupted, k⟩)
    (hstep : k.pitHandler w regs point = some (next, k')) :
    SpacesKept threads
      ⟨next.elim interrupted (.pitHandler · regs interrupted), k'⟩ := by
  have hplaced := h.placed
  cases point with
  | lock =>
      rw [Kernel.pitHandler] at hstep
      split_ifs at hstep with hfree
      · obtain ⟨rfl, rfl⟩ := Prod.mk.inj (Option.some.inj hstep)
        refine ⟨h.only.congr (fun _ => rfl) rfl, ?_, ?_⟩
        · change (1 : BitVec 32) ≠ 0
          decide
        · exact (hplaced hfree).congr rfl rfl rfl rfl
      · obtain ⟨rfl, rfl⟩ := Prod.mk.inj (Option.some.inj hstep)
        exact h
  | count =>
      obtain ⟨rfl, rfl⟩ := Prod.mk.inj (Option.some.inj hstep)
      exact ⟨h.only.congr (fun _ => rfl) rfl, hplaced.1,
        hplaced.2.congr rfl rfl rfl rfl⟩
  | unlock =>
      obtain ⟨rfl, rfl⟩ := Prod.mk.inj (Option.some.inj hstep)
      have hunlocked : Kernel.ResumesIn threads { k with lockx := 0 } interrupted :=
        hplaced.2.congr rfl rfl rfl rfl
      exact ⟨h.only.congr (fun _ => rfl) rfl, hunlocked.placedIn⟩
  | runThread point =>
      obtain ⟨next, hrun, rfl⟩ := Kernel.pitHandler_runThread hstep
      have hreached : k.Reached threads point := by
        cases point with
        | start => trivial
        | _ => exact hplaced.2
      refine ⟨hrun.onlyRuns h.only hreached, ?_⟩
      have hlockx : k'.lockx ≠ 0 := by
        rw [hrun.lockx_eq]
        cases point <;> exact hplaced.1
      have hnext : ∀ p, next = some p → k'.Reached threads p := by
        rintro p rfl
        exact hrun.reached h.only hreached
      cases hrun with
      | returns => exact hplaced
      | _ => exact ⟨hlockx, hnext _ rfl⟩

theorem step {s s' : SchedState} {e : SchedEvent} (h : SpacesKept threads s)
    (hstep : SchedStep w s e s') : SpacesKept threads s' := by
  cases hstep with
  | tick regs hc => exact h.tick regs hc
  | finish => exact ⟨h.only, trivial⟩
  | contextSwitch c hpoint =>
      obtain ⟨control, k⟩ := s
      refine ⟨h.only, ?_⟩
      rcases Control.runThread?_eq_some hpoint with
        ⟨next, rfl⟩ | ⟨regs, interrupted, rfl⟩
      · exact h.placed
      · exact h.placed.2
  | proceed hproceed =>
      obtain ⟨control, k⟩ := s
      obtain ⟨point, next, k', rfl, hpoint, rfl⟩ |
        ⟨point, regs, interrupted, next, k', rfl, hpoint, rfl⟩ :=
          SchedState.proceed_eq_some hproceed
      · exact h.schedulerWrapper hpoint
      · exact h.pitHandler hpoint

theorem start {s : SchedState} (hidle : s.control = .idle)
    (hnone : s.kernel.NoneRuns threads) : SpacesKept threads s := by
  refine ⟨hnone.onlyRuns, ?_⟩
  rw [hidle]
  trivial

end SpacesKept

end OptimistOS
