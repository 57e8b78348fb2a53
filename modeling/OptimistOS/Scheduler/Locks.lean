import OptimistOS.Scheduler.Dispatch

/-!
# The locks of the scheduler

`pitHandler` takes `lockx` and `runThread` takes the lock of the thread it has
chosen, but neither gives it back when a thread is dispatched: `contextSwitch`
does not return. The locks are released by `schedulerWrapper` when the function
of the thread has returned. So a tick that arrives while a thread dispatched by
`pitHandler` still runs its function finds `lockx` taken and spins, and so does
`runThread` when it comes back to a thread that was preempted.

`Unfinished` records what has begun and not ended along a run: the tick whose
`pitHandler` has neither returned nor been let go by `schedulerWrapper`, and the
threads that `runThread` has taken and `schedulerWrapper` has not ended. In the
runs in which no tick arrives during another one, and in which `runThread` never
chooses an unfinished thread, every lock is free when it is taken.
-/

namespace OptimistOS

open Transition

/-- What has begun and not ended. -/
structure Unfinished where
  tick : Prop
  threads : Set Addr

/-- The locks that are taken next are free: `lockx` where `pitHandler` starts,
and the lock of the thread that `runThread` has chosen. -/
structure LocksFree (s : SchedState) : Prop where
  lockx : ∀ regs interrupted, s.control = .pitHandler .lock regs interrupted →
    s.kernel.lockx = 0
  thread : s.control.runThread? = some .lock →
    (s.kernel.thread s.kernel.runningThread).lock = 0

namespace Unfinished

def afterRunThread (u : Unfinished) (k : Kernel) : RunThread → Unfinished
  | .lock => { u with threads := Insert.insert k.runningThread u.threads }
  | _ => u

def after (u : Unfinished) (s : SchedState) : Unfinished :=
  match s.control with
  | .pitHandler .lock _ _ => { u with tick := True }
  | .pitHandler .unlock _ _ => { u with tick := False }
  | .pitHandler (.runThread point) _ _ => u.afterRunThread s.kernel point
  | .schedulerWrapper .unlockThread =>
      { u with threads := u.threads \ {s.kernel.runningThread} }
  | .schedulerWrapper .unlockLockx => { u with tick := False }
  | .schedulerWrapper (.runThread _ point) => u.afterRunThread s.kernel point
  | _ => u

end Unfinished

structure TrackedState where
  state : SchedState
  unfinished : Unfinished

/-- A step is the arrival of a tick or something the processor does. -/
inductive Move
  | tick
  | code
  deriving DecidableEq, Repr

inductive TrackedStep (w : Word) : TrackedState → Move → TrackedState → Prop
  | tick {s : SchedState} {u : Unfinished} (regs : Regs)
      (h : s.control.Interruptible) :
      TrackedStep w ⟨s, u⟩ .tick
        ⟨{ s with control := .pitHandler .lock regs s.control }, u⟩
  | finish {k : Kernel} {u : Unfinished} :
      TrackedStep w ⟨⟨.function, k⟩, u⟩ .code
        ⟨⟨.schedulerWrapper .suspend, k⟩, u⟩
  | proceed {s s' : SchedState} {u : Unfinished}
      (h : s.proceed w = some s') :
      TrackedStep w ⟨s, u⟩ .code ⟨s', u.after s⟩
  | contextSwitch {s : SchedState} {u : Unfinished} (c : Cpu)
      (h : s.control.runThread? = some .contextSwitch)
      (hnull : s.kernel.runningThread ≠ 0)
      (hc : PassesRegs c (s.kernel.thread s.kernel.runningThread).regs) :
      TrackedStep w ⟨s, u⟩ .code ⟨⟨.function, s.kernel⟩, u⟩

theorem exists_trackedStep_iff {w : Word} {s s' : SchedState}
    {u : Unfinished} :
    (∃ m u', TrackedStep w ⟨s, u⟩ m ⟨s', u'⟩) ↔ ∃ e, SchedStep w s e s' := by
  constructor
  · rintro ⟨m, u', h⟩
    cases h with
    | tick regs h => exact ⟨_, .tick regs h⟩
    | finish => exact ⟨_, .finish⟩
    | proceed h => exact ⟨_, .proceed h⟩
    | contextSwitch c h hnull hc => exact ⟨_, .contextSwitch c h hnull hc⟩
  · rintro ⟨e, h⟩
    cases h with
    | tick regs h => exact ⟨_, _, .tick regs h⟩
    | finish => exact ⟨_, _, .finish⟩
    | proceed h => exact ⟨_, _, .proceed h⟩
    | contextSwitch c h hnull hc => exact ⟨_, _, .contextSwitch c h hnull hc⟩

def Kernel.ChoosesFinished (k : Kernel) (threads : Set Addr) :
    RunThread → Prop
  | .choose => ∀ next, k.getNextThread k.runningThread = some next →
      next ∉ threads
  | .start | .retry => k.runningThread = 0 →
      (k.threadList k.threadHead).threadInfo ∉ threads
  | _ => True

/-- The condition under which a step leads to a free lock. -/
def FindsFinished (x : TrackedState) : Move → Prop
  | .tick => ¬ x.unfinished.tick
  | .code => ∀ point, x.state.control.runThread? = some point →
      x.state.kernel.ChoosesFinished x.unfinished.threads point

namespace Kernel

theorem RunThreadStep.lockx_eq {w : Word} {regs : RegsPtr} {k k' : Kernel}
    {point : RunThread} {next : Option RunThread}
    (h : RunThreadStep w regs k point next k') : k'.lockx = k.lockx := by
  cases h with
  | copyBack hrunning hwrite =>
      cases regs with
      | frame =>
          obtain rfl := Option.some.inj hwrite
          rfl
      | thread t =>
          simp only [writeRegs, Option.bind_eq_bind, Option.pure_def,
            Option.bind_eq_some_iff, Option.some.injEq] at hwrite
          obtain ⟨_, -, rfl⟩ := hwrite
          rfl
  | _ => rfl

/-- `runThread` touches the lock of the running thread only, and only where it
takes it. -/
theorem RunThreadStep.lock_eq {w : Word} {regs : RegsPtr} {k k' : Kernel}
    {point : RunThread} {next : Option RunThread}
    (h : RunThreadStep w regs k point next k') (t : Addr)
    (ht : point = .lock → t ≠ k.runningThread) :
    (k'.thread t).lock = (k.thread t).lock := by
  cases h with
  | returns | first | start | choose | chosen | retry | spin | pageMap => rfl
  | save | ready | running | setRdi | setRip =>
      exact modifyThread_member k _ t Thread.lock rfl
  | lock => rw [modifyThread_of_ne k _ (ht rfl)]
  | copyBack hrunning hwrite =>
      cases regs with
      | frame =>
          obtain rfl := Option.some.inj hwrite
          rfl
      | thread n =>
          simp only [writeRegs, Option.bind_eq_bind, Option.pure_def,
            Option.bind_eq_some_iff, Option.some.injEq] at hwrite
          obtain ⟨_, -, rfl⟩ := hwrite
          exact modifyThread_member k _ t Thread.lock rfl

def ChosenFinished (k : Kernel) (threads : Set Addr) : RunThread → Prop
  | .lock => k.runningThread ∉ threads
  | .retry => k.runningThread ≠ 0 → k.runningThread ∉ threads
  | _ => True

/-- What holds of code that a tick has interrupted and will return to. -/
def Resumable (k : Kernel) (u : Unfinished) : Control → Prop
  | .pitHandler _ _ _ => False
  | .schedulerWrapper (.runThread _ point) => k.ChosenFinished u.threads point
  | _ => True

/-- What holds where the processor is. -/
def InPlace (k : Kernel) (u : Unfinished) : Control → Prop
  | .pitHandler .lock _ interrupted => ¬ u.tick ∧ k.Resumable u interrupted
  | .pitHandler (.runThread .start) _ interrupted =>
      u.tick ∧ k.Resumable u interrupted
  | .pitHandler (.runThread point) _ _ =>
      u.tick ∧ k.ChosenFinished u.threads point
  | .pitHandler _ _ interrupted => u.tick ∧ k.Resumable u interrupted
  | c => k.Resumable u c

theorem Resumable.inPlace {k : Kernel} {u : Unfinished} {c : Control}
    (h : k.Resumable u c) : k.InPlace u c := by
  cases c with
  | pitHandler => exact h.elim
  | _ => exact h

theorem Resumable.congr {k k' : Kernel} {u u' : Unfinished} {c : Control}
    (h : k.Resumable u c) (hrunning : k'.runningThread = k.runningThread)
    (hthreads : u'.threads = u.threads) : k'.Resumable u' c := by
  cases c with
  | idle | function => trivial
  | pitHandler => exact h.elim
  | schedulerWrapper at_ =>
      cases at_ with
      | runThread n point =>
          cases point with
          | lock | retry =>
              simpa only [Resumable, ChosenFinished, hrunning, hthreads] using h
          | _ => trivial
      | _ => trivial

theorem ChosenFinished.step {w : Word} {regs : RegsPtr} {k k' : Kernel}
    {point point' : RunThread} {threads : Set Addr}
    (h : RunThreadStep w regs k point (some point') k')
    (hchosen : k.ChosenFinished threads point)
    (hchooses : k.ChoosesFinished threads point) :
    k'.ChosenFinished threads point' := by
  cases h with
  | first h hrunning => exact hchooses hrunning
  | choose hnext => exact fun _ => hchooses _ hnext
  | chosen hrunning => exact hchosen hrunning
  | retry h hrunning => exact hchooses hrunning
  | spin => exact hchosen
  | _ => trivial

end Kernel

/-- Every lock that is taken belongs to something unfinished. -/
structure LocksTracked (x : TrackedState) : Prop where
  lockx : x.state.kernel.lockx ≠ 0 → x.unfinished.tick
  thread : ∀ t, (x.state.kernel.thread t).lock ≠ 0 → t ∈ x.unfinished.threads
  inPlace : x.state.kernel.InPlace x.unfinished x.state.control

theorem LocksTracked.locksFree {x : TrackedState} (h : LocksTracked x) :
    LocksFree x.state := by
  have hplace := h.inPlace
  refine ⟨fun regs c hc => ?_, fun hpoint => ?_⟩
  · rw [hc] at hplace
    exact not_not.1 fun hne => hplace.1 (h.lockx hne)
  · refine not_not.1 fun hne => ?_
    have hmem := h.thread _ hne
    rcases Control.runThread?_eq_some hpoint with ⟨next, hc⟩ | ⟨regs, c, hc⟩
    · rw [hc] at hplace
      exact hplace hmem
    · rw [hc] at hplace
      exact hplace.2 hmem

theorem LocksTracked.start {s : SchedState} (hidle : s.control = .idle)
    (hlockx : s.kernel.lockx = 0) (hlock : ∀ t, (s.kernel.thread t).lock = 0) :
    LocksTracked ⟨s, ⟨False, ∅⟩⟩ := by
  refine ⟨fun hne => absurd hlockx hne, fun t hne => absurd (hlock t) hne, ?_⟩
  rw [hidle]
  trivial

theorem LocksTracked.tick {s : SchedState} {u : Unfinished}
    (h : LocksTracked ⟨s, u⟩) (regs : Regs) (htick : ¬ u.tick)
    (hc : s.control.Interruptible) :
    LocksTracked
      ⟨{ s with control := .pitHandler .lock regs s.control }, u⟩ := by
  obtain ⟨control, k⟩ := s
  refine ⟨h.lockx, h.thread, htick, ?_⟩
  have hplace := h.inPlace
  cases control with
  | pitHandler point =>
      cases point with
      | lock => exact hc.elim
      | count | unlock => exact absurd hplace.1 htick
      | runThread point =>
          cases point <;> exact absurd hplace.1 htick
  | _ => exact hplace

/-- A statement of `runThread`, with either of its callers. -/
theorem LocksTracked.runThread {w : Word} {c : Control} {k k' : Kernel}
    {u : Unfinished} (h : LocksTracked ⟨⟨c, k⟩, u⟩) {regs : RegsPtr}
    {point : RunThread} {next : Option RunThread}
    (hstep : Kernel.RunThreadStep w regs k point next k')
    (hchosen : k.ChosenFinished u.threads point)
    (hchooses : k.ChoosesFinished u.threads point) {c' : Control}
    (hplace : (∀ p, next = some p →
        k'.ChosenFinished (u.afterRunThread k point).threads p) →
      k'.InPlace (u.afterRunThread k point) c') :
    LocksTracked ⟨⟨c', k'⟩, u.afterRunThread k point⟩ := by
  by_cases hpoint : point = .lock
  · subst hpoint
    refine ⟨fun hne => h.lockx (hstep.lockx_eq ▸ hne), fun t hne => ?_,
      hplace fun p hp => ?_⟩
    · by_cases ht : t = k.runningThread
      · exact ht ▸ Set.mem_insert _ _
      · refine Set.mem_insert_of_mem _ (h.thread t fun heq => hne ?_)
        exact (hstep.lock_eq t fun _ => ht).trans heq
    · cases hstep with
      | lock =>
          obtain rfl := Option.some.inj hp
          trivial
      | spin hlock => exact absurd (h.thread _ hlock) hchosen
  · have hafter : u.afterRunThread k point = u := by
      cases point <;> first | rfl | exact absurd rfl hpoint
    rw [hafter] at hplace ⊢
    refine ⟨fun hne => h.lockx (hstep.lockx_eq ▸ hne), fun t hne => ?_,
      hplace fun p hp => ?_⟩
    · exact h.thread t fun heq => hne
        ((hstep.lock_eq t fun hp => absurd hp hpoint).trans heq)
    · subst hp
      exact hchosen.step hstep hchooses

theorem LocksTracked.modifyRunning {c c' : Control} {k : Kernel}
    {u : Unfinished} (h : LocksTracked ⟨⟨c, k⟩, u⟩) {f : Thread → Thread}
    (hf : ∀ thread, (f thread).lock = thread.lock)
    (hplace : (k.modifyThread k.runningThread f).InPlace u c') :
    LocksTracked ⟨⟨c', k.modifyThread k.runningThread f⟩, u⟩ := by
  refine ⟨h.lockx, fun t hne => h.thread t fun heq => hne ?_, hplace⟩
  exact (Kernel.modifyThread_member k k.runningThread t Thread.lock
    (hf _)).trans heq

theorem LocksTracked.unlockThread {c c' : Control} {k : Kernel}
    {u : Unfinished} (h : LocksTracked ⟨⟨c, k⟩, u⟩) {f : Thread → Thread}
    (hf : ∀ thread, (f thread).lock = 0)
    (hplace : (k.modifyThread k.runningThread f).InPlace
      { u with threads := u.threads \ {k.runningThread} } c') :
    LocksTracked ⟨⟨c', k.modifyThread k.runningThread f⟩,
      { u with threads := u.threads \ {k.runningThread} }⟩ := by
  refine ⟨h.lockx, fun t hne => ?_, hplace⟩
  change ((k.modifyThread k.runningThread f).thread t).lock ≠ 0 at hne
  by_cases ht : t = k.runningThread
  · rw [ht, Kernel.modifyThread_self] at hne
    exact absurd (hf _) hne
  · rw [Kernel.modifyThread_of_ne k f ht] at hne
    exact ⟨h.thread t hne, ht⟩

/-- A statement of `schedulerWrapper`. -/
theorem LocksTracked.schedulerWrapper {w : Word} {k k' : Kernel}
    {u : Unfinished} {point : SchedulerWrapper}
    {next : Option SchedulerWrapper}
    (h : LocksTracked ⟨⟨.schedulerWrapper point, k⟩, u⟩)
    (hstep : k.schedulerWrapper w point = some (next, k'))
    (hchooses : FindsFinished ⟨⟨.schedulerWrapper point, k⟩, u⟩ .code) :
    LocksTracked ⟨⟨next.elim .idle .schedulerWrapper, k'⟩,
      u.after ⟨.schedulerWrapper point, k⟩⟩ := by
  cases point with
  | runThread n point =>
      obtain ⟨next, hrunStep, rfl⟩ := Kernel.schedulerWrapper_runThread hstep
      refine h.runThread hrunStep h.inPlace (hchooses point rfl) fun hnext => ?_
      cases next with
      | none => trivial
      | some p => exact hnext p rfl
  | unlockLockx =>
      obtain ⟨rfl, rfl⟩ := Prod.mk.inj (Option.some.inj hstep)
      exact ⟨fun hne => absurd rfl hne, h.thread, trivial⟩
  | count =>
      obtain ⟨rfl, rfl⟩ := Prod.mk.inj (Option.some.inj hstep)
      exact ⟨h.lockx, h.thread, trivial⟩
  | suspend =>
      simp only [Kernel.schedulerWrapper, Option.bind_eq_bind, Option.pure_def,
        Option.bind_eq_some_iff, Kernel.modifyRunning_eq_some,
        Option.some.injEq, Prod.mk.injEq] at hstep
      obtain ⟨_, ⟨-, rfl⟩, rfl, rfl⟩ := hstep
      exact h.modifyRunning (fun _ => rfl) trivial
  | unlockThread =>
      simp only [Kernel.schedulerWrapper, Option.bind_eq_bind, Option.pure_def,
        Option.bind_eq_some_iff, Kernel.modifyRunning_eq_some,
        Option.some.injEq, Prod.mk.injEq] at hstep
      obtain ⟨_, ⟨-, rfl⟩, rfl, rfl⟩ := hstep
      exact h.unlockThread (fun _ => rfl) trivial
  | next =>
      simp only [Kernel.schedulerWrapper, Option.bind_eq_bind, Option.pure_def,
        Option.bind_eq_some_iff, Option.some.injEq, Prod.mk.injEq] at hstep
      obtain ⟨n, -, rfl, rfl⟩ := hstep
      exact ⟨h.lockx, h.thread, trivial⟩

/-- A statement of `pitHandler`. -/
theorem LocksTracked.pitHandler {w : Word} {k k' : Kernel} {u : Unfinished}
    {point : PitHandler} {regs : Regs} {interrupted : Control}
    {next : Option PitHandler}
    (h : LocksTracked ⟨⟨.pitHandler point regs interrupted, k⟩, u⟩)
    (hstep : k.pitHandler w regs point = some (next, k'))
    (hchooses : FindsFinished ⟨⟨.pitHandler point regs interrupted, k⟩, u⟩
      .code) :
    LocksTracked ⟨⟨next.elim interrupted (.pitHandler · regs interrupted), k'⟩,
      u.after ⟨.pitHandler point regs interrupted, k⟩⟩ := by
  have hplace := h.inPlace
  cases point with
  | lock =>
      have hfree : k.lockx = 0 := not_not.1 fun hne => hplace.1 (h.lockx hne)
      rw [Kernel.pitHandler, if_pos hfree] at hstep
      obtain ⟨rfl, rfl⟩ := Prod.mk.inj (Option.some.inj hstep)
      exact ⟨fun _ => trivial, h.thread, trivial, hplace.2.congr rfl rfl⟩
  | count =>
      obtain ⟨rfl, rfl⟩ := Prod.mk.inj (Option.some.inj hstep)
      exact ⟨h.lockx, h.thread, hplace.1, hplace.2.congr rfl rfl⟩
  | unlock =>
      obtain ⟨rfl, rfl⟩ := Prod.mk.inj (Option.some.inj hstep)
      refine ⟨fun hne => absurd rfl hne, h.thread, ?_⟩
      apply Kernel.Resumable.inPlace
      exact hplace.2.congr rfl rfl
  | runThread point =>
      obtain ⟨next, hrunStep, rfl⟩ := Kernel.pitHandler_runThread hstep
      refine h.runThread hrunStep ?_ (hchooses point rfl) fun hnext => ?_
      · cases point with
        | start => trivial
        | _ => exact hplace.2
      · have htick : (u.afterRunThread k point).tick := by
          cases point <;> exact hplace.1
        cases hrunStep with
        | returns => exact hplace
        | first | start | save | ready | choose | chosen | retry | lock | spin
        | pageMap | running | setRdi | setRip | copyBack =>
            exact ⟨htick, hnext _ rfl⟩

theorem LocksTracked.step {w : Word} {x y : TrackedState} {m : Move}
    (h : LocksTracked x) (hfinds : FindsFinished x m)
    (hstep : TrackedStep w x m y) : LocksTracked y := by
  cases hstep with
  | tick regs hc => exact h.tick regs hfinds hc
  | finish => exact ⟨h.lockx, h.thread, trivial⟩
  | contextSwitch => exact ⟨h.lockx, h.thread, trivial⟩
  | @proceed s s' u hproceed =>
      obtain ⟨control, kernel⟩ := s
      obtain ⟨point, next, k, rfl, hstep, rfl⟩ |
        ⟨point, regs, interrupted, next, k, rfl, hstep, rfl⟩ :=
          SchedState.proceed_eq_some hproceed
      · exact h.schedulerWrapper hstep hfinds
      · exact h.pitHandler hstep hfinds

/-- In the runs in which no tick arrives during another one and `runThread`
chooses finished threads only, every lock is free when it is taken. -/
theorem locksFree_of_findsFinished {w : Word} {s : SchedState}
    (hidle : s.control = .idle) (hlockx : s.kernel.lockx = 0)
    (hlock : ∀ t, (s.kernel.thread t).lock = 0) {ms : List Move}
    {x : TrackedState}
    (hrun : Run (Guarded FindsFinished (TrackedStep w)) ⟨s, ⟨False, ∅⟩⟩ ms x) :
    LocksFree x.state :=
  (hrun.invariant LocksTracked (.start hidle hlockx hlock)
    fun _ _ _ h hstep => h.step hstep.1 hstep.2).locksFree

theorem findsFinished_of_empty {s : SchedState} {u : Unfinished}
    (h : u.threads = ∅) : FindsFinished ⟨s, u⟩ .code := by
  intro point _
  cases point <;> simp [Kernel.ChoosesFinished, h]

theorem findsFinished_of_runThread {s : SchedState} {u : Unfinished}
    {point : RunThread} (hpoint : s.control.runThread? = some point)
    (h : s.kernel.ChoosesFinished u.threads point) :
    FindsFinished ⟨s, u⟩ .code := by
  intro point' hpoint'
  rwa [← Option.some.inj (hpoint.symm.trans hpoint')]

theorem trackedRun_code {w : Word} {x : TrackedState} {s s' : SchedState}
    {u : Unfinished} {ms : List Move}
    (hrun : Run (Guarded FindsFinished (TrackedStep w)) x ms ⟨s, u⟩)
    (hfinds : FindsFinished ⟨s, u⟩ .code) (h : s.proceed w = some s') :
    Run (Guarded FindsFinished (TrackedStep w)) x (ms ++ [.code])
      ⟨s', u.after s⟩ :=
  hrun.snoc ⟨hfinds, .proceed h⟩

theorem trackedRun_function {w : Word} {x : TrackedState} {s : SchedState}
    {u : Unfinished} {ms : List Move}
    (hrun : Run (Guarded FindsFinished (TrackedStep w)) x ms ⟨s, u⟩)
    (h : s.control.runThread? = some .contextSwitch)
    (hnull : s.kernel.runningThread ≠ 0) :
    Run (Guarded FindsFinished (TrackedStep w)) x (ms ++ [.code] ++ [.code])
      ⟨⟨.schedulerWrapper .suspend, s.kernel⟩, u⟩ := by
  obtain ⟨c, hc⟩ := exists_passesRegs
    (s.kernel.thread s.kernel.runningThread).regs
  have hswitch : TrackedStep w ⟨s, u⟩ .code ⟨⟨.function, s.kernel⟩, u⟩ :=
    .contextSwitch c h hnull hc
  exact (hrun.snoc ⟨findsFinished_of_runThread h trivial, hswitch⟩).snoc
    ⟨nofun, .finish⟩

/-- The first thread is dispatched and ends; then another tick arrives. -/
theorem locksFree_of_findsFinished_twoThreads :
    ∃ k, Run (TrackedStep 0xffffffff80003000)
        ⟨⟨.idle, twoThreads⟩, ⟨False, ∅⟩⟩
        (.tick :: List.replicate 14 .code ++ [.tick])
        ⟨⟨.pitHandler .lock (fun _ => 0) (.schedulerWrapper .count), k⟩,
          ⟨False, ∅⟩⟩ ∧
      k.runningThread = firstThread ∧
      (k.thread firstThread).state = .suspended ∧
      LocksFree ⟨.pitHandler .lock (fun _ => 0) (.schedulerWrapper .count),
        k⟩ := by
  have h : Run (Guarded FindsFinished (TrackedStep 0xffffffff80003000))
      ⟨⟨.idle, twoThreads⟩, ⟨False, ∅⟩⟩ [.tick]
      ⟨⟨.pitHandler .lock (fun _ => 0) .idle, twoThreads⟩, ⟨False, ∅⟩⟩ :=
    .single ⟨fun h => h, .tick (s := ⟨.idle, twoThreads⟩) (fun _ => 0) trivial⟩
  -- the interrupt handler, up to the lock of the first thread
  iterate 4 replace h := trackedRun_code h (findsFinished_of_empty rfl) rfl
  iterate 5
    replace h := trackedRun_code h (findsFinished_of_runThread rfl trivial) rfl
  replace h := trackedRun_function h rfl (by decide)
  change Run _ _ _ (TrackedState.mk _ ⟨True, Insert.insert firstThread ∅⟩) at h
  -- the end of the first thread
  iterate 2 replace h := trackedRun_code h nofun rfl
  change Run _ _ _
    (TrackedState.mk _ ⟨True, Insert.insert firstThread ∅ \ {firstThread}⟩) at h
  rw [Set.insert_sdiff_self_of_notMem (Set.notMem_empty firstThread)] at h
  replace h := trackedRun_code h (findsFinished_of_empty rfl) rfl
  change Run _ _ _ (TrackedState.mk _ ⟨False, ∅⟩) at h
  replace h := h.snoc (show Guarded FindsFinished _ _ .tick _ from
    ⟨not_false, .tick (fun _ => 0) trivial⟩)
  exact ⟨_, h.of_guarded, rfl, rfl,
    locksFree_of_findsFinished rfl rfl (fun _ => rfl) h⟩

/-- The tick after the one that dispatched the first thread finds `lockx`
taken. -/
theorem not_forall_locksFree :
    ¬ ∀ (w : Word) (s₀ s : SchedState) (es : List SchedEvent),
      s₀.control = .idle → s₀.kernel.lockx = 0 →
      (∀ t, (s₀.kernel.thread t).lock = 0) → Run (SchedStep w) s₀ es s →
      LocksFree s := by
  intro h
  have hpit := callsRunThread_pitHandler 0xffffffff80003000 fun _ => 0
  have hR : RunsCode 0xffffffff80003000
      (Guarded (fun _ _ => True) (SchedStep 0xffffffff80003000)) :=
    runsCode_guarded _ (fun _ => trivial) fun _ _ _ => trivial
  have hrun : Run (Guarded (fun _ _ => True) (SchedStep 0xffffffff80003000))
      ⟨.idle, twoThreads⟩ [.silent]
      ⟨.pitHandler .lock (fun _ => 0) .idle, twoThreads⟩ :=
    .single ⟨trivial, .tick (s := ⟨.idle, twoThreads⟩) _ trivial⟩
  replace hrun := run_pitHandler hR hrun rfl
  replace hrun := hrun.snoc
    ((hpit _).step hR (.first (by decide) rfl) (by simp))
  obtain ⟨_, -, hrun⟩ := run_dispatched (hpit _) hR hrun (by simp) (by decide)
    rfl (by decide)
  have hfree := (h _ _ _ _ rfl rfl (fun _ => rfl)
    (hrun.snoc ⟨trivial, .tick (fun _ => 0) trivial⟩).of_guarded).lockx _ _ rfl
  exact absurd hfree (by decide)

end OptimistOS
