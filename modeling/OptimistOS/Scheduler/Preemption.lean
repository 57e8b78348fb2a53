import OptimistOS.Scheduler.Dispatch

/-!
# Preempted threads

A thread that `pitHandler` preempts should go on, when it is dispatched again,
with the frame that was stored for it. But `runThread` sets `rdi` and `rip` of
the record before it loads it, so the thread starts its function again. What is
stored is loaded again in the runs in which every stored frame already holds
these two values, and in which no tick arrives while `runThread` has chosen a
thread and not yet loaded its context: such a tick stores the frame of
`runThread` in the record of the thread that was chosen.
-/

namespace OptimistOS

open Transition

namespace Kernel

theorem RunThreadStep.sameThreads {w : Word} {regs : RegsPtr} {k k' : Kernel}
    {point : RunThread} {next : Option RunThread}
    (h : RunThreadStep w regs k point next k') : SameThreads k k' := by
  cases h with
  | returns | first | start | choose | chosen | retry | spin | pageMap =>
      exact ⟨rfl, rfl, fun _ => rfl, fun _ => rfl⟩
  | save | ready | lock | running | setRdi | setRip =>
      exact sameThreads_modifyThread k _ rfl rfl
  | copyBack hrunning hwrite =>
      cases regs with
      | frame =>
          obtain rfl := Option.some.inj hwrite
          exact ⟨rfl, rfl, fun _ => rfl, fun _ => rfl⟩
      | thread t =>
          simp only [writeRegs, Option.bind_eq_bind, Option.pure_def,
            Option.bind_eq_some_iff, Option.some.injEq] at hwrite
          obtain ⟨_, -, rfl⟩ := hwrite
          exact sameThreads_modifyThread k _ rfl rfl

/-- A record that leads to the entry of its thread already stays as it is,
unless the thread is the one whose frame is saved. -/
theorem RunThreadStep.regs_eq {w : Word} {regs : RegsPtr} {k k' : Kernel}
    {point : RunThread} {next : Option RunThread}
    (h : RunThreadStep w regs k point next k') (t : Addr)
    (hrip : (k.thread t).regs .rip = w)
    (hrdi : (k.thread t).regs (.reg .rdi) = (k.thread t).entryPoint)
    (hsave : point = .save → t ≠ k.runningThread)
    (hcopy : point = .copyBack → ∀ n, regs = .thread n → n = k.runningThread) :
    (k'.thread t).regs = (k.thread t).regs := by
  cases h with
  | returns | first | start | choose | chosen | retry | spin | pageMap => rfl
  | ready | lock | running => exact modifyThread_member k _ t Thread.regs rfl
  | save =>
      rw [modifyThread_of_ne k _ (hsave rfl)]
  | setRdi | setRip =>
      by_cases ht : t = k.runningThread
      · refine modifyThread_member k _ t Thread.regs ?_
        rw [Function.update_eq_self_iff, ← ht]
        first | exact hrdi.symm | exact hrip.symm
      · rw [modifyThread_of_ne k _ ht]
  | copyBack hrunning hwrite =>
      cases regs with
      | frame =>
          obtain rfl := Option.some.inj hwrite
          rfl
      | thread n =>
          obtain rfl := hcopy rfl n rfl
          simp only [writeRegs, Option.bind_eq_bind, Option.pure_def,
            Option.bind_eq_some_iff, Option.some.injEq] at hwrite
          obtain ⟨_, -, rfl⟩ := hwrite
          exact modifyThread_member k _ t Thread.regs rfl

end Kernel

def RunThread.BeforeChoice : RunThread → Prop
  | .start | .save | .ready | .choose => True
  | _ => False

/-- The running thread is the one whose code runs or was interrupted: no other
thread has been chosen in its place, and its frame has not been stored. -/
def Control.Settled : Control → Prop
  | .schedulerWrapper (.runThread _ point) => point.BeforeChoice
  | .pitHandler (.runThread .start) _ interrupted => interrupted.Settled
  | .pitHandler (.runThread .save) _ interrupted => interrupted.Settled
  | .pitHandler (.runThread _) _ _ => False
  | .pitHandler _ _ interrupted => interrupted.Settled
  | _ => True

theorem Kernel.RunThreadStep.beforeChoice {w : Word} {regs : RegsPtr}
    {k k' : Kernel} {point : RunThread} {next : Option RunThread}
    (h : RunThreadStep w regs k point next k')
    (hnext : ∀ p, next = some p → p.BeforeChoice) :
    point.BeforeChoice ∧ k'.runningThread = k.runningThread := by
  cases h with
  | returns | start | save | ready => exact ⟨trivial, rfl⟩
  | _ => exact absurd (hnext _ rfl) id

/-- The record that `schedulerWrapper` passes to `runThread` is the record of
the thread that `runThread` chooses. -/
def Kernel.PassesNext (k : Kernel) (next : Addr) : RunThread → Prop
  | .start | .save => k.getNextThread k.runningThread = some next
  | .ready | .choose =>
      k.getNextThread k.runningThread = some next ∧ next ≠ 0
  | _ => k.runningThread = next ∧ next ≠ 0

/-- The same for a processor that is in the code `c` or returns to it. -/
def Kernel.PassesNextIn (k : Kernel) : Control → Prop
  | .schedulerWrapper (.runThread next point) => k.PassesNext next point
  | .pitHandler (.runThread .start) _ interrupted => k.PassesNextIn interrupted
  | .pitHandler (.runThread _) _ _ => True
  | .pitHandler _ _ interrupted => k.PassesNextIn interrupted
  | _ => True

theorem Kernel.PassesNext.congr {k k' : Kernel} (h : SameThreads k k')
    (hrunning : k'.runningThread = k.runningThread) {next : Addr}
    {point : RunThread} (hp : k.PassesNext next point) :
    k'.PassesNext next point := by
  cases point <;>
    simpa only [PassesNext, hrunning, h.getNextThread] using hp

theorem Kernel.PassesNextIn.congr {k k' : Kernel} (h : SameThreads k k')
    (hrunning : k'.runningThread = k.runningThread) {c : Control}
    (hp : k.PassesNextIn c) : k'.PassesNextIn c := by
  induction c with
  | idle | function => trivial
  | schedulerWrapper point =>
      cases point with
      | runThread => exact PassesNext.congr h hrunning hp
      | _ => trivial
  | pitHandler point regs interrupted ih =>
      cases point with
      | runThread point =>
          cases point with
          | start => exact ih hp
          | _ => trivial
      | _ => exact ih hp

theorem Kernel.PassesNext.step {w : Word} {k k' : Kernel} {next : Addr}
    {point point' : RunThread}
    (h : RunThreadStep w (.thread next) k point (some point') k')
    (hp : k.PassesNext next point) : k'.PassesNext next point' := by
  have hsame := h.sameThreads
  cases h with
  | first h hrunning =>
      rw [PassesNext, hrunning, getNextThread] at hp
      exact absurd hp (by simp [deref])
  | start => exact hp
  | save hvalue =>
      simp only [readRegs, Option.bind_eq_bind, Option.pure_def,
        Option.bind_eq_some_iff, deref_eq_some] at hvalue
      obtain ⟨_, ⟨hnext, -⟩, -⟩ := hvalue
      exact ⟨(hsame.getNextThread _).trans hp, hnext⟩
  | ready => exact PassesNext.congr hsame rfl hp
  | choose hnext =>
      rw [PassesNext, hnext, Option.some.injEq] at hp
      exact hp
  | retry h hrunning => exact absurd (hp.1.symm.trans hrunning) hp.2
  | chosen | lock | spin | pageMap | running | setRdi | setRip => exact hp
  | copyBack hrunning hwrite =>
      simp only [writeRegs, Option.bind_eq_bind, Option.pure_def,
        Option.bind_eq_some_iff, Option.some.injEq] at hwrite
      obtain ⟨_, -, rfl⟩ := hwrite
      exact hp

/-- The frames that were stored are still in the records of their threads. -/
structure FramesKept (w : Word) (es : List SchedEvent) (s : SchedState) :
    Prop where
  regs : ∀ t F, Pending es t F → (s.kernel.thread t).regs = F
  rip : ∀ t F, Pending es t F → F .rip = w
  rdi : ∀ t F, Pending es t F → F (.reg .rdi) = (s.kernel.thread t).entryPoint
  settled : s.control.Settled → ∀ F, ¬ Pending es s.kernel.runningThread F
  passes : s.kernel.PassesNextIn s.control

theorem FramesKept.start (w : Word) {s : SchedState}
    (h : s.control = .idle) : FramesKept w [] s := by
  refine ⟨?_, ?_, ?_, ?_, ?_⟩
  · exact fun t F hp => absurd hp (not_pending_nil t F)
  · exact fun t F hp => absurd hp (not_pending_nil t F)
  · exact fun t F hp => absurd hp (not_pending_nil t F)
  · exact fun _ F => not_pending_nil _ F
  · rw [h]
    trivial

/-- A step that stores and loads nothing, keeps the records of the threads with
a pending frame and does not move the running thread. -/
theorem FramesKept.silent {w : Word} {es : List SchedEvent}
    {s s' : SchedState} (h : FramesKept w es s)
    (hregs : ∀ t F, Pending es t F →
      (s'.kernel.thread t).regs = (s.kernel.thread t).regs)
    (hentry : ∀ t, (s'.kernel.thread t).entryPoint =
      (s.kernel.thread t).entryPoint)
    (hsettled : s'.control.Settled → s.control.Settled ∧
      s'.kernel.runningThread = s.kernel.runningThread)
    (hpasses : s'.kernel.PassesNextIn s'.control) :
    FramesKept w (es ++ [.silent]) s' := by
  refine ⟨fun t F hp => ?_, fun t F hp => ?_, fun t F hp => ?_,
    fun hs F hp => ?_, hpasses⟩ <;> rw [pending_snoc_silent] at hp
  · rw [hregs t F hp, h.regs t F hp]
  · exact h.rip t F hp
  · rw [hentry, h.rdi t F hp]
  · obtain ⟨hs, hrunning⟩ := hsettled hs
    rw [hrunning] at hp
    exact h.settled hs F hp

theorem FramesKept.sameThread {w : Word} {es : List SchedEvent}
    {s s' : SchedState} (h : FramesKept w es s)
    (hthread : s'.kernel.thread = s.kernel.thread)
    (hhead : s'.kernel.threadHead = s.kernel.threadHead)
    (hlist : s'.kernel.threadList = s.kernel.threadList)
    (hrunning : s'.kernel.runningThread = s.kernel.runningThread)
    (hsettled : s'.control.Settled → s.control.Settled)
    (hpasses : s.kernel.PassesNextIn s'.control) :
    FramesKept w (es ++ [.silent]) s' := by
  have hsame : Kernel.SameThreads s.kernel s'.kernel :=
    ⟨hhead, hlist, fun t => by rw [hthread], fun t => by rw [hthread]⟩
  refine h.silent (fun t _ _ => by rw [hthread]) hsame.entryPoint
    (fun hs => ⟨hsettled hs, hrunning⟩) (hpasses.congr hsame hrunning)

theorem FramesKept.modifyRunning {w : Word} {es : List SchedEvent}
    {s : SchedState} (h : FramesKept w es s) (hs : s.control.Settled)
    {c : Control} {f : Thread → Thread}
    (hpasses :
      (s.kernel.modifyThread s.kernel.runningThread f).PassesNextIn c)
    (hregs : ∀ thread, (f thread).regs = thread.regs)
    (hentry : ∀ thread, (f thread).entryPoint = thread.entryPoint) :
    FramesKept w (es ++ [.silent])
      ⟨c, s.kernel.modifyThread s.kernel.runningThread f⟩ :=
  h.silent
    (fun t _ _ => Kernel.modifyThread_member s.kernel s.kernel.runningThread t
      Thread.regs (hregs _))
    (fun t => Kernel.modifyThread_member s.kernel s.kernel.runningThread t
      Thread.entryPoint (hentry _))
    (fun _ => ⟨hs, rfl⟩) hpasses

/-- The condition under which a step keeps the stored frames: the frame it
stores leads to the entry of the thread, and no thread has been chosen that does
not run yet. -/
def StoresEntry (w : Word) (s : SchedState) : SchedEvent → Prop
  | .put t F => F .rip = w ∧ F (.reg .rdi) = (s.kernel.thread t).entryPoint ∧
      s.control.Settled
  | _ => True

theorem FramesKept.runThread {w : Word} {es : List SchedEvent}
    {s s' : SchedState} (h : FramesKept w es s) {regs : RegsPtr}
    {point : RunThread} {next : Option RunThread}
    (hstep : Kernel.RunThreadStep w regs s.kernel point next s'.kernel)
    (hsave : point = .save → s.control.Settled)
    (hcopy : point = .copyBack → ∀ n, regs = .thread n →
      n = s.kernel.runningThread)
    (hsettled : s'.control.Settled → s.control.Settled ∧
      s'.kernel.runningThread = s.kernel.runningThread)
    (hpasses : s'.kernel.PassesNextIn s'.control) :
    FramesKept w (es ++ [.silent]) s' := by
  refine h.silent (fun t F hp => ?_) hstep.sameThreads.entryPoint hsettled
    hpasses
  have hregs := h.regs t F hp
  refine hstep.regs_eq t ?_ ?_ (fun hpoint ht => ?_) hcopy
  · rw [hregs, h.rip t F hp]
  · rw [hregs, h.rdi t F hp]
  · rw [ht] at hp
    exact h.settled (hsave hpoint) F hp

/-- A statement of `schedulerWrapper`. -/
theorem FramesKept.schedulerWrapper {w : Word} {es : List SchedEvent}
    {s : SchedState} (h : FramesKept w es s) {point : SchedulerWrapper}
    {next : Option SchedulerWrapper} {k : Kernel}
    (hcontrol : s.control = .schedulerWrapper point)
    (hstep : s.kernel.schedulerWrapper w point = some (next, k)) :
    FramesKept w (es ++ [.silent])
      ⟨next.elim .idle .schedulerWrapper, k⟩ := by
  have hpasses := h.passes
  have hsettled : s.control.Settled ↔
      (Control.schedulerWrapper point).Settled := by rw [hcontrol]
  rw [hcontrol] at hpasses
  cases point with
  | runThread n point =>
      obtain ⟨next, hrunStep, rfl⟩ := Kernel.schedulerWrapper_runThread hstep
      refine h.runThread hrunStep (fun hpoint => ?_) (fun hpoint m hm => ?_)
        (fun hs => ?_) ?_
      · rw [hsettled, hpoint]
        trivial
      · subst hpoint
        exact (RegsPtr.thread.inj hm).symm.trans hpasses.1.symm
      · rw [hsettled]
        refine hrunStep.beforeChoice fun p hp => ?_
        rw [hp] at hs
        exact hs
      · cases next with
        | none => trivial
        | some point' => exact hpasses.step hrunStep
  | unlockLockx | count =>
      obtain ⟨rfl, rfl⟩ := Prod.mk.inj (Option.some.inj hstep)
      exact h.sameThread rfl rfl rfl rfl (fun _ => hsettled.2 trivial) trivial
  | suspend | unlockThread =>
      simp only [Kernel.schedulerWrapper, Option.bind_eq_bind, Option.pure_def,
        Option.bind_eq_some_iff, Kernel.modifyRunning_eq_some,
        Option.some.injEq, Prod.mk.injEq] at hstep
      obtain ⟨_, ⟨-, rfl⟩, rfl, rfl⟩ := hstep
      exact h.modifyRunning (hsettled.2 trivial) trivial (fun _ => rfl)
        fun _ => rfl
  | next =>
      simp only [Kernel.schedulerWrapper, Option.bind_eq_bind, Option.pure_def,
        Option.bind_eq_some_iff, Option.some.injEq, Prod.mk.injEq] at hstep
      obtain ⟨n, hnext, rfl, rfl⟩ := hstep
      exact h.sameThread rfl rfl rfl rfl (fun _ => hsettled.2 trivial) hnext

/-- A statement of `pitHandler` that stores no frame. -/
theorem FramesKept.pitHandler {w : Word} {es : List SchedEvent}
    {s : SchedState} (h : FramesKept w es s) {point : PitHandler} {regs : Regs}
    {interrupted : Control} {next : Option PitHandler} {k : Kernel}
    (hcontrol : s.control = .pitHandler point regs interrupted)
    (hstep : s.kernel.pitHandler w regs point = some (next, k))
    (hsave : point ≠ .runThread .save) :
    FramesKept w (es ++ [.silent])
      ⟨next.elim interrupted (.pitHandler · regs interrupted), k⟩ := by
  have hpasses := h.passes
  have hsettled : s.control.Settled ↔
      (Control.pitHandler point regs interrupted).Settled := by rw [hcontrol]
  rw [hcontrol] at hpasses
  cases point with
  | lock =>
      rw [Kernel.pitHandler] at hstep
      split_ifs at hstep <;>
        obtain ⟨rfl, rfl⟩ := Prod.mk.inj (Option.some.inj hstep) <;>
        exact h.sameThread rfl rfl rfl rfl hsettled.2 hpasses
  | count | unlock =>
      obtain ⟨rfl, rfl⟩ := Prod.mk.inj (Option.some.inj hstep)
      exact h.sameThread rfl rfl rfl rfl hsettled.2 hpasses
  | runThread point =>
      obtain ⟨next, hrunStep, rfl⟩ := Kernel.pitHandler_runThread hstep
      refine h.runThread hrunStep (fun hpoint => absurd hpoint ?_)
        (fun _ _ hm => absurd hm (by simp)) (fun hs => ?_) ?_
      · exact fun hpoint => hsave (congrArg _ hpoint)
      · rw [hsettled]
        cases hrunStep with
        | returns | start => exact ⟨hs, rfl⟩
        | save => exact absurd rfl hsave
        | _ => exact absurd hs id
      · cases hrunStep with
        | returns => exact hpasses
        | _ => trivial

/-- `pitHandler` stores the frame of the running thread. -/
theorem FramesKept.put {w : Word} {es : List SchedEvent} {s : SchedState}
    (h : FramesKept w es s) {regs : Regs} {interrupted : Control}
    {next : Option PitHandler} {k : Kernel}
    (hstep : s.kernel.pitHandler w regs (.runThread .save) = some (next, k))
    (hguard : StoresEntry w s (.put s.kernel.runningThread regs)) :
    FramesKept w (es ++ [.put s.kernel.runningThread regs])
      ⟨next.elim interrupted (.pitHandler · regs interrupted), k⟩ := by
  obtain ⟨hrip, hrdi, hs⟩ := hguard
  obtain ⟨next, hrunStep, rfl⟩ := Kernel.pitHandler_runThread hstep
  cases hrunStep with | save hvalue _ =>
  obtain rfl := Option.some.inj hvalue
  set r := s.kernel.runningThread
  have hentry : ∀ t, ((s.kernel.modifyThread r fun thread =>
      { thread with regs := regs }).thread t).entryPoint =
      (s.kernel.thread t).entryPoint := fun t =>
    Kernel.modifyThread_member s.kernel r t Thread.entryPoint rfl
  refine ⟨fun t F hp => ?_, fun t F hp => ?_, fun t F hp => ?_,
    fun hs' => hs'.elim, trivial⟩ <;> rw [pending_snoc_put] at hp
  · obtain ⟨rfl, rfl⟩ | hp := hp
    · rw [Kernel.modifyThread_self]
    · have hne : t ≠ r := by
        rintro rfl
        exact h.settled hs F hp
      rw [Kernel.modifyThread_of_ne s.kernel _ hne, h.regs t F hp]
  · obtain ⟨rfl, rfl⟩ | hp := hp
    · exact hrip
    · exact h.rip t F hp
  · rw [hentry]
    obtain ⟨rfl, rfl⟩ | hp := hp
    · exact hrdi
    · exact h.rdi t F hp

theorem FramesKept.take {w : Word} {es : List SchedEvent} {s : SchedState}
    (h : FramesKept w es s) (c : CpuContext) :
    FramesKept w (es ++ [.take s.kernel.runningThread c])
      ⟨.function, s.kernel⟩ := by
  refine ⟨fun t F hp => ?_, fun t F hp => ?_, fun t F hp => ?_,
    fun _ F hp => ?_, trivial⟩ <;> rw [pending_snoc_take] at hp
  · exact h.regs t F hp.1
  · exact h.rip t F hp.1
  · exact h.rdi t F hp.1
  · exact hp.2 rfl

theorem FramesKept.step {w : Word} {es : List SchedEvent} {s s' : SchedState}
    {e : SchedEvent} (h : FramesKept w es s) (hguard : StoresEntry w s e)
    (hstep : SchedStep w s e s') : FramesKept w (es ++ [e]) s' := by
  cases hstep with
  | tick regs =>
      exact h.sameThread rfl rfl rfl rfl (fun hs => hs) h.passes
  | finish => exact h.sameThread rfl rfl rfl rfl (fun _ => trivial) trivial
  | contextSwitch c => exact h.take _
  | proceed hproceed =>
      obtain ⟨control, kernel⟩ := s
      obtain ⟨point, next, k, rfl, hstep, rfl⟩ |
        ⟨point, regs, interrupted, next, k, rfl, hstep, rfl⟩ :=
          SchedState.proceed_eq_some hproceed
      · exact h.schedulerWrapper rfl hstep
      · by_cases hsave : point = .runThread .save
        · subst hsave
          exact h.put hstep hguard
        · have hevent : SchedState.event
              ⟨.pitHandler point regs interrupted, kernel⟩ = .silent := by
            rw [SchedState.event]
            split
            · next heq => exact absurd (Control.pitHandler.inj heq).1 hsave
            · rfl
          rw [hevent]
          exact h.pitHandler rfl hstep hsave

/-- Every thread that `pitHandler` preempts is dispatched next with the context
of the frame that was stored. -/
def RestoresFrames (es : List SchedEvent) : Prop :=
  Keeps (fun regs c => c = frameContext regs) es

/-- The runs in which every stored frame leads to the entry of its thread restore
the frames. -/
theorem restoresFrames_of_storesEntry {w : Word} {s₀ s : SchedState}
    {es : List SchedEvent} (hidle : s₀.control = .idle)
    (h : Run (Guarded (StoresEntry w) (SchedStep w)) s₀ es s) :
    RestoresFrames es := by
  refine (h.invariant_labels
    (fun es s => FramesKept w es s ∧ RestoresFrames es)
    ⟨.start w hidle, .nil _⟩ ?_).2
  rintro es s e s' ⟨hkept, hrestores⟩ ⟨hguard, hstep⟩
  refine ⟨hkept.step hguard hstep, hrestores.snoc fun t c he F hp => ?_⟩
  cases hstep with
  | tick | finish => cases he
  | proceed =>
      rw [SchedState.event] at he
      split at he <;> cases he
  | contextSwitch c h hnull hc =>
      cases he
      rw [contextSwitch_context hc, hkept.regs _ F hp]

/-- The second thread is preempted with the frame `F` right after
`schedulerWrapper` has released its lock, and is dispatched again. -/
theorem exists_run_preempted (w : Word)
    (guard : SchedState → SchedEvent → Prop)
    (hsilent : ∀ s, guard s .silent) (htake : ∀ s t c, guard s (.take t c))
    (F : Regs)
    (hput : ∀ k : Kernel,
      (k.thread secondThread).entryPoint = 0xffffffff80001100 →
        guard ⟨.pitHandler (.runThread .save) F
          (.schedulerWrapper .unlockLockx), k⟩ (.put secondThread F)) :
    ∃ es₁ es₂ c s, Run (Guarded guard (SchedStep w))
        ⟨.idle, twoThreads⟩
        ((es₁ ++ .put secondThread F :: es₂) ++ [.take secondThread c]) s ∧
      (∀ u, .take secondThread u ∉ es₂) ∧ c.rip = w := by
  have hfirst : firstThread ≠ 0 := by decide
  have hsecond : secondThread ≠ 0 := by decide
  have hprocess : (0xffff800000230000 : Addr) ≠ 0 := by decide
  have hrunnable : twoThreads.Runnable := by decide
  have hcount : (2 : Word) - 1 ≠ 0 := by decide
  have hpit := callsRunThread_pitHandler w
  have hwrap := callsRunThread_schedulerWrapper w secondThread
  have hR := runsCode_guarded w hsilent htake
  -- the first tick dispatches the first thread
  have h : Run (Guarded guard (SchedStep w)) ⟨.idle, twoThreads⟩ [.silent]
      ⟨.pitHandler .lock (fun _ => 0) .idle, twoThreads⟩ :=
    .single ⟨hsilent _, .tick (s := ⟨.idle, twoThreads⟩) _ trivial⟩
  replace h := run_pitHandler hR h rfl
  replace h := h.snoc ((hpit _ _).step hR (.first hrunnable rfl) (by simp))
  obtain ⟨_, -, h⟩ := run_dispatched (hpit _ _) hR h (by simp)
    hfirst rfl hprocess
  -- its function returns, and schedulerWrapper dispatches the second thread
  replace h := run_ended hR h hfirst
  replace h := run_proceeds (n := 3) hR h rfl
  replace h := h.snoc (hwrap.step hR
    (.start ⟨hrunnable.1, hrunnable.2.1, hrunnable.2.2.1, hcount⟩ hfirst)
    (by simp))
  replace h := h.snoc ⟨hsilent _, .proceed
    (hwrap.proceed (.save (Kernel.readRegs_thread _ hsecond) hfirst))⟩
  replace h := run_switched hwrap hR h hfirst rfl hsecond
  obtain ⟨_, -, h⟩ := run_dispatched hwrap hR h
    (fun _ ht => (RegsPtr.thread.inj ht).symm) hsecond rfl hprocess
  -- its function returns, and a tick arrives when its lock is free again
  replace h := run_ended hR h hsecond
  replace h := h.snoc ⟨hsilent _, .tick F trivial⟩
  replace h := run_pitHandler hR h rfl
  replace h := h.snoc ((hpit _ _).step hR
    (.start ⟨hrunnable.1, hrunnable.2.1, hrunnable.2.2.1, hcount⟩ hsecond)
    (by simp))
  replace h : Run (Guarded guard (SchedStep w)) _ (_ ++ [.put secondThread F])
      _ := h.snoc ⟨hput _ rfl, .proceed
    ((hpit _ _).proceed (.save rfl hsecond))⟩
  replace h := run_switched (hpit _ _) hR h hsecond rfl hsecond
  obtain ⟨c, hrip, h⟩ := run_dispatched (hpit _ _) hR h (by simp)
    hsecond rfl hprocess
  have hevents : ∀ es : List SchedEvent,
      ((es ++ [.put secondThread F]) ++ List.replicate 3 .silent) ++
          List.replicate 6 .silent ++ [.take secondThread c] =
        (es ++ .put secondThread F :: List.replicate 9 .silent) ++
          [.take secondThread c] := by
    simp
  exact ⟨_, List.replicate 9 .silent, c, _, hevents _ ▸ h, by simp, hrip⟩

/-- The frame of the second thread in `schedulerWrapper`, behind the release of
its lock. -/
def wrapperFrame : Regs
  | .rip => 0xffffffff80003040
  | .cs => 0x28
  | .eFlags => 0x202
  | .rsp => 0x4fe0
  | .ss => 0x30
  | _ => 0

/-- The second thread goes back to the start of `schedulerWrapper` instead of
going on at the end of it. -/
theorem not_forall_restoresFrames :
    ¬ ∀ (w : Word) (s₀ s : SchedState) (es : List SchedEvent),
      s₀.control = .idle → Run (SchedStep w) s₀ es s → RestoresFrames es := by
  intro h
  obtain ⟨es₁, es₂, c, s, hrun, htake, hrip⟩ :=
    exists_run_preempted 0xffffffff80003000 (fun _ _ => True)
      (fun _ => trivial) (fun _ _ _ => trivial) wrapperFrame fun _ _ => trivial
  have hc := h _ _ _ _ rfl hrun.of_guarded es₁ es₂ [] secondThread
    wrapperFrame c rfl htake
  rw [hc] at hrip
  exact absurd hrip (by decide)

/-- The frame of a thread that is about to call its function. -/
def entryFrame : Regs
  | .reg .rdi => 0xffffffff80001100
  | .rip => 0xffffffff80003000
  | .cs => 0x28
  | .eFlags => 0x202
  | .ss => 0x30
  | _ => 0

theorem restoresFrames_of_storesEntry_twoThreads :
    ∃ es₁ es₂ c, RestoresFrames
        ((es₁ ++ .put secondThread entryFrame :: es₂) ++
          [.take secondThread c]) ∧
      c.rip = 0xffffffff80003000 := by
  obtain ⟨es₁, es₂, c, s, hrun, -, hrip⟩ :=
    exists_run_preempted 0xffffffff80003000 (StoresEntry 0xffffffff80003000)
      (fun _ => trivial) (fun _ _ _ => trivial) entryFrame
      fun k hk => ⟨rfl, hk.symm, trivial⟩
  exact ⟨es₁, es₂, c, restoresFrames_of_storesEntry rfl hrun, hrip⟩

end OptimistOS
