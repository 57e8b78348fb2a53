import OptimistOS.Foundation.Chain
import OptimistOS.Scheduler.Dispatch

/-!
# The threads one after the other

The run that the first tick starts, without further ticks: every dispatched
thread runs until its function returns, and `schedulerWrapper` dispatches the
next one. There is only one such run. All threads have the same ID, so
`getNextThread` always gives the thread of the second node, and from the second
dispatch on it is this thread that is dispatched, until `threadCount` is 0.
-/

namespace OptimistOS

open LinkedList Transition

inductive QuietStep (w : Word) : SchedState → SchedEvent → SchedState → Prop
  | finish (k : Kernel) :
      QuietStep w ⟨.function, k⟩ .silent ⟨.schedulerWrapper .suspend, k⟩
  | proceed {s s' : SchedState} (h : s.proceed w = some s') :
      QuietStep w s s.event s'
  | contextSwitch {s : SchedState} (c : Cpu)
      (h : s.control.runThread? = some .contextSwitch)
      (hnull : s.kernel.runningThread ≠ 0)
      (hc : PassesRegs c (s.kernel.thread s.kernel.runningThread).regs) :
      QuietStep w s
        (.take s.kernel.runningThread
          (runInstrs OptimistOS.contextSwitch c).toCpuContext)
        ⟨.function, s.kernel⟩

theorem QuietStep.schedStep {w : Word} {s s' : SchedState} {e : SchedEvent}
    (h : QuietStep w s e s') : SchedStep w s e s' := by
  cases h with
  | finish => exact .finish
  | proceed h => exact .proceed h
  | contextSwitch c h hnull hc => exact .contextSwitch c h hnull hc

def dispatches (es : List SchedEvent) : List Addr :=
  es.filterMap fun e => match e with
    | .take t _ => some t
    | _ => none

def FirstTick (w : Word) (k : Kernel) (regs : Regs) (es : List SchedEvent)
    (s : SchedState) : Prop :=
  Run (QuietStep w) ⟨.pitHandler .lock regs .idle, k⟩ es s

/-- The first tick has every thread of `ts` dispatched once: no thread is
dispatched twice, the processor only stops in the endless loop of
`schedulerWrapper`, with `threadCount` at 0 and after it has dispatched them
all, and it gets there. -/
structure DispatchesEach (w : Word) (k : Kernel) (ts : List Addr) : Prop where
  once : ∀ regs es s, FirstTick w k regs es s → (dispatches es).Nodup
  stops : ∀ regs es s, FirstTick w k regs es s → Stuck (QuietStep w) s →
    s.control = .idle ∧ s.kernel.threadCount = 0 ∧ (dispatches es).Perm ts
  returns : ∀ regs, ∃ es s, FirstTick w k regs es s ∧ s.control = .idle

/-- The first node of the list is for the first of the threads `ts`. It is the
last node if there is no other thread, else the second node is for one of the
others. -/
def StartsList (threadHead : Addr) (threadList : Addr → ThreadList) :
    List Addr → Prop
  | [] => threadHead = 0
  | t :: us => threadHead ≠ 0 ∧ (threadList threadHead).threadInfo = t ∧
      if us = [] then
        (threadList threadHead).next = 0
      else
        (threadList threadHead).next ≠ 0 ∧
          (threadList (threadList threadHead).next).threadInfo ∈ us

/-- The kernel before its first tick, with the threads `ts` created by
`createProcessFromRoutine`. -/
structure ThreadsReady (k : Kernel) (ts : List Addr) : Prop where
  nodes : StartsList k.threadHead k.threadList ts
  threadID : ∀ t ∈ ts, (k.thread t).threadID = 2
  lock : ∀ t ∈ ts, (k.thread t).lock = 0
  parentProcess : ∀ t ∈ ts, (k.thread t).parentProcess ≠ 0
  threadCount : k.threadCount = BitVec.ofNat 64 ts.length
  processHead : k.processHead ≠ 0
  runningThread : k.runningThread = 0
  lockx : k.lockx = 0

namespace Kernel

/-- The kernel after `schedulerWrapper` has ended the running thread and counted
it. -/
def finished (k : Kernel) : Kernel :=
  { k.ended with lockx := 0, threadCount := k.threadCount - 1 }

/-- In the function of a thread, with `t` as the next thread after the running
one and after itself. -/
structure Round (k : Kernel) (t : Addr) : Prop where
  running : k.runningThread ≠ 0
  ne_zero : t ≠ 0
  next : k.getNextThread k.runningThread = some t
  again : k.getNextThread t = some t
  lock : t ≠ k.runningThread → (k.thread t).lock = 0
  parentProcess : (k.thread t).parentProcess ≠ 0
  processHead : k.processHead ≠ 0
  threadHead : k.threadHead ≠ 0
  head : (k.threadList k.threadHead).threadInfo ≠ 0

variable {k : Kernel} {t : Addr}

theorem getNextThread_of_node {p : Addr} (ht : t ≠ 0)
    (hp : p ≠ 0)
    (hget : k.getThreadList (k.thread t).threadID true = some p) :
    k.getNextThread t =
      (deref k.threadList (k.threadList p).next).map ThreadList.threadInfo := by
  rw [Kernel.getNextThread, deref_of_ne _ ht]
  simp only [Option.bind_eq_bind, Option.bind_some, hget, deref_of_ne _ hp,
    Option.pure_def]
  cases deref k.threadList (k.threadList p).next <;> rfl

theorem finished_thread (k : Kernel) : k.finished.thread =
    (k.modifyThread k.runningThread fun thread =>
      { thread with state := .suspended, lock := 0 }).thread := rfl

theorem sameThreads_finished (k : Kernel) : SameThreads k k.finished := by
  have h := sameThreads_modifyThread k k.runningThread
    (f := fun thread => { thread with state := .suspended, lock := 0 }) rfl rfl
  exact ⟨rfl, rfl, h.threadID, h.entryPoint⟩

theorem parentProcess_finished (k : Kernel) (u : Addr) :
    (k.finished.thread u).parentProcess = (k.thread u).parentProcess := by
  rw [finished_thread]
  exact modifyThread_member k _ u Thread.parentProcess rfl

def nextRound (w : Word) (k : Kernel) (t : Addr) : Kernel :=
  (k.finished.switched (k.finished.thread t).regs t).dispatched w

theorem nextRound_thread (w : Word) (k : Kernel) (t u : Addr) {β : Type}
    (member : Thread → β)
    (hmember : ∀ thread state lock regs, member { thread with
      regs := regs, state := state, lock := lock } = member thread) :
    member ((k.nextRound w t).thread u) = member (k.finished.thread u) := by
  have hswitched := modifyThread_member k.finished k.runningThread u
    (f := fun thread => { thread with
      regs := (k.finished.thread t).regs, state := .ready }) member
    (hmember _ _ _ _)
  have hdispatched := modifyThread_member
    (k.finished.switched (k.finished.thread t).regs t) t u
    (f := fun thread => { thread with
      lock := 1
      state := .running
      regs := Function.update
        (Function.update thread.regs (.reg .rdi) thread.entryPoint) .rip w })
    member (hmember _ _ _ _)
  exact hdispatched.trans hswitched

theorem nextRound_lists (w : Word) (k : Kernel) (t : Addr) :
    (k.nextRound w t).processHead = k.processHead ∧
      (k.nextRound w t).threadHead = k.threadHead ∧
      (k.nextRound w t).threadList = k.threadList := by
  simp only [nextRound, dispatched, switched, finished, ended, modifyThread,
    and_self]

theorem Round.nextRound (h : k.Round t) (w : Word) :
    (k.nextRound w t).Round t := by
  have hID : ∀ u, ((k.nextRound w t).thread u).threadID =
      (k.thread u).threadID := fun u =>
    (nextRound_thread w k t u Thread.threadID fun _ _ _ _ => rfl).trans
      ((sameThreads_finished k).threadID u)
  obtain ⟨hprocess, hthread, hlist⟩ := nextRound_lists w k t
  have hnext : ∀ u, (k.nextRound w t).getNextThread u = k.getNextThread u :=
    getNextThread_congr hthread hlist hID
  have hparent : ((k.nextRound w t).thread t).parentProcess =
      (k.thread t).parentProcess :=
    (nextRound_thread w k t t Thread.parentProcess fun _ _ _ _ => rfl).trans
      (parentProcess_finished k t)
  refine ⟨h.ne_zero, h.ne_zero, (hnext t).trans h.again,
    (hnext t).trans h.again, fun hne => absurd rfl hne, ?_, ?_, ?_, ?_⟩
  · rw [hparent]
    exact h.parentProcess
  · rw [hprocess]
    exact h.processHead
  · rw [hthread]
    exact h.threadHead
  · rw [hthread, hlist]
    exact h.head

end Kernel

section

variable {w : Word} {R : SchedState → SchedEvent → SchedState → Prop}
  {s₀ : SchedState} {es : List SchedEvent} {k : Kernel} {t : Addr}

end

namespace ThreadsReady

variable {k : Kernel} {t : Addr} {us : List Addr}

/-- All threads have the ID of the first one, so the thread behind the first
node comes next. -/
theorem getNextThread (h : ThreadsReady k (t :: us)) (ht : t ≠ 0) {u : Addr}
    (hu : u ∈ t :: us) (hne : u ≠ 0) :
    k.getNextThread u = (Kernel.deref k.threadList
      (k.threadList k.threadHead).next).map ThreadList.threadInfo := by
  obtain ⟨hhead, hinfo, -⟩ := h.nodes
  have hID : (k.thread (k.threadList k.threadHead).threadInfo).threadID =
      (k.thread u).threadID := by
    rw [hinfo, h.threadID u hu, h.threadID t List.mem_cons_self]
  refine Kernel.getNextThread_of_node hne hhead ?_
  rw [Kernel.getThreadList, if_neg hhead]
  dsimp only
  rw [Kernel.deref_of_ne _ (hinfo.symm ▸ ht)]
  exact if_pos hID

end ThreadsReady

section

variable {w : Word} {R : SchedState → SchedEvent → SchedState → Prop}
  {k : Kernel} {t u : Addr} {ts us : List Addr}

theorem stuck_idle (w : Word) {s : SchedState} (h : s.control = .idle) :
    Stuck (QuietStep w) s := by
  obtain ⟨control, k⟩ := s
  obtain rfl : control = .idle := h
  intro e s' hstep
  cases hstep with
  | proceed hproceed => exact absurd hproceed (by simp [SchedState.proceed])
  | contextSwitch c hpoint => cases hpoint

namespace DispatchesEach

theorem perm (h : DispatchesEach w k ts) {F : Regs} {es : List SchedEvent}
    {s : SchedState} (hrun : FirstTick w k F es s) (hidle : s.control = .idle) :
    (dispatches es).Perm ts :=
  (h.stops F es s hrun (stuck_idle w hidle)).2.2

end DispatchesEach

end

end OptimistOS
