import OptimistOS.Process.ProcessList
import OptimistOS.Scheduler.Scheduler

/-!
# The first dispatch of a thread

The registers on their way from `setupThreadContext`, which writes them into the
record of a new thread, through the statements of `runThread`, which set `rdi`
and `rip`, to `contextSwitch`, which loads them. Until the thread is chosen for
the first time, `runThread` stores frames into other records only.
-/

namespace OptimistOS

open ByteMemory ByteMemory.Code

namespace Kernel

/-- The statements of `runThread` from `point` up to its call of
`contextSwitch`, at most `fuel` of them. -/
def runThreadTo (w : Word) (regs : RegsPtr) :
    ℕ → RunThread → Kernel → Option Kernel
  | _, .contextSwitch, k => some k
  | 0, _, _ => none
  | fuel + 1, point, k =>
      match k.runThread w regs point with
      | some (some next, k') => runThreadTo w regs fuel next k'
      | _ => none

end Kernel

def RunThread.choosing : RunThread → Bool
  | .start | .save | .ready | .choose => true
  | _ => false

/-- The registers in the record of a thread that is dispatched with the
registers `value` and the entry point `entry`, before a statement of
`runThread`. -/
def RunThread.regsAt (w : Word) (value : Regs) (entry : Word) :
    RunThread → Regs
  | .setRip => Function.update value (.reg .rdi) entry
  | .copyBack | .contextSwitch =>
      Function.update (Function.update value (.reg .rdi) entry) .rip w
  | _ => value

/-- Before the statement `point` the thread `t` is still to be dispatched for
the first time, with the registers `value` and the entry point `entry`. -/
structure FirstDispatch (w : Word) (value : Regs) (entry : Word) (t : Addr)
    (point : RunThread) (k : Kernel) : Prop where
  entryPoint : (k.thread t).entryPoint = entry
  other : point.choosing → k.runningThread ≠ t
  regs : point.choosing ∨ point = .retry ∨ k.runningThread = t →
    (k.thread t).regs = point.regsAt w value entry

section

variable {w entry : Word} {value : Regs} {t : Addr} {k k' : Kernel}
  {point next : RunThread} {regs : RegsPtr}

/-- A statement that changes the record of the running thread only, and neither
its registers nor its entry point. -/
theorem FirstDispatch.modifyThread (h : FirstDispatch w value entry t point k)
    {f : Thread → Thread} (hchoosing : next.choosing → point.choosing)
    (hretry : next ≠ .retry)
    (hregsAt : next.regsAt w value entry = point.regsAt w value entry)
    (hregs : ∀ thread, (f thread).regs = thread.regs)
    (hentry : ∀ thread, (f thread).entryPoint = thread.entryPoint) :
    FirstDispatch w value entry t next (k.modifyThread k.runningThread f) := by
  refine ⟨?_, fun hnext => h.other (hchoosing hnext), fun hnext => ?_⟩
  · rw [Kernel.modifyThread_member k _ t Thread.entryPoint (hentry _),
      h.entryPoint]
  · rw [Kernel.modifyThread_member k _ t Thread.regs (hregs _), hregsAt]
    refine h.regs ?_
    rcases hnext with hnext | hnext | hnext
    · exact Or.inl (hchoosing hnext)
    · exact absurd hnext hretry
    · exact Or.inr (Or.inr hnext)

theorem FirstDispatch.setReg (h : FirstDispatch w value entry t point k)
    {f : Thread → Thread} {r : CpuRegs} {v : Word}
    (hchoosing : next.choosing = false) (hretry : next ≠ .retry)
    (hregsAt : next.regsAt w value entry =
      Function.update (point.regsAt w value entry) r v)
    (hregs : (f (k.thread t)).regs = Function.update (k.thread t).regs r v)
    (hentry : ∀ thread, (f thread).entryPoint = thread.entryPoint) :
    FirstDispatch w value entry t next (k.modifyThread k.runningThread f) := by
  refine ⟨?_, fun hnext => absurd hnext (by simp [hchoosing]), fun hnext => ?_⟩
  · rw [Kernel.modifyThread_member k _ t Thread.entryPoint (hentry _),
      h.entryPoint]
  · have hrunning : k.runningThread = t := by
      rcases hnext with hnext | hnext | hnext
      · exact absurd hnext (by simp [hchoosing])
      · exact absurd hnext hretry
      · exact hnext
    rw [hrunning, Kernel.modifyThread_self, hregs, hregsAt,
      h.regs (Or.inr (Or.inr hrunning))]

/-- A statement of `runThread`. -/
theorem FirstDispatch.step (h : FirstDispatch w value entry t point k)
    (hstep : Kernel.RunThreadStep w regs k point (some next) k') :
    FirstDispatch w value entry t next k' := by
  cases hstep with
  | first =>
      exact ⟨h.entryPoint, fun hlock => absurd hlock (by simp [RunThread.choosing]),
        fun _ => h.regs (Or.inl rfl)⟩
  | start => exact ⟨h.entryPoint, fun _ => h.other rfl,
      fun _ => h.regs (Or.inl rfl)⟩
  | save =>
      have hne := h.other rfl
      refine ⟨?_, fun _ => hne, fun _ => ?_⟩
      · rw [Kernel.modifyThread_of_ne k _ hne.symm, h.entryPoint]
      · rw [Kernel.modifyThread_of_ne k _ hne.symm, h.regs (Or.inl rfl)]
        rfl
  | ready =>
      exact h.modifyThread (fun _ => rfl) (by simp) rfl (fun _ => rfl)
        fun _ => rfl
  | choose =>
      exact ⟨h.entryPoint, fun hretry => absurd hretry
        (by simp [RunThread.choosing]), fun _ => h.regs (Or.inl rfl)⟩
  | chosen | retry =>
      exact ⟨h.entryPoint, fun hlock => absurd hlock
        (by simp [RunThread.choosing]), fun _ => h.regs (Or.inr (Or.inl rfl))⟩
  | lock | running =>
      exact h.modifyThread (fun hnext => absurd hnext
        (by simp [RunThread.choosing])) (by simp) rfl (fun _ => rfl)
        fun _ => rfl
  | spin => exact h
  | pageMap =>
      exact ⟨h.entryPoint, fun hnext => absurd hnext
        (by simp [RunThread.choosing]), fun hnext => h.regs
          (Or.inr (Or.inr (by simpa [RunThread.choosing] using hnext)))⟩
  | setRdi =>
      exact h.setReg rfl (by simp) rfl (by rw [h.entryPoint]) fun _ => rfl
  | setRip => exact h.setReg rfl (by simp) rfl rfl fun _ => rfl
  | copyBack hrunning hwrite =>
      cases regs with
      | frame =>
          obtain rfl : k = k' := Option.some.inj hwrite
          exact ⟨h.entryPoint, fun hnext => absurd hnext
            (by simp [RunThread.choosing]), fun hnext => h.regs
              (Or.inr (Or.inr (by simpa [RunThread.choosing] using hnext)))⟩
      | thread u =>
          obtain ⟨_, -, hk'⟩ := Option.bind_eq_some_iff.1 hwrite
          obtain rfl := Option.some.inj hk'
          refine ⟨?_, fun hnext => absurd hnext (by simp [RunThread.choosing]),
            fun hnext => ?_⟩
          · rw [Kernel.modifyThread_member k u t Thread.entryPoint rfl,
              h.entryPoint]
          · obtain rfl : k.runningThread = t := by
              simpa [RunThread.choosing] using hnext
            refine Eq.trans ?_ (h.regs (Or.inr (Or.inr rfl)))
            by_cases hu : k.runningThread = u
            · rw [← hu, Kernel.modifyThread_self]
            · rw [Kernel.modifyThread_of_ne k _ hu]

theorem FirstDispatch.run {fuel : ℕ}
    (h : FirstDispatch w value entry t point k)
    (hrun : Kernel.runThreadTo w regs fuel point k = some k') :
    FirstDispatch w value entry t .contextSwitch k' := by
  induction fuel generalizing point k with
  | zero =>
      cases point with
      | contextSwitch =>
          obtain rfl : k = k' := Option.some.inj hrun
          exact h
      | _ => exact nomatch hrun
  | succ fuel ih =>
      cases point with
      | contextSwitch =>
          obtain rfl : k = k' := Option.some.inj hrun
          exact h
      | _ =>
          simp only [Kernel.runThreadTo] at hrun
          split at hrun
          · next hstep => exact ih (h.step (Kernel.runThread_step hstep)) hrun
          · exact nomatch hrun

end

section

variable {α : Type} {M : MemoryManager α} {thread : Addr} {entryPoint : Word}
  {user : Bool} {state : ThreadState} {s s' : Machine 64 (ProcessGlobals α)}

end

end OptimistOS
