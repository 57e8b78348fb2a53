import OptimistOS.Scheduler.AddressSpaces

/-!
# Threads that a tick dispatches

`pitHandler` keeps `lockx` when it dispatches a thread, and it waits for it with
the interrupts disabled. So a tick that arrives before the function of the thread
has returned stops the processor for ever: no thread is preempted that a tick has
dispatched. Only the threads that `schedulerWrapper` dispatches run with `lockx`
free.
-/

namespace OptimistOS

open Transition

variable {w : Word} {regs : Regs} {k : Kernel} {c : Control} {s : SchedState}
  {es : List SchedEvent}

end OptimistOS
