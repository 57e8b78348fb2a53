import OptimistOS.Scheduler.ContextSwitch

/-!
# Threads

The records of `schedulerDecls.hpp` that the scheduler reads and writes, the
global variables that lead to them, and the search for the next thread of
`process.cpp`. The records live in three stores, one for each type, and a
pointer selects a record of the store of its type. Dereferencing the null
pointer stops the code that does it.

`getThreadList` never gets past the first node: if the head does not carry the
thread ID it looks for, it returns the node after the head. It ignores its
second argument.
-/

namespace OptimistOS

inductive ThreadPriority
  | low
  | medium
  | high
  deriving DecidableEq, Repr

inductive ThreadState
  | ready
  | running
  | suspended
  deriving DecidableEq, Repr

structure Thread where
  threadID : Word
  regs : Regs
  priority : ThreadPriority
  stackAddress : Word
  cpuID : Word
  kernelStack : Word
  entryPoint : Word
  state : ThreadState
  parentProcess : Addr
  lock : BitVec 32

structure ThreadList where
  threadInfo : Addr
  next : Addr

/-- The record `process`, as far as the scheduler reads it. -/
structure Process where
  PML4 : Addr

/-- The global variables of the scheduler and the records they lead to. -/
structure Kernel where
  processHead : Addr
  threadHead : Addr
  threadCount : Word
  runningThread : Addr
  lockx : BitVec 32
  pitTicks : Word
  cr3 : Word
  thread : Addr → Thread
  threadList : Addr → ThreadList
  process : Addr → Process

namespace Kernel

def deref {α : Type} (store : Addr → α) (p : Addr) : Option α :=
  if p = 0 then none else some (store p)

theorem deref_eq_some {α : Type} {store : Addr → α} {p : Addr} {a : α} :
    deref store p = some a ↔ p ≠ 0 ∧ store p = a := by
  rw [deref]
  split_ifs with h
  · exact ⟨fun hnone => absurd hnone (by simp), fun hp => absurd h hp.1⟩
  · exact ⟨fun hsome => ⟨h, Option.some.inj hsome⟩, fun hp => congrArg some hp.2⟩

theorem deref_of_ne {α : Type} (store : Addr → α) {p : Addr} (h : p ≠ 0) :
    deref store p = some (store p) :=
  if_neg h

def modifyThread (k : Kernel) (t : Addr) (f : Thread → Thread) : Kernel :=
  { k with thread := Function.update k.thread t (f (k.thread t)) }

@[simp] theorem modifyThread_runningThread (k : Kernel) (t : Addr)
    (f : Thread → Thread) :
    (k.modifyThread t f).runningThread = k.runningThread := rfl

@[simp] theorem modifyThread_self (k : Kernel) (t : Addr)
    (f : Thread → Thread) : (k.modifyThread t f).thread t = f (k.thread t) :=
  Function.update_self _ _ _

theorem modifyThread_of_ne (k : Kernel) {t u : Addr} (f : Thread → Thread)
    (h : u ≠ t) : (k.modifyThread t f).thread u = k.thread u :=
  Function.update_of_ne h _ _

theorem modifyThread_modifyThread (k : Kernel) (t : Addr)
    (f g : Thread → Thread) :
    (k.modifyThread t f).modifyThread t g = k.modifyThread t (g ∘ f) := by
  simp only [modifyThread, Function.update_self, Function.update_idem,
    Function.comp_apply]

theorem modifyThread_eq_self (k : Kernel) (t : Addr) {f : Thread → Thread}
    (h : f (k.thread t) = k.thread t) : k.modifyThread t f = k := by
  rw [modifyThread, h, Function.update_eq_self]

theorem modifyThread_member {β : Type} (k : Kernel) (t u : Addr)
    {f : Thread → Thread} (member : Thread → β)
    (hf : member (f (k.thread t)) = member (k.thread t)) :
    member ((k.modifyThread t f).thread u) = member (k.thread u) := by
  by_cases h : u = t
  · rw [h, modifyThread_self, hf]
  · rw [modifyThread_of_ne k f h]

/-- `getThreadList`. The loop returns in its first iteration. -/
def getThreadList (k : Kernel) (threadID : Word) (_next : Bool) :
    Option Addr :=
  if k.threadHead = 0 then
    some 0
  else do
    let tList := k.threadList k.threadHead
    let threadInfo ← deref k.thread tList.threadInfo
    if threadInfo.threadID = threadID then
      return k.threadHead
    else
      return tList.next

def getNextThread (k : Kernel) (currentThread : Addr) : Option Addr := do
  let thread ← deref k.thread currentThread
  let tList ← deref k.threadList (← k.getThreadList thread.threadID true)
  let next ← deref k.threadList tList.next
  return next.threadInfo

theorem getNextThread_congr {k k' : Kernel} (hhead : k'.threadHead = k.threadHead)
    (hlist : k'.threadList = k.threadList)
    (hID : ∀ t, (k'.thread t).threadID = (k.thread t).threadID) (t : Addr) :
    k'.getNextThread t = k.getNextThread t := by
  have hget : ∀ i b, k'.getThreadList i b = k.getThreadList i b := by
    intro i b
    simp only [getThreadList, deref, hhead, hlist]
    split_ifs <;> simp [hID]
  simp only [getNextThread, deref, hlist, hget]
  split_ifs <;> simp [hID]

structure SameThreads (k k' : Kernel) : Prop where
  threadHead : k'.threadHead = k.threadHead
  threadList : k'.threadList = k.threadList
  threadID : ∀ t, (k'.thread t).threadID = (k.thread t).threadID
  entryPoint : ∀ t, (k'.thread t).entryPoint = (k.thread t).entryPoint

theorem SameThreads.getNextThread {k k' : Kernel} (h : SameThreads k k')
    (t : Addr) : k'.getNextThread t = k.getNextThread t :=
  getNextThread_congr h.threadHead h.threadList h.threadID t

theorem sameThreads_modifyThread (k : Kernel) (t : Addr) {f : Thread → Thread}
    (hID : (f (k.thread t)).threadID = (k.thread t).threadID)
    (hentry : (f (k.thread t)).entryPoint = (k.thread t).entryPoint) :
    SameThreads k (k.modifyThread t f) :=
  ⟨rfl, rfl, fun u => modifyThread_member k t u Thread.threadID hID,
    fun u => modifyThread_member k t u Thread.entryPoint hentry⟩

end Kernel

end OptimistOS
