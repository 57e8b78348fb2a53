import OptimistOS.Scheduler.Rounds
import Mathlib.Data.List.GetD

/-!
# The next thread of a list

What `getNextThread` of `process.cpp` does with a thread list whose threads all
have their own thread ID. The caller `runThread` tests its result for the null
pointer, so the thread at the end of the list should have the null pointer as
its next one.

`getThreadList` returns the head for the thread of the head and the second node
for every other thread, so `getNextThread` returns the second or the third
thread of the list, whatever thread comes next.
-/

open LinkedList

namespace OptimistOS

/-- The thread list carries the threads `ts`, all with their own thread ID. -/
structure ThreadsNumbered (k : Kernel) (ts : List Addr) : Prop where
  list : ∃ nodes, Chain 0 (fun p => (k.threadList p).next) k.threadHead nodes ∧
    nodes.map (fun p => (k.threadList p).threadInfo) = ts
  ne_zero : ∀ t ∈ ts, t ≠ 0
  threadID : (ts.map fun t => (k.thread t).threadID).Nodup

namespace Kernel

/-- `getNextThread` returns the thread behind the thread at the index `i`, the
null pointer at the end of the list, and dereferences no null pointer. -/
def FindsNext (k : Kernel) (ts : List Addr) (i : ℕ) : Prop :=
  k.getNextThread (ts.getD i 0) = some (ts.getD (i + 1) 0)

def visited (k : Kernel) : ℕ → Option Addr
  | 0 => (deref k.threadList k.threadHead).map ThreadList.threadInfo
  | i + 1 => k.visited i >>= k.getNextThread

/-- The calls of `getNextThread` that start at the head visit the threads `ts`
in this order and end with the null pointer. -/
def VisitsInOrder (k : Kernel) (ts : List Addr) : Prop :=
  (∀ i < ts.length, k.visited i = some (ts.getD i 0)) ∧
    k.visited ts.length = some 0

theorem deref_next_of_chain {k : Kernel} {p : Addr} {nodes : List Addr}
    (h : Chain 0 (fun p => (k.threadList p).next) p nodes) :
    (deref k.threadList p).map ThreadList.threadInfo =
      (nodes.map fun p => (k.threadList p).threadInfo).head? := by
  cases nodes with
  | nil =>
      obtain rfl : p = 0 := h
      rfl
  | cons q qs =>
      obtain ⟨rfl, hne, -⟩ := h
      rw [deref_of_ne _ hne]
      rfl

end Kernel

namespace ThreadsNumbered

variable {k : Kernel} {t u : Addr} {ts : List Addr}

theorem getThreadList_cons (h : ThreadsNumbered k (t :: ts)) :
    ∃ q qs, q ≠ 0 ∧
      Chain 0 (fun p => (k.threadList p).next) (k.threadList q).next qs ∧
      qs.map (fun p => (k.threadList p).threadInfo) = ts ∧
      ∀ threadID, k.getThreadList threadID true =
        if (k.thread t).threadID = threadID then some q
        else some (k.threadList q).next := by
  obtain ⟨nodes, hchain, hmap⟩ := h.list
  cases nodes with
  | nil => exact absurd hmap (by simp)
  | cons q qs =>
      obtain ⟨hhead, hne, hrest⟩ := hchain
      obtain ⟨hq, hqs⟩ := List.cons.inj hmap
      refine ⟨q, qs, hne, hrest, hqs, fun threadID => ?_⟩
      rw [Kernel.getThreadList, hhead, if_neg hne]
      dsimp only at hq ⊢
      rw [hq, Kernel.deref_of_ne _ (h.ne_zero t List.mem_cons_self)]
      rfl

theorem getNextThread_first (h : ThreadsNumbered k (t :: ts)) :
    k.getNextThread t = ts.head? := by
  obtain ⟨q, qs, hne, hrest, rfl, hget⟩ := h.getThreadList_cons
  rw [Kernel.getNextThread_of_node (h.ne_zero t List.mem_cons_self) hne
    ((hget _).trans (if_pos rfl))]
  exact Kernel.deref_next_of_chain hrest

theorem getNextThread_other (h : ThreadsNumbered k (t :: ts)) (hu : u ∈ ts) :
    k.getNextThread u = ts.tail.head? := by
  have hID : (k.thread t).threadID ≠ (k.thread u).threadID := by
    rintro heq
    have hnodup := h.threadID
    rw [List.map_cons] at hnodup
    exact (List.nodup_cons.1 hnodup).1 (List.mem_map.2 ⟨u, hu, heq.symm⟩)
  obtain ⟨q, qs, -, hrest, hqs, hget⟩ := h.getThreadList_cons
  cases qs with
  | nil =>
      obtain rfl : [] = ts := hqs
      exact absurd hu (by simp)
  | cons r rs =>
      obtain ⟨hr, hr', hrest⟩ := hrest
      rw [Kernel.getNextThread_of_node
        (h.ne_zero u (List.mem_cons_of_mem _ hu)) hr'
          ((hget _).trans ((if_neg hID).trans (congrArg some hr))), ← hqs]
      exact Kernel.deref_next_of_chain hrest

theorem nodup (h : ThreadsNumbered k ts) : ts.Nodup :=
  List.Nodup.of_map _ h.threadID

/-- The next thread is found behind the first two threads only. -/
theorem findsNext_iff_index (h : ThreadsNumbered k ts) {i : ℕ}
    (hi : i < ts.length) :
    k.FindsNext ts i ↔ i ≤ 1 ∧ i + 1 < ts.length := by
  match ts, i, h with
  | [t], 0, h =>
      rw [Kernel.FindsNext, List.getD_cons_zero, h.getNextThread_first]
      simp
  | t :: u :: us, 0, h =>
      rw [Kernel.FindsNext, List.getD_cons_zero, h.getNextThread_first]
      simp
  | [t, u], 1, h =>
      rw [Kernel.FindsNext, List.getD_cons_succ, List.getD_cons_zero,
        h.getNextThread_other List.mem_cons_self]
      simp
  | t :: u :: v :: vs, 1, h =>
      rw [Kernel.FindsNext, List.getD_cons_succ, List.getD_cons_zero,
        h.getNextThread_other List.mem_cons_self]
      simp
  | [t, u], i + 2, h => exact absurd hi (by simp)
  | t :: u :: v :: vs, i + 2, h =>
      have hlt : i + 1 < (u :: v :: vs).length := by simpa using hi
      have hget : (u :: v :: vs).getD (i + 1) 0 = (u :: v :: vs)[i + 1] :=
        List.getD_eq_getElem _ _ hlt
      rw [Kernel.FindsNext, List.getD_cons_succ, hget,
        h.getNextThread_other (List.getElem_mem hlt)]
      refine iff_of_false (fun hv => ?_) (by omega)
      -- The third thread would be the one behind the thread asked for.
      obtain hv : v = vs.getD i 0 := by simpa using hv
      by_cases hend : i < vs.length
      · rw [List.getD_eq_getElem _ _ hend] at hv
        have hnodup := (List.nodup_cons.1
          (List.nodup_cons.1 (List.nodup_cons.1 h.nodup).2).2).1
        exact hnodup (hv ▸ List.getElem_mem hend)
      · rw [List.getD_eq_default _ _ (by omega)] at hv
        exact h.ne_zero v (by simp) hv

theorem not_visitsInOrder (h : ThreadsNumbered k ts) (hne : ts ≠ []) :
    ¬ k.VisitsInOrder ts := by
  rintro ⟨hvisit, hend⟩
  obtain ⟨n, hn⟩ : ∃ n, ts.length = n + 1 :=
    Nat.exists_eq_succ_of_ne_zero fun h0 => hne (List.eq_nil_of_length_eq_zero h0)
  have hlast : k.FindsNext ts n := by
    rw [hn, Kernel.visited, hvisit n (by omega)] at hend
    rw [Kernel.FindsNext, List.getD_eq_default _ _ (show ts.length ≤ n + 1 by
      omega)]
    exact hend
  have hlt := ((h.findsNext_iff_index (by omega)).1 hlast).2
  omega

end ThreadsNumbered

/-- `getNextThread` finds the next thread exactly for the first two threads of
a list, unless they are its last one, and never leads through a whole list. -/
theorem findsNext_iff {k : Kernel} {ts : List Addr} (h : ThreadsNumbered k ts)
    {i : ℕ} (hi : i < ts.length) :
    (k.FindsNext ts i ↔ i ≤ 1 ∧ i + 1 < ts.length) ∧ ¬ k.VisitsInOrder ts :=
  ⟨h.findsNext_iff_index hi, h.not_visitsInOrder fun hnil => by
    rw [hnil] at hi
    exact absurd hi (by simp)⟩

def numberedThreads : Kernel :=
  { twoThreads with
    thread := fun t =>
      { twoThreads.thread t with threadID := if t = firstThread then 1 else 2 } }

theorem threadsNumbered_numberedThreads :
    ThreadsNumbered numberedThreads [firstThread, secondThread] :=
  ⟨⟨[0xffff800000210000, 0xffff800000211000], by
    simp [Chain, numberedThreads, twoThreads],
    by simp [numberedThreads, twoThreads]⟩,
    by simp [firstThread, secondThread],
    by simp [numberedThreads, firstThread, secondThread]⟩

/-- The second thread comes behind the first one. -/
theorem findsNext_iff_numberedThreads :
    (numberedThreads.FindsNext [firstThread, secondThread] 0 ↔
        0 ≤ 1 ∧ 0 + 1 < [firstThread, secondThread].length) ∧
      ¬ numberedThreads.VisitsInOrder [firstThread, secondThread] :=
  findsNext_iff threadsNumbered_numberedThreads (by decide)

/-- Asked for the thread behind the last one, `getNextThread` dereferences the
null pointer. -/
theorem exists_not_findsNext :
    ∃ k ts i, ThreadsNumbered k ts ∧ i < ts.length ∧
      k.getNextThread (ts.getD i 0) = none ∧ ¬ k.FindsNext ts i :=
  ⟨numberedThreads, [firstThread, secondThread], 1,
    threadsNumbered_numberedThreads, by decide, by decide, by
      rw [Kernel.FindsNext]
      decide⟩

end OptimistOS
