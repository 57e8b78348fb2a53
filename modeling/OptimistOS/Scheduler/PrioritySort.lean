import OptimistOS.Foundation.BubbleSort
import OptimistOS.Foundation.Chain
import OptimistOS.Foundation.Machine
import OptimistOS.Scheduler.NextThread

/-!
# Sorting the threads

`prioritySort` of `scheduler.cpp` is a bubble sort of the threads that a list
carries: it exchanges the `threadInfo` of neighbouring nodes and leaves the nodes
where they are. Its inner loop ends at a node whose `threadInfo` is null, and it
sorts every list with such a node at its end. `addThreadToList` builds lists
without one; there the loop reads through the null pointer behind the last node,
unless the list has one node at most and is not looked at.
-/

namespace OptimistOS

open ByteMemory LinkedList BubbleSort

def ThreadPriority.value : ThreadPriority → ℕ
  | .low => 0
  | .medium => 1
  | .high => 2

namespace Kernel

def priority (k : Kernel) (t : Addr) : ℕ := (k.thread t).priority.value

def swapThreads (k : Kernel) (p q : Addr) : Kernel :=
  let temp := (k.threadList p).threadInfo
  let list := Function.update k.threadList p
    { k.threadList p with threadInfo := (k.threadList q).threadInfo }
  { k with threadList :=
      Function.update list q { list q with threadInfo := temp } }

/-- The inner loop of `prioritySort`, in at most `steps` iterations. It returns
whether it has swapped threads. -/
def prioritySortPass :
    ℕ → Bool → Addr → Kernel → Except Stop (Bool × Kernel)
  | 0, _, _, _ => throw .fuel
  | steps + 1, swapped, currentThread, k => do
      let next := (k.threadList currentThread).next
      if currentThread = 0 ∨ next = 0 then
        throw .null
      else if (k.threadList next).threadInfo ≠ 0 then
        if (k.threadList currentThread).threadInfo = 0 then
          throw .null
        else if k.priority (k.threadList currentThread).threadInfo <
            k.priority (k.threadList next).threadInfo then
          prioritySortPass steps true next (k.swapThreads currentThread next)
        else
          prioritySortPass steps swapped next k
      else
        return (swapped, k)

def prioritySortLoop (tList : Addr) (steps : ℕ) :
    ℕ → Kernel → Except Stop Kernel
  | 0, _ => throw .fuel
  | passes + 1, k => do
      let (swapped, k) ← prioritySortPass steps false tList k
      if swapped then
        prioritySortLoop tList steps passes k
      else
        return k

/-- `prioritySort`; `fuel` bounds both loops. -/
def prioritySort (fuel : ℕ) (tList : Addr) (k : Kernel) :
    Except Stop (Addr × Kernel) :=
  if tList = 0 ∨ (k.threadList tList).next = 0 then
    return (tList, k)
  else do
    let k ← prioritySortLoop tList fuel fuel k
    return (tList, k)

def threadInfos (k : Kernel) (nodes : List Addr) : List Addr :=
  nodes.map fun p => (k.threadList p).threadInfo

structure Rearranged (k k' : Kernel) (nodes ts : List Addr) : Prop where
  eq : k' = { k with threadList := k'.threadList }
  other : ∀ p ∉ nodes, k'.threadList p = k.threadList p
  next : ∀ p, (k'.threadList p).next = (k.threadList p).next
  threadInfos : k'.threadInfos nodes = ts

/-- `prioritySort` sorts the threads of the nodes `nodes`. It leaves everything
else as it is: the links, the sentinel and every other node, the records of the
threads. -/
def SortsThreads (k : Kernel) (tList : Addr) (nodes : List Addr)
    (sentinel : Addr) : Prop :=
  ∃ fuel k' ts, k.prioritySort fuel tList = .ok (tList, k') ∧
    Rearranged k k' nodes ts ∧
    k'.threadList sentinel = k.threadList sentinel ∧
    IsStableSort k.priority (k.threadInfos nodes) ts

/-- `prioritySort` dereferences no null pointer and returns. -/
def SortReturns (k : Kernel) (tList : Addr) : Prop :=
  ∃ fuel q k', k.prioritySort fuel tList = .ok (q, k')

variable {k k' : Kernel} {nodes ts : List Addr} {p q sentinel : Addr}

@[simp] theorem swapThreads_next (k : Kernel) (p q r : Addr) :
    ((k.swapThreads p q).threadList r).next = (k.threadList r).next := by
  simp only [swapThreads, Function.update_apply]
  split_ifs with hq hp hqp <;> simp_all

theorem swapThreads_other (k : Kernel) {p q r : Addr} (hp : r ≠ p)
    (hq : r ≠ q) : (k.swapThreads p q).threadList r = k.threadList r := by
  rw [swapThreads]
  dsimp only
  rw [Function.update_of_ne hq, Function.update_of_ne hp]

theorem swapThreads_left (k : Kernel) {p q : Addr} (h : p ≠ q) :
    ((k.swapThreads p q).threadList p).threadInfo =
      (k.threadList q).threadInfo := by
  rw [swapThreads]
  dsimp only
  rw [Function.update_of_ne h, Function.update_self]

theorem swapThreads_right (k : Kernel) (p q : Addr) :
    ((k.swapThreads p q).threadList q).threadInfo =
      (k.threadList p).threadInfo := by
  rw [swapThreads]
  dsimp only
  rw [Function.update_self]

theorem chain_swapThreads {r : Addr}
    (h : Chain 0 (fun p => (k.threadList p).next) r nodes) :
    Chain 0 (fun r => ((k.swapThreads p q).threadList r).next) r nodes :=
  h.congr fun _ _ => swapThreads_next k p q _

theorem threadInfos_swapThreads (hp : p ∉ nodes) (hq : q ∉ nodes) :
    (k.swapThreads p q).threadInfos nodes = k.threadInfos nodes := by
  refine List.map_congr_left fun r hr => ?_
  rw [swapThreads_other]
  · rintro rfl
    exact hp hr
  · rintro rfl
    exact hq hr

theorem prioritySortPass_step {steps : ℕ} {swapped : Bool} (hp : p ≠ 0)
    (hnext : (k.threadList p).next = q) (hq : q ≠ 0)
    (hpInfo : (k.threadList p).threadInfo ≠ 0)
    (hqInfo : (k.threadList q).threadInfo ≠ 0) :
    prioritySortPass (steps + 1) swapped p k =
      if k.priority (k.threadList p).threadInfo <
          k.priority (k.threadList q).threadInfo then
        prioritySortPass steps true q (k.swapThreads p q)
      else
        prioritySortPass steps swapped q k := by
  have hne : ¬ (p = 0 ∨ q = 0) := by
    rintro (h | h)
    · exact hp h
    · exact hq h
  rw [prioritySortPass, hnext, if_neg hne, if_pos hqInfo, if_neg hpInfo]

theorem Rearranged.refl (k : Kernel) (nodes : List Addr) :
    Rearranged k k nodes (k.threadInfos nodes) :=
  ⟨rfl, fun _ _ => rfl, fun _ => rfl, rfl⟩

/-- A pass over the nodes in front of the sentinel is one over their threads. -/
theorem prioritySortPass_eq {steps : ℕ} {swapped : Bool} {t : Addr}
    (hchain : Chain 0 (fun p => (k.threadList p).next) p
      (p :: nodes ++ [sentinel]))
    (hsentinel : (k.threadList sentinel).threadInfo = 0)
    (hinfos : k.threadInfos (p :: nodes) = t :: ts)
    (hne : ∀ u ∈ t :: ts, u ≠ 0) (hsteps : nodes.length < steps) :
    ∃ k', prioritySortPass steps swapped p k =
        .ok (swapped || (BubbleSort.pass k.priority t ts).2, k') ∧
      Rearranged k k' (p :: nodes) (BubbleSort.pass k.priority t ts).1 := by
  induction nodes generalizing k p t ts steps swapped with
  | nil =>
      obtain ⟨steps, rfl⟩ := Nat.exists_eq_add_of_lt hsteps
      obtain ⟨-, hp, hnext, hs, -⟩ := hchain
      obtain ⟨rfl, rfl⟩ := List.cons.inj hinfos
      have hnull : ¬ (p = 0 ∨ sentinel = 0) := by
        rintro (h | h)
        · exact hp h
        · exact hs h
      refine ⟨k, ?_, Rearranged.refl k [p]⟩
      rw [prioritySortPass]
      dsimp only at hnext ⊢
      rw [hnext, if_neg hnull, if_neg (not_not.2 hsentinel)]
      simp [BubbleSort.pass]
      rfl
  | cons q nodes ih =>
      obtain ⟨steps, rfl⟩ := Nat.exists_eq_add_of_lt (Nat.zero_lt_of_lt hsteps)
      have hnodup := hchain.nodup
      obtain ⟨-, hp, hrest⟩ := hchain
      have hnext : (k.threadList p).next = q := hrest.1
      obtain ⟨rfl, htail⟩ := List.cons.inj hinfos
      obtain ⟨u, us, rfl⟩ : ∃ u us, ts = u :: us :=
        ⟨_, _, htail.symm.trans (List.map_cons ..)⟩
      obtain ⟨hu, hus⟩ := List.cons.inj htail
      have hq : (k.threadList q).threadInfo = u := hu
      have hpq : p ∉ q :: nodes := fun hmem =>
        (List.nodup_cons.1 hnodup).1 (List.mem_append_left _ hmem)
      have hqs : sentinel ∉ q :: nodes := fun hmem =>
        List.disjoint_of_nodup_append (List.nodup_cons.1 hnodup).2 hmem
          List.mem_cons_self
      have hps : sentinel ≠ p := by
        rintro rfl
        exact (List.nodup_cons.1 hnodup).1 (by simp)
      rw [Nat.zero_add, prioritySortPass_step hp hnext hrest.2.1
        (hne _ List.mem_cons_self) (hq ▸ hne u (by simp))]
      have hsteps' : nodes.length < steps := by
        rw [List.length_cons] at hsteps
        omega
      by_cases hlt : k.priority (k.threadList p).threadInfo < k.priority u
      · have hswapped : (k.swapThreads p q).threadInfos (q :: nodes) =
            (k.threadList p).threadInfo :: us := by
          have hqnodes := (List.nodup_cons.1 (List.nodup_cons.1 hnodup).2).1
          rw [threadInfos, List.map_cons, swapThreads_right]
          refine congrArg _ ((threadInfos_swapThreads ?_ ?_).trans hus)
          · exact fun hmem => hpq (List.mem_cons_of_mem _ hmem)
          · exact fun hmem => hqnodes (List.mem_append_left _ hmem)
        obtain ⟨k', hrun, hk'⟩ : ∃ k', prioritySortPass steps true q
            (k.swapThreads p q) = .ok (true || _, k') ∧ Rearranged _ k' _ _ :=
          ih (chain_swapThreads (hnext ▸ hrest))
          ((congrArg ThreadList.threadInfo (swapThreads_other k hps
            fun heq => hqs (heq ▸ List.mem_cons_self))).trans hsentinel)
          hswapped (fun v hv => hne v (by
            rcases List.mem_cons.1 hv with rfl | hv <;> simp [*])) hsteps'
        refine ⟨k', ?_, ⟨hk'.eq, fun r hr => ?_, fun r => ?_, ?_⟩⟩
        · rw [hq, if_pos hlt, hrun, pass_of_lt hlt]
          simp
        · rw [hk'.other r fun hmem => hr (List.mem_cons_of_mem _ hmem),
            swapThreads_other]
          · rintro rfl
            exact hr List.mem_cons_self
          · rintro rfl
            exact hr (by simp)
        · rw [hk'.next, swapThreads_next]
        · rw [pass_of_lt hlt, threadInfos, List.map_cons]
          refine congrArg₂ _ ?_ hk'.threadInfos
          rw [hk'.other p hpq, swapThreads_left, hq]
          rintro rfl
          exact hpq List.mem_cons_self
      · obtain ⟨k', hrun, hk'⟩ : ∃ k', prioritySortPass steps swapped q k =
            .ok (swapped || _, k') ∧ Rearranged k k' _ _ :=
          ih (hnext ▸ hrest) hsentinel htail
            (fun v hv => hne v (List.mem_cons_of_mem _ hv)) hsteps'
        refine ⟨k', ?_, ⟨hk'.eq, fun r hr => ?_, hk'.next, ?_⟩⟩
        · rw [hq, if_neg hlt, hrun, pass_of_not_lt hlt]
        · exact hk'.other r fun hmem => hr (List.mem_cons_of_mem _ hmem)
        · rw [pass_of_not_lt hlt, threadInfos, List.map_cons]
          exact congrArg₂ _ (by rw [hk'.other p hpq]) hk'.threadInfos

theorem Rearranged.trans {k'' : Kernel} {us : List Addr}
    (h : Rearranged k k' nodes ts) (h' : Rearranged k' k'' nodes us) :
    Rearranged k k'' nodes us :=
  ⟨by rw [h'.eq, h.eq], fun p hp => (h'.other p hp).trans (h.other p hp),
    fun p => (h'.next p).trans (h.next p), h'.threadInfos⟩

theorem Rearranged.priority (h : Rearranged k k' nodes ts) :
    k'.priority = k.priority := by
  rw [h.eq]
  rfl

/-- The passes over the list are passes over its threads. -/
theorem prioritySortLoop_eq {passes steps : ℕ}
    (hchain : Chain 0 (fun p => (k.threadList p).next) p
      (p :: nodes ++ [sentinel]))
    (hsentinel : (k.threadList sentinel).threadInfo = 0)
    (hinfos : k.threadInfos (p :: nodes) = ts) (hne : ∀ u ∈ ts, u ≠ 0)
    (hsteps : nodes.length < steps) {us : List Addr}
    (hus : sortPasses k.priority passes ts = some us) :
    ∃ k', prioritySortLoop p steps passes k = .ok k' ∧
      Rearranged k k' (p :: nodes) us := by
  induction passes generalizing k ts with
  | zero => exact absurd hus (by simp [sortPasses])
  | succ passes ih =>
      obtain ⟨t, ts, rfl⟩ : ∃ t us, ts = t :: us :=
        ⟨_, _, hinfos.symm.trans (List.map_cons ..)⟩
      obtain ⟨k₁, hrun, hk₁⟩ : ∃ k', prioritySortPass steps false p k =
          .ok ((BubbleSort.pass k.priority t ts).2, k') ∧ Rearranged k k' _ _ :=
        prioritySortPass_eq hchain hsentinel hinfos hne hsteps
      rw [sortPasses] at hus
      rw [prioritySortLoop, hrun]
      dsimp only [Except.bind, bind]
      by_cases hswap : (BubbleSort.pass k.priority t ts).2
      · rw [if_pos hswap] at hus ⊢
        have hnot : sentinel ∉ p :: nodes := fun hmem =>
          List.disjoint_of_nodup_append hchain.nodup hmem List.mem_cons_self
        obtain ⟨k', hrest, hk'⟩ := ih
          (hchain.congr fun q _ => hk₁.next q)
          ((congrArg ThreadList.threadInfo (hk₁.other _ hnot)).trans hsentinel)
          hk₁.threadInfos
          (fun u hu => hne u ((pass_perm t ts).mem_iff.1 hu))
          (hk₁.priority ▸ hus)
        exact ⟨k', hrest, hk₁.trans hk'⟩
      · rw [if_neg hswap] at hus ⊢
        obtain rfl := Option.some.inj hus
        exact ⟨k₁, rfl, hk₁⟩

/-- Without a sentinel a pass reads through the null pointer behind the last
node. -/
theorem prioritySortPass_error (steps : ℕ) (swapped : Bool)
    (hchain : Chain 0 (fun p => (k.threadList p).next) p (p :: nodes))
    (hne : ∀ t ∈ k.threadInfos (p :: nodes), t ≠ 0) :
    ∃ e, prioritySortPass steps swapped p k = .error e := by
  induction nodes generalizing k p steps swapped with
  | nil =>
      cases steps with
      | zero => exact ⟨.fuel, rfl⟩
      | succ steps =>
          refine ⟨.null, ?_⟩
          rw [prioritySortPass]
          exact if_pos (Or.inr hchain.2.2)
  | cons q nodes ih =>
      cases steps with
      | zero => exact ⟨.fuel, rfl⟩
      | succ steps =>
          obtain ⟨-, hp, hrest⟩ := hchain
          have hnext : (k.threadList p).next = q := hrest.1
          replace hrest : Chain 0 (fun p => (k.threadList p).next) q
            (q :: nodes) := hnext ▸ hrest
          have hpInfo : (k.threadList p).threadInfo ≠ 0 :=
            hne _ List.mem_cons_self
          have hqInfo : (k.threadList q).threadInfo ≠ 0 :=
            hne _ (List.mem_cons_of_mem _ List.mem_cons_self)
          rw [prioritySortPass_step hp hnext hrest.2.1 hpInfo hqInfo]
          split_ifs with hlt
          · refine ih steps true (chain_swapThreads hrest) fun t ht => ?_
            obtain ⟨r, hr, rfl⟩ := List.mem_map.1 ht
            by_cases hrp : r = p
            · subst hrp
              by_cases hrq : r = q
              · subst hrq
                rwa [swapThreads_right]
              · rwa [swapThreads_left k hrq]
            · by_cases hrq : r = q
              · subst hrq
                rwa [swapThreads_right]
              · rw [swapThreads_other k hrp hrq]
                exact hne _ (List.mem_cons_of_mem _ (List.mem_map.2 ⟨r, hr, rfl⟩))
          · exact ih steps swapped hrest fun t ht =>
              hne t (List.mem_cons_of_mem _ ht)

theorem not_sortReturns {tList : Addr}
    (hchain : Chain 0 (fun p => (k.threadList p).next) tList nodes)
    (hne : ∀ t ∈ k.threadInfos nodes, t ≠ 0) (hlen : 2 ≤ nodes.length) :
    ¬ k.SortReturns tList := by
  rintro ⟨fuel, r, k', hrun⟩
  obtain ⟨p, q, nodes, rfl⟩ : ∃ p q qs, nodes = p :: q :: qs := by
    match nodes, hlen with
    | p :: q :: qs, _ => exact ⟨p, q, qs, rfl⟩
  obtain ⟨rfl, hp, hrest⟩ := hchain
  have hnext : (k.threadList tList).next ≠ 0 := fun h0 =>
    hrest.2.1 (hrest.1.symm.trans h0)
  rw [prioritySort, if_neg (not_or.2 ⟨hp, hnext⟩)] at hrun
  obtain ⟨e, herror⟩ : ∃ e, prioritySortLoop tList fuel fuel k = .error e := by
    cases fuel with
    | zero => exact ⟨.fuel, rfl⟩
    | succ fuel =>
        obtain ⟨e, he⟩ := prioritySortPass_error (fuel + 1) false
          (show Chain 0 (fun p => (k.threadList p).next) tList
            (tList :: q :: nodes) from ⟨rfl, hp, hrest⟩) hne
        refine ⟨e, ?_⟩
        rw [prioritySortLoop, he]
        rfl
  rw [herror] at hrun
  exact nomatch hrun

end Kernel

/-- On a list with a sentinel at its end `prioritySort` sorts the threads. -/
theorem sortsThreads_of_sentinel {k : Kernel} {tList sentinel : Addr}
    {nodes : List Addr}
    (hchain : Chain 0 (fun p => (k.threadList p).next) tList
      (nodes ++ [sentinel]))
    (hsentinel : (k.threadList sentinel).threadInfo = 0)
    (hne : ∀ t ∈ k.threadInfos nodes, t ≠ 0) :
    k.SortsThreads tList nodes sentinel := by
  cases nodes with
  | nil =>
      obtain ⟨rfl, -, hend⟩ := hchain
      refine ⟨0, k, [], ?_, Kernel.Rearranged.refl k [], rfl,
        List.Perm.refl _, List.Pairwise.nil, fun _ => rfl⟩
      rw [Kernel.prioritySort]
      exact if_pos (Or.inr hend)
  | cons p nodes =>
      obtain rfl : tList = p := hchain.1
      have hnot : ¬ (tList = 0 ∨ (k.threadList tList).next = 0) := by
        rintro (h | h)
        · exact hchain.2.1 h
        · have hrest := hchain.2.2
          cases nodes with
          | nil => exact hrest.2.1 (hrest.1.symm.trans h)
          | cons q nodes => exact hrest.2.1 (hrest.1.symm.trans h)
      obtain ⟨fuel, hinversions, hlength⟩ : ∃ fuel,
          inversions k.priority (k.threadInfos (tList :: nodes)) < fuel ∧
          nodes.length < fuel :=
        ⟨_, Nat.lt_succ_of_le (Nat.le_max_left _ _),
          Nat.lt_succ_of_le (Nat.le_max_right _ _)⟩
      obtain ⟨ts, hts, hsort⟩ := exists_sortPasses hinversions
      obtain ⟨k', hrun, hk'⟩ := Kernel.prioritySortLoop_eq hchain hsentinel rfl
        hne hlength hts
      refine ⟨fuel, k', ts, ?_, hk', hk'.other sentinel fun hmem =>
        List.disjoint_of_nodup_append hchain.nodup hmem List.mem_cons_self,
        hsort⟩
      rw [Kernel.prioritySort, if_neg hnot, hrun]
      rfl

def sentinelThreads : Kernel :=
  { twoThreads with
    thread := fun t =>
      { twoThreads.thread t with
        priority := if t = firstThread then .low else .high }
    threadList := fun p =>
      if p = 0xffff800000210000 then ⟨firstThread, 0xffff800000211000⟩
      else if p = 0xffff800000211000 then ⟨secondThread, 0xffff800000212000⟩
      else ⟨0, 0⟩ }

theorem sortsThreads_sentinelThreads :
    sentinelThreads.SortsThreads 0xffff800000210000
      [0xffff800000210000, 0xffff800000211000] 0xffff800000212000 := by
  have hchain : Chain 0 (fun p => (sentinelThreads.threadList p).next)
      0xffff800000210000 ([0xffff800000210000, 0xffff800000211000] ++
        [0xffff800000212000]) := by
    simp [Chain, sentinelThreads]
  exact sortsThreads_of_sentinel hchain (by decide)
    (by simp [Kernel.threadInfos, sentinelThreads, firstThread, secondThread])

/-- On a list as `addThreadToList` builds it, `prioritySort` returns exactly for
one thread at most. -/
theorem sortReturns_iff {k : Kernel} {tList : Addr} {nodes : List Addr}
    (hchain : Chain 0 (fun p => (k.threadList p).next) tList nodes)
    (hne : ∀ t ∈ k.threadInfos nodes, t ≠ 0) :
    k.SortReturns tList ↔ nodes.length ≤ 1 := by
  refine ⟨fun hreturns => by_contra fun hlen =>
    Kernel.not_sortReturns hchain hne (by omega) hreturns, fun hlen => ?_⟩
  refine ⟨0, tList, k, if_pos ?_⟩
  match nodes, hchain, hlen with
  | [], hchain, _ => exact Or.inl hchain
  | [p], hchain, _ => exact Or.inr (hchain.1 ▸ hchain.2.2)

def threeNodes : Kernel :=
  { sentinelThreads with
    threadList := fun p =>
      if p = 0xffff800000212000 then ⟨firstThread, 0⟩
      else sentinelThreads.threadList p }

/-- On the three nodes `prioritySort` does not return, from the last one on it
does. -/
theorem sortReturns_iff_threeNodes :
    ¬ threeNodes.SortReturns 0xffff800000210000 ∧
      threeNodes.SortReturns 0xffff800000212000 := by
  have hlast : Chain 0 (fun p => (threeNodes.threadList p).next)
      0xffff800000212000 [0xffff800000212000] := by
    simp [Chain, threeNodes]
  have hchain : Chain 0 (fun p => (threeNodes.threadList p).next)
      0xffff800000210000
      [0xffff800000210000, 0xffff800000211000, 0xffff800000212000] := by
    simp [Chain, threeNodes, sentinelThreads]
  have hne : ∀ t ∈ threeNodes.threadInfos
      [0xffff800000210000, 0xffff800000211000, 0xffff800000212000], t ≠ 0 := by
    simp [Kernel.threadInfos, threeNodes, sentinelThreads, firstThread,
      secondThread]
  constructor
  · rw [sortReturns_iff hchain hne]
    decide
  · have hlast_ne : ∀ t ∈ threeNodes.threadInfos [0xffff800000212000], t ≠ 0 := by
      simp [Kernel.threadInfos, threeNodes, firstThread]
    rw [sortReturns_iff hlast hlast_ne]
    decide

/-- Two threads of a list without a sentinel. -/
theorem exists_not_sortReturns :
    ∃ (k : Kernel) (nodes : List Addr),
      Chain 0 (fun p => (k.threadList p).next) k.threadHead nodes ∧
      (∀ t ∈ k.threadInfos nodes, t ≠ 0) ∧ ¬ k.SortReturns k.threadHead := by
  have hchain : Chain 0 (fun p => (numberedThreads.threadList p).next)
      numberedThreads.threadHead [0xffff800000210000, 0xffff800000211000] := by
    simp [Chain, numberedThreads, twoThreads]
  have hne : ∀ t ∈ numberedThreads.threadInfos
      [0xffff800000210000, 0xffff800000211000], t ≠ 0 := by
    simp [Kernel.threadInfos, numberedThreads, twoThreads, firstThread,
      secondThread]
  exact ⟨numberedThreads, _, hchain, hne,
    Kernel.not_sortReturns hchain hne (by decide)⟩

end OptimistOS
