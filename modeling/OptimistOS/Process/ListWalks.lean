import OptimistOS.Process.ProcessList
import OptimistOS.Process.ThreadNodes

/-!
# Searching and shortening the lists

The functions of `process.cpp` that walk along the two lists: `getThreadInfo`
looks for a thread, `removeThreadFromList` and `removeProcessFromList` take a
record out. A node is read through `requireNode`, so a walk that comes to the
null pointer stops there.

None of them does what it is for on every list. `getThreadInfo` looks at the
head again and again. `removeThreadFromList` overwrites the thread of a node
with the next one instead of taking the node out, and its number of steps is
the ID of the thread. `removeProcessFromList` compares the nodes behind the
head only, and makes one step too many for a list without the process.
-/

namespace OptimistOS

open ByteMemory ByteMemory.Code LinkedList

variable {α : Type}

theorem toNat_succ_of_lt {i n : Word} (h : i.toNat < n.toNat) :
    (i + 1).toNat = i.toNat + 1 :=
  BitVec.toNat_add_of_lt (y := 1) (by
    have hlt := n.isLt
    change i.toNat + 1 < _
    omega)

/-- A pointer that is dereferenced. -/
def requireNode (p : Addr) : Code 64 (ProcessGlobals α) Unit :=
  if p = 0 then throw .null else return ()

theorem run_requireNode_of_ne {p : Addr} (h : p ≠ 0)
    (s : Machine 64 (ProcessGlobals α)) : (requireNode p).run s = .ok () s := by
  rw [requireNode, if_neg h]
  rfl

theorem run_requireNode_eq_ok {p : Addr} {s s' : Machine 64 (ProcessGlobals α)} :
    (requireNode p).run s = .ok () s' ↔ p ≠ 0 ∧ s' = s := by
  rw [requireNode]
  split_ifs with h
  · exact iff_of_false (by simp) fun hne => hne.1 h
  · rw [EStateM.run_pure, EStateM.Result.ok.injEq]
    exact ⟨fun hs => ⟨h, hs.2.symm⟩, fun hs => ⟨rfl, hs.2.symm⟩⟩

theorem run_requireNode_zero (s : Machine 64 (ProcessGlobals α)) :
    (requireNode 0).run s = .error .null s := by
  rw [requireNode, if_pos rfl]
  rfl

/-- The loop of `getThreadInfo`. It never moves `tList`. -/
def getThreadInfoLoop (threadID : Word) (tList : Addr) :
    ℕ → Code 64 (ProcessGlobals α) Addr
  | 0 => throw .fuel
  | fuel + 1 => do
      if tList = 0 then
        return 0
      else
        let g := (← get).globals
        let threadInfo := (g.threadList tList).threadInfo
        requireNode threadInfo
        if (g.thread threadInfo).threadID = threadID then
          return threadInfo
        else
          getThreadInfoLoop threadID tList fuel

/-- `getThreadInfo`; `fuel` bounds the iterations. -/
def getThreadInfo (fuel : ℕ) (threadID : Word) :
    Code 64 (ProcessGlobals α) Addr := do
  getThreadInfoLoop threadID (← get).globals.threadHead fuel

def removeThreadLoop (threadToRemove : Addr) :
    ℕ → Word → Addr → Code 64 (ProcessGlobals α) Bool
  | 0, _, _ => throw .fuel
  | fuel + 1, i, tHead => do
      let g := (← get).globals
      if i ≤ (g.thread threadToRemove).threadID then
        requireNode tHead
        let next := (g.threadList tHead).next
        requireNode next
        if (g.threadList next).threadInfo = threadToRemove then
          let behind := (g.threadList next).next
          requireNode behind
          modifyGlobals fun g => g.modifyNode next fun node =>
            { node with threadInfo := (g.threadList behind).threadInfo }
          return true
        else
          removeThreadLoop threadToRemove fuel (i + 1) next
      else
        return false

/-- `removeThreadFromList`; `fuel` bounds the iterations. -/
def removeThreadFromList (fuel : ℕ) (threadToRemove : Addr) :
    Code 64 (ProcessGlobals α) Bool := do
  requireNode threadToRemove
  removeThreadLoop threadToRemove fuel 0 (← get).globals.threadHead

def removeProcessLoop (process : Addr) :
    ℕ → Word → Addr → Code 64 (ProcessGlobals α) Bool
  | 0, _, _ => throw .fuel
  | fuel + 1, i, pHead => do
      let g := (← get).globals
      if i ≤ g.processCount then
        requireNode pHead
        let next := (g.processInternal pHead).next
        if next = process then
          requireNode next
          modifyGlobals fun g => g.modifyInternal pHead fun record =>
            { record with next := (g.processInternal next).next }
          return true
        else
          removeProcessLoop process fuel (i + 1) next
      else
        return false

/-- `removeProcessFromList`; `fuel` bounds the iterations. -/
def removeProcessFromList (fuel : ℕ) (process : Addr) :
    Code 64 (ProcessGlobals α) Bool := do
  removeProcessLoop process fuel 0 (← get).globals.processHead

/-- The first of the threads `ts` with the ID `threadID`, or the null
pointer. -/
def firstWithID (g : ProcessGlobals α) (ts : List Addr) (threadID : Word) :
    Addr :=
  (ts.find? fun t => t ≠ 0 ∧ (g.thread t).threadID = threadID).getD 0

/-- `getThreadInfo` returns the first thread with the ID. -/
def FindsThread (s : Machine 64 (ProcessGlobals α)) (ts : List Addr)
    (threadID : Word) : Prop :=
  ∃ fuel, (getThreadInfo fuel threadID).run s =
    .ok (firstWithID s.globals ts threadID) s

/-- `removeThreadFromList` takes the thread `t` out of the list of the threads
`ts`, or leaves everything as it was if `t` is not on it. -/
def RemovesThread (s : Machine 64 (ProcessGlobals α)) (ts : List Addr)
    (t : Addr) : Prop :=
  ∃ fuel s', (removeThreadFromList fuel t).run s = .ok (decide (t ∈ ts)) s' ∧
    CarriesThreads s'.globals (ts.erase t) ∧ (t ∉ ts → s' = s)

/-- The records `ps` are the list of processes. -/
def ListsProcesses (g : ProcessGlobals α) (ps : List Addr) : Prop :=
  Chain 0 (fun p => (g.processInternal p).next) g.processHead ps

/-- `removeProcessFromList` takes the process `p` out of the list of the
processes `ps`, or leaves everything as it was if `p` is not on it. -/
def RemovesProcess (s : Machine 64 (ProcessGlobals α)) (ps : List Addr)
    (p : Addr) : Prop :=
  ∃ fuel s', (removeProcessFromList fuel p).run s =
      .ok (decide (p ∈ ps)) s' ∧
    ListsProcesses s'.globals (ps.erase p) ∧ (p ∉ ps → s' = s)

/-- Two threads with the thread IDs 1 and 2, and two processes. Every other
thread record has the ID 0. -/
def listedRecords : Machine 64 (ProcessGlobals Word) :=
  { bumpKernel with
    globals := { bumpKernel.globals with
      threadHead := 0x1000
      threadList := fun p =>
        if p = 0x1000 then ⟨0x3000, 0x2000⟩ else ⟨0x4000, 0⟩
      thread := fun t =>
        { Thread.zero with
          threadID := if t = 0x3000 then 1 else if t = 0x4000 then 2 else 0 }
      processCount := 2
      processHead := 0x5000
      processInternal := fun p =>
        { ProcessInternal.zero with next := if p = 0x5000 then 0x6000 else 0 } } }

theorem carriesThreads_listedRecords :
    CarriesThreads listedRecords.globals [0x3000, 0x4000] :=
  ⟨[0x1000, 0x2000], by
    simp [Chain, listedRecords], by
    simp [listedRecords]⟩

theorem listsProcesses_listedRecords :
    ListsProcesses listedRecords.globals [0x5000, 0x6000] := by
  simp [ListsProcesses, Chain, listedRecords]

section GetThreadInfo

variable {s : Machine 64 (ProcessGlobals α)} {ts : List Addr} {threadID : Word}

theorem run_getThreadInfoLoop_other {p : Addr} (hp : p ≠ 0)
    (hother : (s.globals.threadList p).threadInfo ≠ 0 →
      (s.globals.thread (s.globals.threadList p).threadInfo).threadID ≠ threadID)
    (fuel : ℕ) : ∃ e, (getThreadInfoLoop threadID p fuel).run s = .error e s := by
  induction fuel with
  | zero => exact ⟨.fuel, rfl⟩
  | succ fuel ih =>
      rw [getThreadInfoLoop, if_neg hp, EStateM.run_bind, EStateM.run_get]
      dsimp only
      by_cases hinfo : (s.globals.threadList p).threadInfo = 0
      · rw [hinfo, run_bind_of_error (run_requireNode_zero s)]
        exact ⟨.null, rfl⟩
      · rw [run_bind_of_ok (run_requireNode_of_ne hinfo s),
          if_neg (hother hinfo)]
        exact ih

theorem run_getThreadInfoLoop_self {p : Addr} (hp : p ≠ 0)
    (hinfo : (s.globals.threadList p).threadInfo ≠ 0)
    (hID : (s.globals.thread (s.globals.threadList p).threadInfo).threadID =
      threadID) (fuel : ℕ) :
    (getThreadInfoLoop threadID p (fuel + 1)).run s =
      .ok (s.globals.threadList p).threadInfo s := by
  rw [getThreadInfoLoop, if_neg hp, EStateM.run_bind, EStateM.run_get]
  dsimp only
  rw [run_bind_of_ok (run_requireNode_of_ne hinfo s), if_pos hID]
  rfl

/-- `getThreadInfo` finds the thread exactly if the list is empty or the thread
is the first one of the list. -/
theorem findsThread_iff (h : CarriesThreads s.globals ts) (threadID : Word) :
    FindsThread s ts threadID ↔ ts = [] ∨
      ∃ t, ts.head? = some t ∧ t ≠ 0 ∧
        (s.globals.thread t).threadID = threadID := by
  obtain ⟨nodes, hchain, hmap⟩ := h
  have hrun : ∀ fuel, (getThreadInfo fuel threadID).run s =
      (getThreadInfoLoop threadID s.globals.threadHead fuel).run s :=
    fun fuel => rfl
  simp only [FindsThread, hrun]
  cases nodes with
  | nil =>
      obtain rfl : [] = ts := hmap
      have hhead : s.globals.threadHead = 0 := hchain
      refine iff_of_true ⟨1, ?_⟩ (Or.inl rfl)
      rw [getThreadInfoLoop, if_pos hhead]
      rfl
  | cons p nodes =>
      obtain ⟨hhead, hp, -⟩ := hchain
      obtain rfl := hmap
      rw [hhead]
      by_cases hfirst : (s.globals.threadList p).threadInfo ≠ 0 ∧
          (s.globals.thread (s.globals.threadList p).threadInfo).threadID =
            threadID
      · refine iff_of_true ⟨1, ?_⟩ (Or.inr ⟨_, rfl, hfirst⟩)
        rw [run_getThreadInfoLoop_self hp hfirst.1 hfirst.2, firstWithID,
          List.map_cons, List.find?_cons_of_pos (by simpa using hfirst)]
        rfl
      · refine iff_of_false ?_ ?_
        · rintro ⟨fuel, hok⟩
          obtain ⟨e, herror⟩ := run_getThreadInfoLoop_other hp
            (fun hinfo hID => hfirst ⟨hinfo, hID⟩) fuel
          rw [herror] at hok
          exact absurd hok (by simp)
        · rintro (hnil | ⟨t, ht, hID⟩)
          · exact absurd hnil (by simp)
          · obtain rfl : _ = t := Option.some.inj ht
            exact hfirst hID

/-- The first of two threads is found. -/
theorem findsThread_iff_listedRecords :
    FindsThread listedRecords [0x3000, 0x4000] 1 :=
  (findsThread_iff carriesThreads_listedRecords 1).2
    (Or.inr ⟨0x3000, rfl, by decide, rfl⟩)

/-- The second one is looked for without end. -/
theorem exists_not_findsThread :
    ∃ (s : Machine 64 (ProcessGlobals Word)) (ts : List Addr) (threadID : Word),
      CarriesThreads s.globals ts ∧ (∃ t ∈ ts, t ≠ 0 ∧
        (s.globals.thread t).threadID = threadID) ∧
      ¬ FindsThread s ts threadID := by
  refine ⟨listedRecords, [0x3000, 0x4000], 2, carriesThreads_listedRecords,
    ⟨0x4000, by simp, by decide, rfl⟩, ?_⟩
  rintro ⟨fuel, hok⟩
  have hother : (listedRecords.globals.thread
      (listedRecords.globals.threadList 0x1000).threadInfo).threadID ≠ 2 := by
    simp [listedRecords]
  obtain ⟨e, herror⟩ := run_getThreadInfoLoop_other (p := 0x1000) (by decide)
    (fun _ => hother) fuel
  change (getThreadInfoLoop 2 0x1000 fuel).run listedRecords = _ at hok
  rw [herror] at hok
  exact absurd hok (by simp)

end GetThreadInfo

section RemoveThread

variable {s : Machine 64 (ProcessGlobals α)} {ts nodes : List Addr}
  {t p q : Addr} {fuel : ℕ} {i : Word}

def threadInfos (g : ProcessGlobals α) (nodes : List Addr) : List Addr :=
  nodes.map fun p => (g.threadList p).threadInfo

theorem run_removeThreadLoop_step (hp : p ≠ 0)
    (hnext : (s.globals.threadList p).next = q) (hq : q ≠ 0)
    (hother : (s.globals.threadList q).threadInfo ≠ t)
    (hi : i ≤ (s.globals.thread t).threadID) :
    (removeThreadLoop t (fuel + 1) i p).run s =
      (removeThreadLoop t fuel (i + 1) q).run s := by
  rw [removeThreadLoop, EStateM.run_bind, EStateM.run_get]
  dsimp only
  rw [if_pos hi, run_bind_of_ok (run_requireNode_of_ne hp s), hnext,
    run_bind_of_ok (run_requireNode_of_ne hq s), if_neg hother]

/-- The walk comes to the end of the list before its counter does. -/
theorem run_removeThreadLoop_null
    (hchain : Chain 0 (fun p => (s.globals.threadList p).next) p nodes)
    (habsent : t ∉ threadInfos s.globals nodes.tail)
    (hi : i ≤ (s.globals.thread t).threadID)
    (hlen : i.toNat + nodes.length ≤ (s.globals.thread t).threadID.toNat + 1)
    (fuel : ℕ) : ∃ e, (removeThreadLoop t fuel i p).run s = .error e s := by
  induction nodes generalizing fuel i p with
  | nil =>
      cases fuel with
      | zero => exact ⟨.fuel, rfl⟩
      | succ fuel =>
          obtain rfl : p = 0 := hchain
          rw [removeThreadLoop, EStateM.run_bind, EStateM.run_get]
          dsimp only
          rw [if_pos hi, run_bind_of_error (run_requireNode_zero s)]
          exact ⟨.null, rfl⟩
  | cons r nodes ih =>
      obtain ⟨rfl, hp, hrest⟩ := hchain
      cases fuel with
      | zero => exact ⟨.fuel, rfl⟩
      | succ fuel =>
          cases nodes with
          | nil =>
              have hnext : (s.globals.threadList p).next = 0 := hrest
              rw [removeThreadLoop, EStateM.run_bind, EStateM.run_get]
              dsimp only
              rw [if_pos hi, run_bind_of_ok (run_requireNode_of_ne hp s), hnext,
                run_bind_of_error (run_requireNode_zero s)]
              exact ⟨.null, rfl⟩
          | cons q qs =>
              have hnext : (s.globals.threadList p).next = q := hrest.1
              have hother : (s.globals.threadList q).threadInfo ≠ t := by
                rintro rfl
                exact habsent (by simp [threadInfos])
              rw [run_removeThreadLoop_step hp hnext hrest.2.1 hother hi]
              simp only [List.length_cons] at hlen
              have hi' := toNat_succ_of_lt (i := i)
                (n := (s.globals.thread t).threadID) (by omega)
              refine ih (hnext ▸ hrest) (fun hmem => habsent ?_) ?_ ?_ fuel
              · exact List.mem_cons_of_mem _ hmem
              · rw [BitVec.le_def]
                omega
              · rw [List.length_cons]
                omega

/-- The counter of the walk gets to its end within the list. -/
theorem run_removeThreadLoop_false
    (hchain : Chain 0 (fun p => (s.globals.threadList p).next) p nodes)
    (habsent : t ∉ threadInfos s.globals nodes.tail)
    (hi : i.toNat ≤ (s.globals.thread t).threadID.toNat + 1)
    (hlen : (s.globals.thread t).threadID.toNat + 2 ≤ i.toNat + nodes.length)
    (hbound : i.toNat + nodes.length < 2 ^ 64) (hfuel : nodes.length < fuel) :
    (removeThreadLoop t fuel i p).run s = .ok false s := by
  induction nodes generalizing fuel i p with
  | nil =>
      rw [List.length_nil] at hlen
      omega
  | cons r nodes ih =>
      obtain ⟨rfl, hp, hrest⟩ := hchain
      obtain ⟨fuel, rfl⟩ := Nat.exists_eq_add_of_lt (Nat.zero_lt_of_lt hfuel)
      simp only [List.length_cons, Nat.zero_add] at hlen hbound hfuel ⊢
      by_cases hle : i ≤ (s.globals.thread t).threadID
      · have hile := BitVec.le_def.1 hle
        cases nodes with
        | nil =>
            rw [List.length_nil] at hlen
            omega
        | cons q qs =>
            have hnext : (s.globals.threadList p).next = q := hrest.1
            have hother : (s.globals.threadList q).threadInfo ≠ t := by
              rintro rfl
              exact habsent (by simp [threadInfos])
            simp only [List.length_cons] at hlen hbound hfuel
            have hi' : (i + 1).toNat = i.toNat + 1 :=
              BitVec.toNat_add_of_lt (y := 1) (by
                change i.toNat + 1 < _
                omega)
            rw [run_removeThreadLoop_step hp hnext hrest.2.1 hother hle]
            refine ih (hnext ▸ hrest) (fun hmem => habsent ?_) ?_ ?_ ?_ ?_
            · exact List.mem_cons_of_mem _ hmem
            · omega
            · rw [List.length_cons]
              omega
            · rw [List.length_cons]
              omega
            · rw [List.length_cons]
              omega
      · rw [removeThreadLoop, EStateM.run_bind, EStateM.run_get]
        dsimp only
        rw [if_neg hle]
        rfl

/-- The links of the list stay as they are. -/
theorem links_of_removeThreadLoop {b : Bool}
    {s' : Machine 64 (ProcessGlobals α)}
    (h : (removeThreadLoop t fuel i p).run s = .ok b s') :
    s'.globals.threadHead = s.globals.threadHead ∧
      ∀ q, (s'.globals.threadList q).next = (s.globals.threadList q).next := by
  induction fuel generalizing i p with
  | zero => exact absurd h (by simp [removeThreadLoop])
  | succ fuel ih =>
      rw [removeThreadLoop, EStateM.run_bind, EStateM.run_get] at h
      dsimp only at h
      split_ifs at h with hi hinfo
      · obtain ⟨_, u, hu, h⟩ := run_bind_eq_ok.1 h
        obtain ⟨-, rfl⟩ := run_requireNode_eq_ok.1 hu
        obtain ⟨_, v, hv, h⟩ := run_bind_eq_ok.1 h
        obtain ⟨-, rfl⟩ := run_requireNode_eq_ok.1 hv
        obtain ⟨_, w, hw, h⟩ := run_bind_eq_ok.1 h
        obtain ⟨-, rfl⟩ := run_requireNode_eq_ok.1 hw
        rw [EStateM.run_bind, run_modifyGlobals] at h
        dsimp only at h
        rw [EStateM.run_pure, EStateM.Result.ok.injEq] at h
        rw [← h.2]
        refine ⟨rfl, fun q => ?_⟩
        by_cases hq : q = (w.globals.threadList p).next
        · subst hq
          simp [ProcessGlobals.modifyNode]
        · simp [ProcessGlobals.modifyNode, Function.update_of_ne hq]
      · obtain ⟨_, u, hu, h⟩ := run_bind_eq_ok.1 h
        obtain ⟨-, rfl⟩ := run_requireNode_eq_ok.1 hu
        obtain ⟨_, v, hv, h⟩ := run_bind_eq_ok.1 h
        obtain ⟨-, rfl⟩ := run_requireNode_eq_ok.1 hv
        exact ih h
      · rw [EStateM.run_pure, EStateM.Result.ok.injEq] at h
        rw [← h.2]
        exact ⟨rfl, fun q => rfl⟩

theorem length_eq_of_removeThread {ts' : List Addr} {b : Bool}
    {s' : Machine 64 (ProcessGlobals α)} (hts : CarriesThreads s.globals ts)
    (h : (removeThreadFromList fuel t).run s = .ok b s')
    (hts' : CarriesThreads s'.globals ts') : ts'.length = ts.length := by
  obtain ⟨_, u, hu, hloop⟩ := run_bind_eq_ok.1 h
  obtain ⟨-, rfl⟩ := run_requireNode_eq_ok.1 hu
  rw [EStateM.run_bind, EStateM.run_get] at hloop
  obtain ⟨hhead, hlinks⟩ := links_of_removeThreadLoop hloop
  obtain ⟨nodes, hchain, rfl⟩ := hts
  obtain ⟨nodes', hchain', rfl⟩ := hts'
  rw [hhead] at hchain'
  have hsame := hchain'.unique (hchain.congr fun q _ => hlinks q)
  rw [List.length_map, List.length_map, hsame]

theorem not_removesThread_of_mem (h : CarriesThreads s.globals ts)
    (hmem : t ∈ ts) : ¬ RemovesThread s ts t := by
  rintro ⟨fuel, s', hok, hlist, -⟩
  have hlen := length_eq_of_removeThread h hok hlist
  rw [List.length_erase_of_mem hmem] at hlen
  have hpos := List.length_pos_of_mem hmem
  omega

/-- `removeThreadFromList` does what it should exactly if the thread is not on
the list and its ID ends the walk before the end of the list. -/
theorem removesThread_iff (h : CarriesThreads s.globals ts) (ht : t ≠ 0) :
    RemovesThread s ts t ↔
      t ∉ ts ∧ (s.globals.thread t).threadID.toNat + 2 ≤ ts.length := by
  have hrun : ∀ fuel, (removeThreadFromList fuel t).run s =
      (removeThreadLoop t fuel 0 s.globals.threadHead).run s := by
    intro fuel
    rw [removeThreadFromList, run_bind_of_ok (run_requireNode_of_ne ht s)]
    rfl
  obtain ⟨nodes, hchain, hmap⟩ := id h
  have hlength : nodes.length = ts.length := by rw [← hmap, List.length_map]
  have htail : t ∉ ts → t ∉ threadInfos s.globals nodes.tail := by
    intro habsent hmem
    refine habsent (hmap ▸ ?_)
    obtain ⟨q, hq, rfl⟩ := List.mem_map.1 hmem
    exact List.mem_map.2 ⟨q, List.mem_of_mem_tail hq, rfl⟩
  by_cases hmem : t ∈ ts
  · exact iff_of_false (not_removesThread_of_mem h hmem)
      fun hnot => hnot.1 hmem
  · constructor
    · rintro ⟨fuel, s', hok, -, -⟩
      refine ⟨hmem, ?_⟩
      by_contra hshort
      obtain ⟨e, herror⟩ := run_removeThreadLoop_null (i := 0) hchain
        (htail hmem) (by simp [BitVec.le_def]) (by
          change 0 + nodes.length ≤ _
          omega) fuel
      rw [hrun, herror] at hok
      exact absurd hok (by simp)
    · rintro ⟨-, hlong⟩
      have hfalse := run_removeThreadLoop_false (i := 0) hchain (htail hmem)
        (by simp) (by
          change _ ≤ 0 + nodes.length
          omega) (by simpa using hchain.length_lt) (Nat.lt_succ_self _)
      refine ⟨nodes.length + 1, s, ?_, ?_, fun _ => rfl⟩
      · rw [hrun, hfalse, decide_eq_false hmem]
      · rw [List.erase_of_not_mem hmem]
        exact h

/-- A thread with the ID 0 is found to be missing on a list of two threads. -/
theorem removesThread_iff_listedRecords :
    RemovesThread listedRecords [0x3000, 0x4000] 0x7000 :=
  (removesThread_iff carriesThreads_listedRecords (by decide)).2
    ⟨by decide, by decide⟩

/-- The last thread is not taken out of the list. -/
theorem exists_not_removesThread :
    ∃ (s : Machine 64 (ProcessGlobals Word)) (ts : List Addr) (t : Addr),
      CarriesThreads s.globals ts ∧ ts.Nodup ∧ t ≠ 0 ∧ t ∈ ts ∧
      ¬ RemovesThread s ts t :=
  ⟨listedRecords, [0x3000, 0x4000], 0x4000, carriesThreads_listedRecords,
    by decide, by decide, by decide,
    not_removesThread_of_mem carriesThreads_listedRecords (by decide)⟩

end RemoveThread

section RemoveProcess

variable {s : Machine 64 (ProcessGlobals α)} {ps : List Addr} {p q r : Addr}
  {fuel : ℕ} {i : Word}

theorem run_removeProcessLoop_step (hr : r ≠ 0)
    (hi : i ≤ s.globals.processCount)
    (hother : (s.globals.processInternal r).next ≠ p) :
    (removeProcessLoop p (fuel + 1) i r).run s =
      (removeProcessLoop p fuel (i + 1)
        (s.globals.processInternal r).next).run s := by
  rw [removeProcessLoop, EStateM.run_bind, EStateM.run_get]
  dsimp only
  rw [if_pos hi, run_bind_of_ok (run_requireNode_of_ne hr s), if_neg hother]

/-- Without the process behind the first node the walk leaves the list. -/
theorem run_removeProcessLoop_null
    (hchain : Chain 0 (fun p => (s.globals.processInternal p).next) r ps)
    (habsent : p ∉ ps.tail) (hp : p ≠ 0)
    (hlen : i.toNat + ps.length ≤ s.globals.processCount.toNat) (fuel : ℕ) :
    ∃ e, (removeProcessLoop p fuel i r).run s = .error e s := by
  induction ps generalizing fuel i r with
  | nil =>
      cases fuel with
      | zero => exact ⟨.fuel, rfl⟩
      | succ fuel =>
          obtain rfl : r = 0 := hchain
          rw [removeProcessLoop, EStateM.run_bind, EStateM.run_get]
          dsimp only
          rw [if_pos (BitVec.le_def.2 hlen),
            run_bind_of_error (run_requireNode_zero s)]
          exact ⟨.null, rfl⟩
  | cons q ps ih =>
      obtain ⟨rfl, hr, hrest⟩ := hchain
      rw [List.length_cons] at hlen
      cases fuel with
      | zero => exact ⟨.fuel, rfl⟩
      | succ fuel =>
          have hother : (s.globals.processInternal r).next ≠ p := by
            rintro rfl
            cases ps with
            | nil => exact hp hrest
            | cons q qs => exact habsent (hrest.1 ▸ List.mem_cons_self)
          rw [run_removeProcessLoop_step hr (BitVec.le_def.2 (by omega)) hother]
          refine ih hrest (fun hmem => habsent (List.mem_of_mem_tail hmem)) ?_
            fuel
          rw [toNat_succ_of_lt (n := s.globals.processCount) (by omega)]
          omega

/-- The node before the process is linked to the one behind it. -/
theorem run_removeProcessLoop_found {as bs : List Addr}
    (hchain : Chain 0 (fun p => (s.globals.processInternal p).next) r
      (as ++ q :: p :: bs))
    (hlen : i.toNat + as.length ≤ s.globals.processCount.toNat) :
    (removeProcessLoop p (as.length + 1) i r).run s =
      .ok true ⟨s.mem, s.globals.modifyInternal q fun record =>
        { record with next := (s.globals.processInternal p).next }⟩ := by
  induction as generalizing i r with
  | nil =>
      obtain ⟨rfl, hr, hnext, hp, -⟩ := hchain
      rw [List.length_nil, removeProcessLoop, EStateM.run_bind, EStateM.run_get]
      dsimp only at hnext ⊢
      rw [if_pos (BitVec.le_def.2 hlen),
        run_bind_of_ok (run_requireNode_of_ne hr s), if_pos hnext, hnext,
        run_bind_of_ok (run_requireNode_of_ne hp s)]
      rfl
  | cons a as ih =>
      have hnodup := hchain.nodup
      obtain ⟨rfl, hr, hrest⟩ := hchain
      rw [List.length_cons] at hlen
      have hother : (s.globals.processInternal r).next ≠ p := by
        rintro rfl
        cases as with
        | nil =>
            have hq : (s.globals.processInternal r).next = q := hrest.1
            simp [hq] at hnodup
        | cons b bs =>
            have hb : (s.globals.processInternal r).next = b := hrest.1
            simp [hb] at hnodup
      rw [List.length_cons,
        run_removeProcessLoop_step hr (BitVec.le_def.2 (by omega)) hother]
      refine ih hrest ?_
      rw [toNat_succ_of_lt (n := s.globals.processCount) (by omega)]
      omega

theorem not_removesProcess_of_not_mem (h : ListsProcesses s.globals ps)
    (hcount : s.globals.processCount.toNat = ps.length) (hp : p ≠ 0)
    (habsent : p ∉ ps.tail) : ¬ RemovesProcess s ps p := by
  rintro ⟨fuel, s', hok, -, -⟩
  obtain ⟨e, herror⟩ := run_removeProcessLoop_null (i := 0) h habsent hp (by
      change 0 + ps.length ≤ _
      omega) fuel
  change (removeProcessLoop p fuel 0 s.globals.processHead).run s = _ at hok
  rw [herror] at hok
  exact absurd hok (by simp)

/-- `removeProcessFromList` does what it should exactly if the process is on the
list behind its head. -/
theorem removesProcess_iff (h : ListsProcesses s.globals ps)
    (hcount : s.globals.processCount.toNat = ps.length) (hp : p ≠ 0) :
    RemovesProcess s ps p ↔ p ∈ ps.tail := by
  constructor
  · exact fun hremoves => by_contra fun habsent =>
      not_removesProcess_of_not_mem h hcount hp habsent hremoves
  · intro hmem
    have hnodup := Chain.nodup h
    obtain ⟨as, q, bs, rfl⟩ : ∃ as q bs, ps = as ++ q :: p :: bs := by
      cases ps with
      | nil => exact absurd hmem (by simp)
      | cons a ps =>
          obtain ⟨as, bs, rfl⟩ := List.append_of_mem hmem
          rcases List.eq_nil_or_concat as with rfl | ⟨as, q, rfl⟩
          · exact ⟨[], a, bs, rfl⟩
          · exact ⟨a :: as, q, bs, by simp⟩
    have herase : (as ++ q :: p :: bs).erase p = as ++ q :: bs := by
      have hsplit : as ++ q :: p :: bs = (as ++ [q]) ++ p :: bs := by simp
      rw [hsplit] at hnodup ⊢
      rw [List.erase_append_right _ fun hleft =>
        List.disjoint_of_nodup_append hnodup hleft List.mem_cons_self,
        List.erase_cons_head]
      simp
    have hin : p ∈ as ++ q :: p :: bs := by simp
    have hfound := run_removeProcessLoop_found (i := 0) h (by
      rw [hcount, List.length_append]
      change 0 + as.length ≤ _
      omega)
    rw [← decide_eq_true hin] at hfound
    refine ⟨as.length + 1, _, hfound, ?_, fun hnot => absurd hin hnot⟩
    rw [herase]
    refine Chain.unlink h ?_ fun t ht => ?_
    · simp [ProcessGlobals.modifyInternal]
    · simp [ProcessGlobals.modifyInternal, Function.update_of_ne ht]

/-- The second of two processes is taken out. -/
theorem removesProcess_iff_listedRecords :
    RemovesProcess listedRecords [0x5000, 0x6000] 0x6000 :=
  (removesProcess_iff listsProcesses_listedRecords rfl (by decide)).2
    (by decide)

/-- The first one is not. -/
theorem exists_not_removesProcess :
    ∃ (s : Machine 64 (ProcessGlobals Word)) (ps : List Addr) (p : Addr),
      ListsProcesses s.globals ps ∧
      s.globals.processCount.toNat = ps.length ∧ p ≠ 0 ∧ p ∈ ps ∧
      ¬ RemovesProcess s ps p :=
  ⟨listedRecords, [0x5000, 0x6000], 0x5000, listsProcesses_listedRecords, rfl,
    by decide, by decide,
    not_removesProcess_of_not_mem listsProcesses_listedRecords rfl (by decide)
      (by decide)⟩

end RemoveProcess

end OptimistOS
