import OptimistOS.Foundation.Traced
import OptimistOS.Heap.Requests

/-!
# The lock of the heap

The functions of the heap once more, each with the trace of its lock operations
and header writes. Without the trace they are the functions of the heap
(`erases_mallocx` and its companions). `ObeysLock` is the discipline of the
lock. `coalesceBlocks` and `freex` obey it; `mallocx` gives the lock back before
its last header write and then once more, and `reallocx` calls `mallocx` with
the lock in its hands (`obeysLock_iff`).
-/

namespace OptimistOS

open ByteMemory ByteMemory.Code

inductive HeapEvent
  /-- The call tries to get `mutex`. -/
  | acquire
  /-- The call gives `mutex` back. -/
  | release
  /-- The call writes to headers. -/
  | write
  deriving DecidableEq, Repr

def lockStep : Bool → HeapEvent → Option Bool
  | false, .acquire => some true
  | true, .release => some false
  | true, .write => some true
  | _, _ => none

abbrev TracedHeap (α β : Type) := Code 64 (Traced (HeapGlobals α) HeapEvent) β

section

variable {α : Type}

def lockTraced : TracedHeap α Unit := do
  emit .acquire
  silent lockHeap

def unlockTraced : TracedHeap α Unit := do
  emit .release
  silent unlockHeap

def writeHeaders (f : Bytes → Bytes) : TracedHeap α Unit := do
  emit .write
  modifyMem f

def initNodesTraced (A : FrameAllocator α) : TracedHeap α Unit := do
  let frame ← silent (callHeapFrames (A.allocateFrame poolBytes))
  let memory ← silent (callHeapFrames (A.toVirtualAddr frame))
  silent (modifyGlobals fun g => { g with freeList := memory })
  writeHeaders fun m => initNodesLoop (POOL_ARRAY_SIZE - 1) 0 m memory

def ensurePoolTraced (A : FrameAllocator α) : TracedHeap α Unit := do
  if (← get).globals.globals.freeList = 0 then
    initNodesTraced A

def traceStep (m : Bytes) (size : Word) (currentNode : Addr) :
    TracedHeap α Unit :=
  if Splits m size currentNode then emit .write else pure ()

def mallocLoopTraced (size : Word) : ℕ → Addr → TracedHeap α MallocResult
  | 0, _ => throw .fuel
  | fuel + 1, currentNode => do
      let s ← get
      traceStep s.mem size currentNode
      match mallocStep s.mem size currentNode with
      | .error e => throw e
      | .ok (.done result) => return result
      | .ok (.next m currentNode) => do
          modifyMem fun _ => m
          mallocLoopTraced size fuel currentNode

def coalesceBlocksTraced (node : Addr) (n : Word) : TracedHeap α Addr := do
  lockTraced
  match nodeAfter (← get).mem (n - 1).toNat node with
  | .error e => throw e
  | .ok lastNode =>
      if lastNode = 0 then
        throw .null
      else
        writeHeaders fun m => head.set m node .next (head.get m lastNode .next)
        writeHeaders fun m => head.set m node .size (PAGE_SIZE * n)
        writeHeaders fun m => head.set m node .status Flag.allocated
        unlockTraced
        return node + sizeofHead

/-- The end of `mallocx` with its trace: the lock is given back where the loop is
left, and the status is written after that. -/
def serveRequestTraced : MallocResult → TracedHeap α Addr
  | .refused => do
      unlockTraced
      return 0
  | .blocks currentNode blocksToCoalesce => do
      unlockTraced
      coalesceBlocksTraced currentNode blocksToCoalesce
  | .node currentNode => do
      unlockTraced
      writeHeaders fun m => head.set m currentNode .status Flag.allocated
      unlockTraced
      return currentNode + sizeofHead

def mallocxTraced (A : FrameAllocator α) (fuel : ℕ) (size : Word) :
    TracedHeap α Addr := do
  lockTraced
  ensurePoolTraced A
  let s ← get
  let result ← mallocLoopTraced (blockSize size) fuel s.globals.globals.freeList
  serveRequestTraced result

def freexTraced (block : Addr) : TracedHeap α Unit := do
  lockTraced
  writeHeaders fun m => freeNode m (block - sizeofHead)
  unlockTraced

def growBlockTraced (node buddyNode : Addr) : TracedHeap α Addr := do
  writeHeaders fun m => takeBuddy m node buddyNode
  unlockTraced
  return node - sizeofHead

def reallocxTraced (A : FrameAllocator α) (fuel : ℕ) (block : Addr)
    (size : Word) : TracedHeap α Addr := do
  lockTraced
  let s ← get
  let roundedSize := roundUpToNextPower2 size
  let node := block - sizeofHead
  let buddyNode := node ^^^ head.get s.mem node .size
  if roundedSize = head.get s.mem node .size then
    unlockTraced
    return block
  else if head.get s.mem node .size * 2 ≤ roundedSize ∨
      head.get s.mem buddyNode .status = Flag.allocated then
    let newNode ← mallocxTraced A fuel size
    if newNode = 0 then
      growBlockTraced node buddyNode
    else
      writeHeaders fun m => moveBlock m newNode block roundedSize
      freexTraced block
      unlockTraced
      return newNode
  else
    growBlockTraced node buddyNode

variable {A : FrameAllocator α}

theorem erases_lock : Erases (lockTraced (α := α)) lockHeap :=
  .emit_bind _ (.silent _)

theorem erases_unlock : Erases (unlockTraced (α := α)) unlockHeap :=
  .emit_bind _ (.silent _)

theorem erases_writeHeaders (f : Bytes → Bytes) :
    Erases (writeHeaders (α := α) f) (modifyMem f) :=
  .emit_bind _ (.modifyMem f)

theorem erases_ensurePool : Erases (ensurePoolTraced A) (ensurePool A) := by
  refine .get_bind fun m g l => .ite ?_ (.pure ())
  exact .bind (.silent _) fun _ => .bind (.silent _) fun _ =>
    .bind (.silent _) fun _ => erases_writeHeaders _

theorem erases_coalesceBlocks (node : Addr) (n : Word) :
    Erases (coalesceBlocksTraced (α := α) node n) (coalesceBlocks node n) := by
  refine .bind erases_lock fun _ => .get_bind fun m g l => ?_
  change Erases (match nodeAfter m (n - 1).toNat node with | _ => _)
    (match nodeAfter m (n - 1).toNat node with | _ => _)
  cases nodeAfter m (n - 1).toNat node with
  | error e => exact .throw e
  | ok lastNode =>
      refine .ite (.throw _) ?_
      exact .bind (erases_writeHeaders _) fun _ =>
        .bind (erases_writeHeaders _) fun _ =>
        .bind (erases_writeHeaders _) fun _ => .bind erases_unlock fun _ =>
        .pure _

theorem erases_freex (block : Addr) :
    Erases (freexTraced (α := α) block) (freex block) :=
  .bind erases_lock fun _ => .bind (erases_writeHeaders _) fun _ =>
    erases_unlock

/-- The traced loop ends as the loop does, in the memory that the loop
answers. -/
theorem run_mallocLoopTraced (size : Word) (fuel : ℕ) (p : Addr) (m : Bytes)
    (g : HeapGlobals α) (l : List HeapEvent) :
    match (mallocLoopTraced size fuel p).run ⟨m, ⟨g, l⟩⟩ with
    | .ok r t => mallocLoop size fuel m p = .ok (r, t.mem) ∧
        t.globals.globals = g
    | .error e _ => mallocLoop size fuel m p = .error e := by
  induction fuel generalizing m l p with
  | zero => rfl
  | succ fuel ih =>
      obtain ⟨l', htrace⟩ : ∃ l', (traceStep (α := α) m size p).run
          ⟨m, ⟨g, l⟩⟩ = .ok () ⟨m, ⟨g, l'⟩⟩ := by
        rw [traceStep]
        split_ifs
        · exact ⟨_, rfl⟩
        · exact ⟨l, rfl⟩
      have hrun : (mallocLoopTraced size (fuel + 1) p).run ⟨m, ⟨g, l⟩⟩ =
          (match mallocStep m size p with
            | .error e => (throw e : TracedHeap α MallocResult)
            | .ok (.done result) => pure result
            | .ok (.next m' q) => do
                modifyMem fun _ => m'
                mallocLoopTraced size fuel q).run ⟨m, ⟨g, l'⟩⟩ := by
        rw [mallocLoopTraced, EStateM.run_bind, EStateM.run_get]
        exact run_bind_of_ok htrace
      rw [hrun, mallocLoop]
      cases mallocStep m size p with
      | error e => rfl
      | ok step =>
          cases step with
          | done result => exact ⟨rfl, rfl⟩
          | next m' q => exact ih q m' l'

theorem erases_serveRequest (r : MallocResult) (m : Bytes) (g : HeapGlobals α)
    (l : List HeapEvent) :
    match (serveRequestTraced r).run ⟨m, ⟨g, l⟩⟩ with
    | .ok a t => ∀ m', (serveRequest (.ok (r, m))).run ⟨m', g⟩ =
        .ok a ⟨t.mem, t.globals.globals⟩
    | .error e _ => ∀ m', ∃ t, (serveRequest (.ok (r, m))).run ⟨m', g⟩ =
        .error e t := by
  cases r with
  | node p => exact fun _ => rfl
  | refused => exact fun _ => rfl
  | blocks p n =>
      have h := Erases.bind erases_unlock (fun _ =>
        erases_coalesceBlocks (α := α) p n) m g l
      rw [serveRequestTraced]
      split at h
      · next a t hrun =>
          rw [hrun]
          exact fun _ => h
      · next e t hrun =>
          rw [hrun]
          exact fun _ => h

theorem erases_mallocx (fuel : ℕ) (size : Word) :
    Erases (mallocxTraced A fuel size) (mallocx A fuel size) := by
  refine .bind erases_lock fun _ => .bind erases_ensurePool fun _ => ?_
  intro m g l
  have hloop := run_mallocLoopTraced (blockSize size) fuel g.freeList m g l
  rw [EStateM.run_bind, EStateM.run_get, EStateM.run_bind, EStateM.run_get]
  cases hrun : (mallocLoopTraced (blockSize size) fuel g.freeList).run
      ⟨m, ⟨g, l⟩⟩ with
  | error e t =>
      rw [hrun] at hloop
      simp only [run_bind_of_error hrun, hloop]
      exact ⟨_, rfl⟩
  | ok r t =>
      obtain ⟨m', g', l'⟩ := t
      rw [hrun] at hloop
      obtain ⟨hloop, rfl⟩ := hloop
      simp only [run_bind_of_ok hrun, hloop]
      have hserve := erases_serveRequest r m' g' l'
      split at hserve
      · next a t hserved =>
          rw [hserved]
          exact hserve m
      · next e t hserved =>
          rw [hserved]
          exact hserve m

theorem erases_growBlock (node buddyNode : Addr) :
    Erases (growBlockTraced (α := α) node buddyNode)
      (growBlock node buddyNode) :=
  .bind (erases_writeHeaders _) fun _ => .bind erases_unlock fun _ => .pure _

theorem erases_reallocx (fuel : ℕ) (block : Addr) (size : Word) :
    Erases (reallocxTraced A fuel block size) (reallocx A fuel block size) := by
  refine .bind erases_lock fun _ => .get_bind fun m g l => ?_
  refine .ite (.bind erases_unlock fun _ => .pure _) (.ite ?_ ?_)
  · refine .bind (erases_mallocx fuel size) fun newNode =>
      .ite (erases_growBlock _ _) ?_
    exact .bind (erases_writeHeaders _) fun _ => .bind (erases_freex block)
      fun _ => .bind erases_unlock fun _ => .pure _
  · exact erases_growBlock _ _

/-- No event breaks the discipline, and the lock is free when the call returns.
A call that stops or spins has kept the discipline up to there. -/
def ObeysLock {β : Type} (x : TracedHeap α β)
    (s : Machine 64 (HeapGlobals α)) : Prop :=
  Reaches lockStep false false x ⟨s.mem, ⟨s.globals, []⟩⟩

theorem follows_lock :
    Follows lockStep false false true (lockTraced (α := α)) :=
  .bind (.emit rfl) fun _ => .silent _

theorem follows_unlock :
    Follows lockStep false true false (unlockTraced (α := α)) :=
  .bind (.emit rfl) fun _ => .silent _

theorem follows_writeHeaders (f : Bytes → Bytes) :
    Follows lockStep false true true (writeHeaders (α := α) f) :=
  .bind (.emit rfl) fun _ => .modifyMem f

theorem follows_ensurePool :
    Follows lockStep false true true (ensurePoolTraced A) := by
  refine .bind .get fun s => .ite ?_ (.pure ())
  exact .bind (.silent _) fun _ => .bind (.silent _) fun _ =>
    .bind (.silent _) fun _ => follows_writeHeaders _

theorem follows_coalesceBlocks (node : Addr) (n : Word) :
    Follows lockStep false false false
      (coalesceBlocksTraced (α := α) node n) := by
  refine .bind follows_lock fun _ => .bind .get fun s => ?_
  cases nodeAfter s.mem (n - 1).toNat node with
  | error e => exact .throw e
  | ok lastNode =>
      refine .ite (.throw _) ?_
      exact .bind (follows_writeHeaders _) fun _ =>
        .bind (follows_writeHeaders _) fun _ =>
        .bind (follows_writeHeaders _) fun _ => .bind follows_unlock fun _ =>
        .pure _

theorem follows_freex (block : Addr) :
    Follows lockStep false false false (freexTraced (α := α) block) :=
  .bind follows_lock fun _ => .bind (follows_writeHeaders _) fun _ =>
    follows_unlock

theorem follows_mallocLoop (size : Word) (fuel : ℕ) (p : Addr) :
    Follows lockStep false true true
      (mallocLoopTraced (α := α) size fuel p) := by
  induction fuel generalizing p with
  | zero => exact .throw _
  | succ fuel ih =>
      refine .bind .get fun s => .bind (.ite (.emit rfl) (.pure ())) fun _ => ?_
      cases mallocStep s.mem size p with
      | error e => exact .throw e
      | ok step =>
          cases step with
          | done result => exact .pure result
          | next m q => exact .bind (.modifyMem _) fun _ => ih q

theorem follows_serveRequest {r : MallocResult} (h : ∀ p, r ≠ .node p) :
    Follows lockStep false true false (serveRequestTraced (α := α) r) := by
  cases r with
  | node p => exact absurd rfl (h p)
  | refused => exact .bind follows_unlock fun _ => .pure 0
  | blocks p n =>
      exact .bind follows_unlock fun _ => follows_coalesceBlocks p n

theorem follows_growBlock (node buddyNode : Addr) :
    Follows lockStep false true false
      (growBlockTraced (α := α) node buddyNode) :=
  .bind (follows_writeHeaders _) fun _ => .bind follows_unlock fun _ => .pure _

/-- The search of `mallocx` from the machine `s` ends with `r`. -/
def SearchEnds (A : FrameAllocator α) (fuel : ℕ) (size : Word)
    (s : Machine 64 (HeapGlobals α)) (r : MallocResult) : Prop :=
  ∃ s₁ m, (ensurePool A).run ⟨s.mem, { s.globals with mutex := 1 }⟩ =
      .ok () s₁ ∧
    mallocLoop (blockSize size) fuel s₁.mem s₁.globals.freeList = .ok (r, m)

def mallocSearchTraced (A : FrameAllocator α) (fuel : ℕ) (size : Word) :
    TracedHeap α MallocResult := do
  lockTraced
  ensurePoolTraced A
  let s ← get
  mallocLoopTraced (blockSize size) fuel s.globals.globals.freeList

theorem mallocxTraced_eq (fuel : ℕ) (size : Word) :
    mallocxTraced A fuel size =
      mallocSearchTraced A fuel size >>= serveRequestTraced := by
  simp only [mallocxTraced, mallocSearchTraced, bind_assoc]

theorem follows_mallocSearch (fuel : ℕ) (size : Word) :
    Follows lockStep false false true (mallocSearchTraced A fuel size) :=
  .bind follows_lock fun _ => .bind follows_ensurePool fun _ =>
    .bind .get fun _ => follows_mallocLoop _ _ _

theorem run_lockTraced {m : Bytes} {g : HeapGlobals α} (h : g.mutex = 0)
    (l : List HeapEvent) :
    (lockTraced (α := α)).run ⟨m, ⟨g, l⟩⟩ =
      .ok () ⟨m, ⟨{ g with mutex := 1 }, l ++ [.acquire]⟩⟩ := by
  have hlock : (lockHeap (α := α)).run ⟨m, g⟩ =
      .ok () ⟨m, { g with mutex := 1 }⟩ := run_lock_of_free h
  exact run_silent_of_ok (s := ⟨m, ⟨g, l ++ [.acquire]⟩⟩) hlock

theorem run_lockTraced_of_held {m : Bytes} {g : HeapGlobals α}
    (h : g.mutex ≠ 0) (l : List HeapEvent) :
    (lockTraced (α := α)).run ⟨m, ⟨g, l⟩⟩ =
      .error .fuel ⟨m, ⟨g, l ++ [.acquire]⟩⟩ := by
  have hlock : (lockHeap (α := α)).run ⟨m, g⟩ = .error .fuel ⟨m, g⟩ := by
    rw [lockHeap, lock, EStateM.run_bind, EStateM.run_get]
    simp only [if_neg h, run_throw]
  exact run_silent_of_error (s := ⟨m, ⟨g, l ++ [.acquire]⟩⟩) hlock

theorem SearchEnds.unique {fuel : ℕ} {size : Word}
    {s : Machine 64 (HeapGlobals α)} {r r' : MallocResult}
    (h : SearchEnds A fuel size s r) (h' : SearchEnds A fuel size s r') :
    r = r' := by
  obtain ⟨s₁, m, hpool, hloop⟩ := h
  obtain ⟨s₁', m', hpool', hloop'⟩ := h'
  obtain ⟨-, rfl⟩ := EStateM.Result.ok.inj (hpool.symm.trans hpool')
  exact congrArg Prod.fst (Except.ok.inj (hloop.symm.trans hloop'))

/-- The traced search returns what the search ends with. -/
theorem run_mallocSearchTraced {s : Machine 64 (HeapGlobals α)}
    (hmutex : s.globals.mutex = 0) (fuel : ℕ) (size : Word) :
    match (mallocSearchTraced A fuel size).run ⟨s.mem, ⟨s.globals, []⟩⟩ with
    | .ok r _ => SearchEnds A fuel size s r
    | .error _ _ => ∀ r, ¬ SearchEnds A fuel size s r := by
  rw [mallocSearchTraced, run_bind_of_ok (run_lockTraced hmutex [])]
  have hpool := erases_ensurePool (A := A) s.mem { s.globals with mutex := 1 }
    ([] ++ [.acquire])
  cases hrun : (ensurePoolTraced A).run
      ⟨s.mem, ⟨{ s.globals with mutex := 1 }, [] ++ [.acquire]⟩⟩ with
  | error e t =>
      rw [hrun] at hpool
      obtain ⟨t', ht'⟩ := hpool
      rw [run_bind_of_error hrun]
      rintro r ⟨s₁, m, hs₁, -⟩
      exact absurd (ht'.symm.trans hs₁) (by simp)
  | ok a t =>
      obtain ⟨m, g, l⟩ := t
      rw [hrun] at hpool
      rw [run_bind_of_ok hrun, EStateM.run_bind, EStateM.run_get]
      have hloop := run_mallocLoopTraced (blockSize size) fuel g.freeList m g l
      change match (mallocLoopTraced (blockSize size) fuel g.freeList).run
        ⟨m, ⟨g, l⟩⟩ with
        | .ok r _ => SearchEnds A fuel size s r
        | .error _ _ => ∀ r, ¬ SearchEnds A fuel size s r
      split at hloop
      · exact ⟨_, _, hpool, hloop.1⟩
      · rintro r ⟨s₁, m', hs₁, hloop'⟩
        obtain ⟨-, rfl⟩ := EStateM.Result.ok.inj (hpool.symm.trans hs₁)
        exact absurd (hloop.symm.trans hloop') (by simp)

theorem not_obeys_of_node {p : Addr} {t : Machine 64 (Traced (HeapGlobals α)
    HeapEvent)} (ht : t.globals.trace.foldlM lockStep false = some true) :
    ∃ u, (serveRequestTraced (.node p)).run t = .ok (p + sizeofHead) u ∧
      u.globals.trace.foldlM lockStep false = none := by
  refine ⟨_, rfl, ?_⟩
  change (((t.globals.trace ++ [HeapEvent.release]) ++ [HeapEvent.write]) ++
    [HeapEvent.release]).foldlM lockStep false = none
  rw [List.append_assoc, List.append_assoc, List.foldlM_append, ht]
  rfl

theorem obeysLock_mallocx_iff {s : Machine 64 (HeapGlobals α)}
    (hmutex : s.globals.mutex = 0) (fuel : ℕ) (size : Word) :
    ObeysLock (mallocxTraced A fuel size) s ↔
      ¬ ∃ p, SearchEnds A fuel size s (.node p) := by
  have hends := run_mallocSearchTraced (A := A) hmutex fuel size
  have hfollows := follows_mallocSearch (A := A) fuel size
    ⟨s.mem, ⟨s.globals, []⟩⟩ rfl
  rw [ObeysLock, mallocxTraced_eq]
  cases hrun : (mallocSearchTraced A fuel size).run
      ⟨s.mem, ⟨s.globals, []⟩⟩ with
  | error e t =>
      rw [hrun] at hends
      rw [reaches_bind_of_error hrun]
      exact iff_of_true ((reaches_of_error hrun).1 hfollows)
        fun ⟨p, hp⟩ => hends _ hp
  | ok r t =>
      rw [hrun] at hends
      rw [reaches_bind_of_ok hrun]
      replace hfollows := (reaches_of_ok hrun).1 hfollows
      by_cases hr : ∃ p, r = .node p
      · obtain ⟨p, rfl⟩ := hr
        obtain ⟨u, hu, hnone⟩ := not_obeys_of_node (p := p) hfollows
        refine iff_of_false (fun h => ?_) (not_not.2 ⟨p, hends⟩)
        exact absurd (hnone.symm.trans ((reaches_of_ok hu).1 h)) (by simp)
      · exact iff_of_true
          (follows_serveRequest (fun p hp => hr ⟨p, hp⟩) t hfollows)
          fun ⟨p, hp⟩ => hr ⟨p, hends.unique hp⟩

/-- `reallocx` looks for another block: the size is not the one the block has,
and the buddy does not give enough room or is taken. -/
def MovesBlock (m : Bytes) (block : Addr) (size : Word) : Prop :=
  roundUpToNextPower2 size ≠ head.get m (block - sizeofHead) .size ∧
    (head.get m (block - sizeofHead) .size * 2 ≤ roundUpToNextPower2 size ∨
      head.get m ((block - sizeofHead) ^^^
        head.get m (block - sizeofHead) .size) .status = Flag.allocated)

theorem obeysLock_reallocx_iff {s : Machine 64 (HeapGlobals α)}
    (hmutex : s.globals.mutex = 0) (fuel : ℕ) (block : Addr) (size : Word) :
    ObeysLock (reallocxTraced A fuel block size) s ↔
      ¬ MovesBlock s.mem block size := by
  rw [ObeysLock, reallocxTraced, reaches_bind_of_ok (run_lockTraced hmutex []),
    reaches_bind_of_ok (EStateM.run_get _)]
  dsimp only
  by_cases hsame : roundUpToNextPower2 size =
      head.get s.mem (block - sizeofHead) .size
  · rw [if_pos hsame]
    exact iff_of_true (Follows.bind follows_unlock (fun _ => .pure block) _ rfl)
      fun h => h.1 hsame
  · rw [if_neg hsame]
    by_cases hmove : head.get s.mem (block - sizeofHead) .size * 2 ≤
          roundUpToNextPower2 size ∨
        head.get s.mem ((block - sizeofHead) ^^^
          head.get s.mem (block - sizeofHead) .size) .status = Flag.allocated
    · -- `mallocx` waits for the lock that this call holds
      have hwait := run_lockTraced_of_held (m := s.mem)
        (g := { s.globals with mutex := 1 }) (show (1 : BitVec 32) ≠ 0 by decide)
        [HeapEvent.acquire]
      have hmalloc : (mallocxTraced A fuel size).run _ = .error .fuel _ :=
        run_bind_of_error hwait
      rw [if_pos hmove]
      refine iff_of_false (fun h => ?_) (not_not.2 ⟨hsame, hmove⟩)
      exact absurd rfl ((reaches_bind_of_error hmalloc).1 h)
    · rw [if_neg hmove]
      exact iff_of_true (follows_growBlock _ _ _ rfl) fun h => hmove h.2

/-- Which calls obey the lock discipline: always those of `coalesceBlocks` and
`freex`, those of `mallocx` whose search does not end at a node, and those of
`reallocx` that do not move the block. -/
theorem obeysLock_iff (A : FrameAllocator α) {s : Machine 64 (HeapGlobals α)}
    (hmutex : s.globals.mutex = 0) :
    (∀ node n, ObeysLock (coalesceBlocksTraced node n) s) ∧
      (∀ block, ObeysLock (freexTraced block) s) ∧
      (∀ fuel size, ObeysLock (mallocxTraced A fuel size) s ↔
        ¬ ∃ p, SearchEnds A fuel size s (.node p)) ∧
      ∀ fuel block size, ObeysLock (reallocxTraced A fuel block size) s ↔
        ¬ MovesBlock s.mem block size :=
  ⟨fun node n => follows_coalesceBlocks node n _ rfl,
    fun block => follows_freex block _ rfl, obeysLock_mallocx_iff hmutex,
    obeysLock_reallocx_iff hmutex⟩

end

def noFrames : FrameAllocator Unit := ⟨fun _ => throw .halt, fun _ => throw .halt⟩

/-- A pool whose first node is an unused page. -/
def onePage : Machine 64 (HeapGlobals Unit) :=
  ⟨head.set (fun _ => 0) 0xffff800000200000 .size PAGE_SIZE,
    ⟨0xffff800000200000, 0, ()⟩⟩

/-- The calls on a pool of one page. -/
theorem obeysLock_iff_onePage :
    (∀ node n, ObeysLock (coalesceBlocksTraced node n) onePage) ∧
      (∀ block, ObeysLock (freexTraced block) onePage) ∧
      (∀ fuel size, ObeysLock (mallocxTraced noFrames fuel size) onePage ↔
        ¬ ∃ p, SearchEnds noFrames fuel size onePage (.node p)) ∧
      ∀ fuel block size,
        ObeysLock (reallocxTraced noFrames fuel block size) onePage ↔
          ¬ MovesBlock onePage.mem block size :=
  obeysLock_iff noFrames rfl

/-- A request that a page answers writes the status of the page after the lock
was given back. -/
theorem exists_not_obeysLock :
    ∃ (A : FrameAllocator Unit) (s : Machine 64 (HeapGlobals Unit)),
      s.globals.mutex = 0 ∧ ¬ ObeysLock (mallocxTraced A 1 4032) s := by
  have hget : ∀ f, f ≠ .size → head.get onePage.mem 0xffff800000200000 f = 0 :=
    fun f hf => (head.get_set_of_ne _ _ _ hf).trans
      (head.get_of_forall_zero (fun _ _ => rfl) f)
  have hskip : skipAllocated onePage.mem 0xffff800000200000 =
      0xffff800000200000 :=
    IsUnused.skipAllocated ⟨by decide, hget .status (by decide),
      Or.inl (hget .left (by decide))⟩
  have hloop := mallocLoop_of_size (m := onePage.mem) (blockSize 4032) 0
    (p := 0xffff800000200000) (by decide) (by decide)
    (by rw [hskip]; decide) (by
      rw [hskip]
      exact (head_get_set_self _ _ _ _ rfl).trans (by decide))
  refine ⟨noFrames, onePage, rfl, fun h => ?_⟩
  exact (obeysLock_mallocx_iff rfl 1 4032).1 h
    ⟨_, _, _, run_ensurePool_of_ne (by decide), hloop⟩

end OptimistOS
