import OptimistOS.Foundation.Layout
import OptimistOS.Lib.Lock
import OptimistOS.Paging.Paging

/-!
# The heap

`malloc.hpp` and `malloc.cpp`. The pool is cut into pages, and every page starts
with a header `head`. A page that is too large for a request is split: its left
half is the page node itself with its size halved, its right half gets a header
at the distance `childSize`, which stays as it was set for the whole page. The
functions on `Bytes` do what the code does between its locks; they stop where
the code dereferences the null pointer.
-/

namespace OptimistOS

open ByteMemory ByteMemory.Code

/-- `PAGE_SIZE` of `malloc.hpp`. -/
def PAGE_SIZE : Word := 4096

def POOL_ARRAY_SIZE : ℕ := 3072

def MINIMUM_ALLOCATION_SIZE : Word := 32

def MAXIMUM_COALESCE_BLOCKS : Word := 4

def Flag.unused : Word := 0

def Flag.allocated : Word := 1

inductive Head
  | previous
  | right
  | left
  | next
  | status
  | childSize
  | size
  | level
  | isBuddyCoalesced
  deriving DecidableEq, Repr

/-- `head` as the System V ABI lays it out. -/
def head : Layout 64 Head where
  offset
    | .previous => 0
    | .right => 8
    | .left => 16
    | .next => 24
    | .status => 32
    | .childSize => 40
    | .size => 48
    | .level => 56
    | .isBuddyCoalesced => 58
  width
    | .status => 4
    | .level => 2
    | .isBuddyCoalesced => 1
    | _ => 8
  sizeof := 64
  fits f := by cases f <;> decide
  apart f g h := by cases f <;> cases g <;> simp at h ⊢
  sizeof_le := by decide

def sizeofHead : Word := BitVec.ofNat 64 head.sizeof

/-- The global variables of `malloc.cpp` together with those of the frame
allocator. -/
structure HeapGlobals (α : Type) where
  freeList : Addr
  mutex : BitVec 32
  frames : α

def callHeapFrames {α β : Type} (x : Code 64 α β) :
    Code 64 (HeapGlobals α) β :=
  zoom (fun g => g.frames) (fun g a => { g with frames := a }) x

/-- `lock(mutex)`. -/
def lockHeap {α : Type} : Code 64 (HeapGlobals α) Unit :=
  lock (fun g => g.mutex) fun v g => { g with mutex := v }

/-- `unlock(mutex)`. -/
def unlockHeap {α : Type} : Code 64 (HeapGlobals α) Unit :=
  unlock fun v g => { g with mutex := v }

def initNode (m : Bytes) (currentNode : Addr) (i : ℕ) : Bytes :=
  let m := head.set m currentNode .previous
    (if i ≠ 0 then currentNode - PAGE_SIZE else 0)
  let m := head.set m currentNode .next (currentNode + PAGE_SIZE)
  let m := head.set m currentNode .right 0
  let m := head.set m currentNode .left 0
  let m := head.set m currentNode .status Flag.unused
  let m := head.set m currentNode .size PAGE_SIZE
  head.set m currentNode .childSize (head.get m currentNode .size / 2)

def initNodesLoop : ℕ → ℕ → Bytes → Addr → Bytes
  | 0, _, m, _ => m
  | n + 1, i, m, currentNode =>
      let m := initNode m currentNode i
      initNodesLoop n (i + 1) m (head.get m currentNode .next)

/-- The number of bytes that `initNodes` asks for. -/
def poolBytes : Word := 12 * 1024 * 1024 + sizeofHead * 3072

def initNodes {α : Type} (A : FrameAllocator α) :
    Code 64 (HeapGlobals α) Unit := do
  let frame ← callHeapFrames (A.allocateFrame poolBytes)
  let memory ← callHeapFrames (A.toVirtualAddr frame)
  modifyGlobals fun g => { g with freeList := memory }
  modifyMem fun m => initNodesLoop (POOL_ARRAY_SIZE - 1) 0 m memory

def roundUpToNextPower2 (size : Word) : Word :=
  let size := size - 1
  let size := size ||| size >>> 1
  let size := size ||| size >>> 2
  let size := size ||| size >>> 4
  let size := size ||| size >>> 8
  let size := size ||| size >>> 16
  size + 1

def blockSize (size : Word) : Word :=
  let size := size + sizeofHead
  let size :=
    if size < MINIMUM_ALLOCATION_SIZE then MINIMUM_ALLOCATION_SIZE else size
  roundUpToNextPower2 size

def canCoalesce (m : Bytes) : ℕ → Addr → Except Stop Bool
  | 0, _ => .ok true
  | n + 1, tempNode =>
      if tempNode = 0 then
        .error .null
      else if head.get m tempNode .status = Flag.allocated then
        .ok false
      else
        canCoalesce m n (head.get m tempNode .next)

inductive MallocResult
  /-- With the node to hand out. -/
  | node (currentNode : Addr)
  /-- At the call of `coalesceBlocks`. -/
  | blocks (currentNode : Addr) (blocksToCoalesce : Word)
  /-- At `return nullptr`. -/
  | refused
  deriving DecidableEq, Repr

/-- The branch for requests of more than a page; `none` goes on in the loop. -/
def multiPage (m : Bytes) (size : Word) (currentNode : Addr) :
    Except Stop (Option MallocResult) :=
  if PAGE_SIZE < size ∧ head.get m currentNode .level = 0 ∧
      head.get m currentNode .status ≠ Flag.allocated ∧
      head.get m currentNode .next ≠ 0 then
    let blocksToCoalesce := size / PAGE_SIZE
    if MAXIMUM_COALESCE_BLOCKS < blocksToCoalesce then
      .ok (some .refused)
    else do
      if ← canCoalesce m (blocksToCoalesce - 1).toNat
          (head.get m currentNode .next) then
        return some (.blocks currentNode blocksToCoalesce)
      else
        return none
  else
    .ok none

/-- The node that an iteration looks at: an allocated node is left for its right
half or for the next page. -/
def skipAllocated (m : Bytes) (currentNode : Addr) : Addr :=
  if head.get m currentNode .left ≠ 0 ∧
      head.get m (head.get m currentNode .left) .status = Flag.allocated then
    if head.get m currentNode .right ≠ 0 then
      if head.get m (head.get m currentNode .right) .status = Flag.unused then
        head.get m currentNode .right
      else
        head.get m currentNode .next
    else
      currentNode
  else if head.get m currentNode .status = Flag.allocated then
    if head.get m currentNode .next ≠ 0 then
      head.get m currentNode .next
    else
      currentNode
  else
    currentNode

def splitNode (m : Bytes) (currentNode : Addr) : Bytes :=
  let m := head.set m currentNode .left currentNode
  let m := head.set m currentNode .right
    (currentNode + head.get m currentNode .childSize)
  let m := head.set m currentNode .status Flag.unused
  let m := head.set m currentNode .size (head.get m currentNode .size / 2)
  let m := head.set m (head.get m currentNode .right) .size
    (head.get m currentNode .size)
  head.set m (head.get m currentNode .right) .next
    (head.get m currentNode .next)

inductive MallocStep
  /-- The end of the loop. -/
  | done (result : MallocResult)
  /-- Another iteration from `currentNode` in the memory `m`. -/
  | next (m : Bytes) (currentNode : Addr)

/-- The rest of an iteration, at the node that `skipAllocated` has chosen. -/
def takeOrSplit (m : Bytes) (size : Word) (currentNode : Addr) :
    Except Stop MallocStep :=
  if currentNode = 0 then
    .error .null
  else if head.get m currentNode .size = size then
    .ok (.done (.node currentNode))
  else if head.get m currentNode .status = Flag.allocated ∨
      head.get m currentNode .size < size then
    .ok (.next m (if head.get m currentNode .next ≠ 0
      then head.get m currentNode .next else currentNode))
  else if currentNode + head.get m currentNode .childSize = 0 then
    .error .null
  else
    .ok (.next (splitNode m currentNode)
      (head.get (splitNode m currentNode) currentNode .left))

def mallocStep (m : Bytes) (size : Word) (currentNode : Addr) :
    Except Stop MallocStep :=
  if currentNode = 0 then
    .error .null
  else do
    match ← multiPage m size currentNode with
    | some result => return .done result
    | none => takeOrSplit m size (skipAllocated m currentNode)

def mallocLoop (size : Word) :
    ℕ → Bytes → Addr → Except Stop (MallocResult × Bytes)
  | 0, _, _ => .error .fuel
  | fuel + 1, m, currentNode => do
      match ← mallocStep m size currentNode with
      | .done result => return (result, m)
      | .next m currentNode => mallocLoop size fuel m currentNode

def nodeAfter (m : Bytes) : ℕ → Addr → Except Stop Addr
  | 0, node => .ok node
  | n + 1, node =>
      if node = 0 then .error .null
      else nodeAfter m n (head.get m node .next)

def coalesceBlocks {α : Type} (node : Addr) (n : Word) :
    Code 64 (HeapGlobals α) Addr := do
  lockHeap
  match nodeAfter (← get).mem (n - 1).toNat node with
  | .error e => throw e
  | .ok lastNode =>
      if lastNode = 0 then
        throw .null
      else
        modifyMem fun m => head.set m node .next (head.get m lastNode .next)
        modifyMem fun m => head.set m node .size (PAGE_SIZE * n)
        modifyMem fun m => head.set m node .status Flag.allocated
        unlockHeap
        return node + sizeofHead

/-- The start of `mallocx`: the pool is set up by the first request. -/
def ensurePool {α : Type} (A : FrameAllocator α) :
    Code 64 (HeapGlobals α) Unit := do
  if (← get).globals.freeList = 0 then
    initNodes A

/-- The end of `mallocx`, once its loop has ended. -/
def serveRequest {α : Type} :
    Except Stop (MallocResult × Bytes) → Code 64 (HeapGlobals α) Addr
  | .error e => throw e
  | .ok (.refused, m) => do
      modifyMem fun _ => m
      unlockHeap
      return 0
  | .ok (.blocks currentNode blocksToCoalesce, m) => do
      modifyMem fun _ => m
      unlockHeap
      coalesceBlocks currentNode blocksToCoalesce
  | .ok (.node currentNode, m) => do
      modifyMem fun _ => head.set m currentNode .status Flag.allocated
      unlockHeap
      return currentNode + sizeofHead

/-- `mallocx`; `fuel` bounds the iterations of its loop. -/
def mallocx {α : Type} (A : FrameAllocator α) (fuel : ℕ) (size : Word) :
    Code 64 (HeapGlobals α) Addr := do
  lockHeap
  ensurePool A
  let s ← get
  serveRequest (mallocLoop (blockSize size) fuel s.mem s.globals.freeList)

def freePage (m : Bytes) (tempNode : Addr) : Bytes :=
  let nextPointer := tempNode + PAGE_SIZE
  let m := head.set m nextPointer .previous tempNode
  let m := head.set m nextPointer .size PAGE_SIZE
  let m := head.set m nextPointer .level 0
  let m := head.set m nextPointer .status Flag.unused
  let m := head.set m nextPointer .childSize (head.get m nextPointer .size / 2)
  let m := head.set m nextPointer .next (nextPointer + PAGE_SIZE)
  let m := head.set m tempNode .next nextPointer
  head.set m tempNode .size PAGE_SIZE

def freePages : ℕ → Bytes → Addr → Bytes
  | 0, m, _ => m
  | n + 1, m, tempNode =>
      freePages n (freePage m tempNode) (tempNode + PAGE_SIZE)

def freeNode (m : Bytes) (node : Addr) : Bytes :=
  let m := head.set m node .status Flag.unused
  if head.get m node .isBuddyCoalesced ≠ 0 then
    let buddy := node ^^^ head.get m node .size
    let m := head.set m node .size (head.get m buddy .size)
    let m := head.set m buddy .status Flag.unused
    let m := head.set m node .status (head.get m buddy .status)
    let m := head.set m node .isBuddyCoalesced 0
    head.set m buddy .next (head.get m node .next)
  else if PAGE_SIZE < head.get m node .size then
    freePages (head.get m node .size / PAGE_SIZE - 1).toNat m node
  else
    m

def freex {α : Type} (block : Addr) : Code 64 (HeapGlobals α) Unit := do
  lockHeap
  modifyMem fun m => freeNode m (block - sizeofHead)
  unlockHeap

/-- `memorycpy` (`string.cpp`): the loop copies `num` bytes, the first one
first. -/
def memorycpy (m : Bytes) (destination source : Addr) : ℕ → Bytes
  | 0 => m
  | num + 1 =>
      let m := memorycpy m destination source num
      store m (destination + BitVec.ofNat 64 num) 1
        (m (source + BitVec.ofNat 64 num)).toNat

def moveBlock (m : Bytes) (newNode block : Addr) (roundedSize : Word) : Bytes :=
  let node := block - sizeofHead
  let m := memorycpy m newNode block (head.get m node .size - sizeofHead).toNat
  let newNodeData := newNode - sizeofHead
  let m := head.set m newNodeData .level (head.get m node .level)
  let m := head.set m newNodeData .status (head.get m node .status)
  head.set m newNodeData .size roundedSize

/-- The writes of `reallocx` that merge the buddy into the block. -/
def takeBuddy (m : Bytes) (node buddyNode : Addr) : Bytes :=
  let m := head.set m buddyNode .status Flag.allocated
  let m := head.set m node .isBuddyCoalesced 1
  head.set m node .size (head.get m node .size * 2)

/-- The end of `reallocx`. -/
def growBlock {α : Type} (node buddyNode : Addr) :
    Code 64 (HeapGlobals α) Addr := do
  modifyMem fun m => takeBuddy m node buddyNode
  unlockHeap
  return node - sizeofHead

def reallocx {α : Type} (A : FrameAllocator α) (fuel : ℕ) (block : Addr)
    (size : Word) : Code 64 (HeapGlobals α) Addr := do
  lockHeap
  let s ← get
  let roundedSize := roundUpToNextPower2 size
  let node := block - sizeofHead
  let buddyNode := node ^^^ head.get s.mem node .size
  if roundedSize = head.get s.mem node .size then
    unlockHeap
    return block
  else if head.get s.mem node .size * 2 ≤ roundedSize ∨
      head.get s.mem buddyNode .status = Flag.allocated then
    let newNode ← mallocx A fuel size
    if newNode = 0 then
      growBlock node buddyNode
    else
      modifyMem fun m => moveBlock m newNode block roundedSize
      freex block
      unlockHeap
      return newNode
  else
    growBlock node buddyNode

end OptimistOS
