import OptimistOS.Paging.FreeList
import OptimistOS.Paging.HashTable

/-!
# The page frame allocator

`pageFrameAllocator.cpp` and `freeList.cpp`. The code is generic in the table
that remembers the size of each frame: `addressSizeTable` is the kernel's own
hash table, `exactSizeTable` the map it is meant to be. Every frame address in
the table is a kernel pointer; `allocateFrame` returns the physical address.
-/

namespace OptimistOS

open ByteMemory ByteMemory.Code

structure SizeTable (τ : Type) where
  insert : τ → Addr → Word → τ
  /-- `none` is the answer `-1`. -/
  search : τ → Addr → Option Word
  deleteKey : τ → Addr → τ

def addressSizeTable : SizeTable HashTable where
  insert ht key size := OptimistOS.insert ht key (size.truncate 32)
  search ht key :=
    if OptimistOS.search ht key = -1 then none
    else some ((OptimistOS.search ht key).signExtend 64)
  deleteKey := OptimistOS.deleteKey

/-- A correct map from frames to their sizes. -/
def exactSizeTable : SizeTable (Addr → Option Word) where
  insert t key size := Function.update t key (some size)
  search t key := t key
  deleteKey t key := Function.update t key none

/-- The global variables of the allocator, and `globalBootInfo` of `boot.cpp`. -/
structure FrameGlobals (τ : Type) where
  globalBootInfo : BootInfo
  head : Addr
  freeBlock : Addr
  totalMemory : Word
  usedMemory : Word
  bootInformation : BootInfo
  addressSizeHT : τ

abbrev FrameMachine (τ : Type) := Machine 64 (FrameGlobals τ)

def roundUpToPageBoundary (size : Word) : Word :=
  if size % 4096 = 0 then size else (size + 4096 - 1) &&& ~~~(4096 - 1)

def loadBootInfo {τ : Type} : Code 64 (FrameGlobals τ) Unit :=
  modifyGlobals fun g =>
    if g.bootInformation.memory.hhdmOffset = 0 then
      { g with bootInformation := g.globalBootInfo }
    else g

def toPhysicalAddr {τ : Type} (addr : Addr) : Code 64 (FrameGlobals τ) Word := do
  loadBootInfo
  let s ← get
  return addr - s.globals.bootInformation.memory.hhdmOffset

def toVirtualAddr {τ : Type} (addr : Word) : Code 64 (FrameGlobals τ) Addr := do
  if addr = -1 then
    return 0
  else
    loadBootInfo
    let s ← get
    return addr + s.globals.bootInformation.memory.hhdmOffset

def initFreeList {τ : Type} : Code 64 (FrameGlobals τ) Addr := do
  let bootInformation := (← get).globals.globalBootInfo
  let freeBlock ← toVirtualAddr bootInformation.memory.freeMemStart
  modifyMem fun m =>
    let m := fBlock.set m freeBlock .size bootInformation.memory.freeMemSize
    let m := fBlock.set m freeBlock .next 0
    let m := fBlock.set m freeBlock .inUse 0
    fBlock.set m freeBlock .prevSize 0
  return freeBlock

def ensureFreeList {τ : Type} : Code 64 (FrameGlobals τ) Unit := do
  if (← get).globals.head = 0 then
    let block ← initFreeList
    modifyGlobals fun g => { g with head := block, freeBlock := block }

/-- The best-fit loop from `freeBlock` on; `none` when `fuel` runs out. -/
def bestFit (m : Bytes) (roundedRequestSize : Word) :
    ℕ → Addr → Addr → Option Addr
  | 0, freeBlock, selectedBlock =>
      if fBlock.get m freeBlock .next = 0 then some selectedBlock else none
  | fuel + 1, freeBlock, selectedBlock =>
      if fBlock.get m freeBlock .next = 0 then some selectedBlock
      else
        bestFit m roundedRequestSize fuel (fBlock.get m freeBlock .next)
          (if roundedRequestSize ≤ fBlock.get m freeBlock .size ∧
              (selectedBlock = 0 ∨
                fBlock.get m freeBlock .size < fBlock.get m selectedBlock .size)
            then freeBlock else selectedBlock)

/-- The search for a block: a lone block is taken when it fits, a longer list is
walked up to its last block. -/
def fitSearch (m : Bytes) (roundedRequestSize : Word) (fuel : ℕ)
    (freeBlock : Addr) : Option Addr :=
  if fBlock.get m freeBlock .next = 0 ∧
      roundedRequestSize ≤ fBlock.get m freeBlock .size then
    some freeBlock
  else bestFit m roundedRequestSize fuel freeBlock 0

/-- The loop that looks for a block to merge with its predecessor. Both branches
of the size comparison select the block at hand. -/
def pairSearch (m : Bytes) (roundedRequestSize : Word) :
    ℕ → Addr → Addr → Option Addr
  | 0, freeBlock, selectedBlock =>
      if fBlock.get m freeBlock .next = 0 then some selectedBlock else none
  | fuel + 1, freeBlock, selectedBlock =>
      if fBlock.get m freeBlock .next = 0 then some selectedBlock
      else
        pairSearch m roundedRequestSize fuel (fBlock.get m freeBlock .next)
          (if fBlock.get m freeBlock .prevSize ≠ 0 ∧
              roundedRequestSize ≤ fBlock.get m freeBlock .prevSize +
                fBlock.get m freeBlock .size
            then freeBlock else selectedBlock)

/-- The coalescing branch: the selected block is merged into the block its
`previous` points at. -/
def coalesce {τ : Type} (fuel : ℕ) (roundedRequestSize : Word) :
    Code 64 (FrameGlobals τ) Addr := do
  let s ← get
  match pairSearch s.mem roundedRequestSize fuel s.globals.freeBlock 0 with
  | none => throw .fuel
  | some selectedBlock =>
      if selectedBlock = 0 then
        throw .halt
      else
        let prevBlock := fBlock.get s.mem selectedBlock .previous
        modifyMem fun m => fBlock.set m prevBlock .size
          (fBlock.get m prevBlock .size + fBlock.get m selectedBlock .size)
        modifyMem fun m =>
          fBlock.set m prevBlock .next (fBlock.get m selectedBlock .next)
        return prevBlock

/-- The header writes of an allocation: the rest of `selectedBlock` becomes a
block of its own. -/
def splitBlock (m : Bytes) (selectedBlock : Addr) (roundedRequestSize : Word) :
    Bytes :=
  let m := fBlock.set m selectedBlock .inUse 1
  let newBlock := selectedBlock + roundedRequestSize
  let m := fBlock.set m newBlock .size
    (fBlock.get m selectedBlock .size - roundedRequestSize)
  let m := fBlock.set m newBlock .inUse 0
  let m := fBlock.set m newBlock .next (fBlock.get m selectedBlock .next)
  fBlock.set m newBlock .prevSize 0

def takeBlock {τ : Type} (T : SizeTable τ) (selectedBlock : Addr)
    (roundedRequestSize : Word) : Code 64 (FrameGlobals τ) Word := do
  modifyMem fun m => splitBlock m selectedBlock roundedRequestSize
  modifyGlobals fun g =>
    { g with
      head := selectedBlock + roundedRequestSize
      freeBlock := selectedBlock + roundedRequestSize }
  modifyGlobals fun g =>
    { g with bootInformation.memory.freeMemSize :=
        g.bootInformation.memory.freeMemSize - roundedRequestSize }
  modifyGlobals fun g => { g with globalBootInfo := g.bootInformation }
  modifyGlobals fun g =>
    { g with usedMemory := g.usedMemory + roundedRequestSize }
  modifyMem fun m => memoryset m selectedBlock 0 roundedRequestSize.toNat
  modifyGlobals fun g =>
    { g with addressSizeHT :=
        T.insert g.addressSizeHT selectedBlock roundedRequestSize }
  toPhysicalAddr selectedBlock

/-- `allocateFrame`; `fuel` bounds each walk over the free list. -/
def allocateFrame {τ : Type} (T : SizeTable τ) (fuel : ℕ) (requestSize : Word) :
    Code 64 (FrameGlobals τ) Word := do
  ensureFreeList
  modifyGlobals fun g => { g with bootInformation := g.globalBootInfo }
  modifyGlobals fun g =>
    { g with totalMemory := g.bootInformation.memory.freeMemSize }
  let roundedRequestSize := roundUpToPageBoundary requestSize
  let s ← get
  if s.globals.totalMemory < roundedRequestSize then
    throw .halt
  else
    match fitSearch s.mem roundedRequestSize fuel s.globals.freeBlock with
    | none => throw .fuel
    | some selectedBlock =>
        modifyGlobals fun g => { g with freeBlock := g.head }
        if selectedBlock = 0 then
          let prevBlock ← coalesce fuel roundedRequestSize
          takeBlock T prevBlock roundedRequestSize
        else
          takeBlock T selectedBlock roundedRequestSize

def freeFrame {τ : Type} (T : SizeTable τ) (frame : Word) :
    Code 64 (FrameGlobals τ) Unit := do
  let allocatedFrame ← toVirtualAddr frame
  match T.search (← get).globals.addressSizeHT allocatedFrame with
  | none => throw .halt
  | some allocatedFrameSize =>
      modifyMem fun m =>
        fBlock.set m allocatedFrame .size allocatedFrameSize
      modifyMem fun m => fBlock.set m allocatedFrame .inUse 0
      let head := (← get).globals.head
      if allocatedFrame = head then
        modifyGlobals fun g =>
          { g with head := allocatedFrame, freeBlock := allocatedFrame }
      else
        modifyMem fun m => fBlock.set m allocatedFrame .next head
        modifyMem fun m => fBlock.set m head .previous allocatedFrame
        modifyGlobals fun g => { g with head := allocatedFrame }
      modifyGlobals fun g =>
        { g with addressSizeHT := T.deleteKey g.addressSizeHT allocatedFrame }
      modifyGlobals fun g =>
        { g with usedMemory := g.usedMemory - allocatedFrameSize }
      if (← get).globals.bootInformation.memory.freeMemSize ≠ 0 then
        modifyGlobals fun g =>
          { g with bootInformation.memory.freeMemSize :=
              g.bootInformation.memory.freeMemSize + allocatedFrameSize }
        modifyGlobals fun g => { g with globalBootInfo := g.bootInformation }

end OptimistOS
