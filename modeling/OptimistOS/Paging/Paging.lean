import OptimistOS.Paging.PageDirectoryEntry

/-!
# Page tables

`paging.cpp`: the walk down the page tables that allocates what is missing, and
`map`. The code is generic in the frame allocator it calls. Tables are named by
their physical addresses and read and written through the direct map.
-/

namespace OptimistOS

open ByteMemory ByteMemory.Code PageDirectoryEntry

structure FrameAllocator (α : Type) where
  allocateFrame : Word → Code 64 α Word
  toVirtualAddr : Word → Code 64 α Addr

/-- The global variables of `paging.cpp` together with those of the frame
allocator. -/
structure PagingGlobals (α : Type) where
  PML4 : Word
  kernelPML4 : Word
  hhdmOffset : Word
  frames : α

def callFrames {α β : Type} (x : Code 64 α β) : Code 64 (PagingGlobals α) β :=
  zoom (fun g => g.frames) (fun g a => { g with frames := a }) x

def entryPointer (table : Addr) (i : Word) : Addr := table + 8 * i

def getNextLevelPointer {α : Type} (A : FrameAllocator α) (entry : Addr)
    (allocate : Bool) : Code 64 (PagingGlobals α) Word := do
  let value := word (← get).mem entry
  let nextLevelPointer ←
    if isValid value then
      pure (getAddress value)
    else if allocate then do
      let nextLevelPointer ← callFrames (A.allocateFrame 0x1000)
      modifyMem fun m => modifyWord m entry fun value =>
        setAddress value nextLevelPointer
      modifyMem fun m => modifyWord m entry fun value =>
        setFlag value PageTableFlag.readWrite true
      modifyMem fun m => modifyWord m entry fun value =>
        setFlag value PageTableFlag.userOrSuperuser true
      modifyMem fun m => modifyWord m entry fun value =>
        setFlag value PageTableFlag.present true
      pure nextLevelPointer
    else
      throw .halt
  if nextLevelPointer ≠ 0 then
    return nextLevelPointer
  else
    throw .halt

/-- The index of `virtualAddr` in the tables that translate from bit `shift`
on. -/
def tableIndex (virtualAddr : Word) (shift : ℕ) : Word :=
  (virtualAddr &&& ((0x1FF : Word) <<< shift)) >>> shift

def nextTable {α : Type} (A : FrameAllocator α) (entry : Addr) :
    Code 64 (PagingGlobals α) Addr := do
  let next ← getNextLevelPointer A entry true
  let table ← callFrames (A.toVirtualAddr next)
  if table = 0 then
    throw .halt
  else
    return table

/-- `virtualAddrToPTE`, always called with `allocate` set. The page size is
passed on and never read. -/
def virtualAddrToPTE {α : Type} (A : FrameAllocator α) (virtualAddr : Word)
    (flags : Word) : Code 64 (PagingGlobals α) Addr := do
  let PML4x := (← get).globals.PML4
  if PML4x = 0 then
    return 0
  else
    let PML4 ← callFrames (A.toVirtualAddr PML4x)
    modifyGlobals fun g => { g with PML4 := PML4 }
    let PML3 ← nextTable A (entryPointer PML4 (tableIndex virtualAddr 39))
    modifyGlobals fun g => { g with PML4 := PML4x }
    let PML2 ← nextTable A (entryPointer PML3 (tableIndex virtualAddr 30))
    if flags &&& PageTableFlag.largerPages ≠ 0 then
      return entryPointer PML2 (tableIndex virtualAddr 21)
    else
      let PML1 ← nextTable A (entryPointer PML2 (tableIndex virtualAddr 21))
      return entryPointer PML1 (tableIndex virtualAddr 12)

def map {α : Type} (A : FrameAllocator α) (physicalAddr virtualAddr : Word)
    (flags : Word) : Code 64 (PagingGlobals α) Bool := do
  let entry ← virtualAddrToPTE A virtualAddr flags
  if entry ≠ 0 then
    modifyMem fun m => modifyWord m entry fun value =>
      setAddress value physicalAddr
    modifyMem fun m => modifyWord m entry fun value =>
      setFlag value flags true
    return true
  else
    return false

end OptimistOS
