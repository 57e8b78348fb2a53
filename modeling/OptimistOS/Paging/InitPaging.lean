import OptimistOS.Foundation.Loop
import OptimistOS.Lib.Lock
import OptimistOS.Paging.Paging

/-!
# Setting up the page tables

`initPaging` of `paging.cpp`: a fresh top level table, the first 4 GB mapped to
themselves and into the direct map, the entries of the memory map above 4 GB
mapped into the direct map, and the kernel image mapped to where the linker has
placed it. What the bootloader answers and the symbols of the linker are
parameters.
-/

namespace OptimistOS

open ByteMemory ByteMemory.Code

/-- `limine_memmap_entry`. -/
structure MemmapEntry where
  base : Word
  length : Word

/-- The answers of the bootloader that `initPaging` reads, and the symbols of
the linker. -/
structure BootResponses where
  hhdmOffset : Word
  memmap : List MemmapEntry
  physicalBase : Word
  virtualBase : Word
  KERNEL_BLOB_BEGIN : Word
  KERNEL_BLOB_SIZE : Word

/-- The global variables of `paging.cpp` with its lock, and the register
`cr3`. -/
structure InitGlobals (α : Type) where
  mutex : BitVec 32
  cr3 : Word
  paging : PagingGlobals α

/-- Code that neither locks nor loads `cr3`. -/
def callPaging {α β : Type} (x : Code 64 (PagingGlobals α) β) :
    Code 64 (InitGlobals α) β :=
  zoom (fun g => g.paging) (fun g a => { g with paging := a }) x

def roundDown (n alignTo : Word) : Word := n &&& ~~~(alignTo - 1)

def roundUp (n alignTo : Word) : Word :=
  (n + alignTo - 1) &&& ~~~(alignTo - 1)

/-- `4 * _1GB`. -/
def _4GB : Word := BitVec.ofNat 64 (4 * _1GB)

/-- `2 * _1MB`. -/
def _2MB : Word := BitVec.ofNat 64 (2 * _1MB)

/-- `_4KB`. -/
def pageSize4KB : Word := BitVec.ofNat 64 _4KB

def requiredSize (size : Word) : Word × Word :=
  if BitVec.ofNat 64 _1GB ≤ size then (_2MB, PageTableFlag.largerPages)
  else if pageSize4KB ≤ size then (pageSize4KB, 0)
  else (pageSize4KB, 0)

/-- `ReadWrite | Present`. -/
def kernelFlags : Word := PageTableFlag.readWrite ||| PageTableFlag.present

section

variable {α : Type} (A : FrameAllocator α)

def init : Code 64 (PagingGlobals α) Unit := do
  let frame ← callFrames (A.allocateFrame 0x1000)
  modifyGlobals fun g => { g with PML4 := frame }
  if (← get).globals.kernelPML4 = 0 then
    modifyGlobals fun g => { g with kernelPML4 := g.PML4 }

def mapFirst4GB (fuel : ℕ) (hhdmOffset : Word) :
    Code 64 (PagingGlobals α) Unit :=
  forLoop
    (fun i => do
      let _ ← map A i i (kernelFlags ||| PageTableFlag.largerPages)
      let _ ← map A i (i + hhdmOffset)
        (kernelFlags ||| PageTableFlag.largerPages)
      return ())
    _4GB _2MB fuel 0

def mapWhole (fuel : ℕ) (hhdmOffset start roundedSize pageSize flags : Word) :
    Code 64 (PagingGlobals α) Unit :=
  forLoop
    (fun k => do
      if k < _4GB then
        return ()
      else
        let _ ← map A k (k + hhdmOffset) (kernelFlags ||| flags)
        return ())
    (start + roundedSize) pageSize fuel start

def mapRest (fuel : ℕ) (hhdmOffset start difference pageSize flags : Word) :
    Code 64 (PagingGlobals α) Unit :=
  forLoop
    (fun k => do
      let mapped ← map A k (k + hhdmOffset) (kernelFlags ||| flags)
      if mapped then return () else throw .halt)
    (start + difference) pageSize fuel start

def mapEntry (fuel : ℕ) (hhdmOffset : Word) (mmap : MemmapEntry) :
    Code 64 (PagingGlobals α) Unit := do
  let start := roundDown mmap.base pageSize4KB
  let end_ := roundUp (mmap.base + mmap.length) pageSize4KB
  if start < _4GB then
    return ()
  else
    let size := end_ - start
    let (pageSize, sizeFlags) := requiredSize size
    let roundedSize := roundDown size pageSize
    mapWhole A fuel hhdmOffset start roundedSize pageSize sizeFlags
    mapRest A fuel hhdmOffset (start + roundedSize) (size - roundedSize)
      pageSize sizeFlags

def MemmapEntry.start (mmap : MemmapEntry) : Word :=
  roundDown mmap.base pageSize4KB

def MemmapEntry.size (mmap : MemmapEntry) : Word :=
  roundUp (mmap.base + mmap.length) pageSize4KB - mmap.start

theorem mapEntry_of_le {fuel : ℕ} {hhdmOffset : Word} {mmap : MemmapEntry}
    (h : ¬ mmap.start < _4GB) :
    mapEntry A fuel hhdmOffset mmap = (do
      let whole := roundDown mmap.size (requiredSize mmap.size).1
      mapWhole A fuel hhdmOffset mmap.start whole (requiredSize mmap.size).1
        (requiredSize mmap.size).2
      mapRest A fuel hhdmOffset (mmap.start + whole) (mmap.size - whole)
        (requiredSize mmap.size).1 (requiredSize mmap.size).2) := by
  rw [MemmapEntry.start] at h
  rw [mapEntry, if_neg h]
  rfl

theorem mapEntry_of_lt {fuel : ℕ} {hhdmOffset : Word} {mmap : MemmapEntry}
    (h : mmap.start < _4GB) :
    mapEntry A fuel hhdmOffset mmap = return () := by
  rw [MemmapEntry.start] at h
  rw [mapEntry, if_pos h]

def mapMemmap (fuel : ℕ) (hhdmOffset : Word) :
    List MemmapEntry → Code 64 (PagingGlobals α) Unit
  | [] => return ()
  | mmap :: entries => do
      mapEntry A fuel hhdmOffset mmap
      mapMemmap fuel hhdmOffset entries

def mapKernel (fuel : ℕ) (r : BootResponses) : Code 64 (PagingGlobals α) Unit :=
  let start := roundDown r.KERNEL_BLOB_BEGIN pageSize4KB
  forLoop
    (fun i => do
      let _ ← map A (i - r.virtualBase + r.physicalBase) i kernelFlags
      return ())
    (start + roundUp (r.KERNEL_BLOB_SIZE + (r.KERNEL_BLOB_BEGIN - start))
      pageSize4KB)
    pageSize4KB fuel start

def initTables (fuel : ℕ) (r : BootResponses) :
    Code 64 (PagingGlobals α) Unit := do
  init A
  modifyGlobals fun g => { g with hhdmOffset := r.hhdmOffset }
  mapFirst4GB A fuel r.hhdmOffset
  mapMemmap A fuel r.hhdmOffset r.memmap
  mapKernel A fuel r

/-- `initPaging`; `fuel` bounds each of its loops. -/
def initPaging (fuel : ℕ) (r : BootResponses) :
    Code 64 (InitGlobals α) Unit := do
  lock (fun g => g.mutex) fun v g => { g with mutex := v }
  callPaging (initTables A fuel r)
  if (← get).globals.paging.PML4 = 0 then
    throw .halt
  modifyGlobals fun g => { g with cr3 := g.paging.PML4 }
  unlock fun v g => { g with mutex := v }

end

end OptimistOS
