import OptimistOS.Paging.PageFrameAllocator
import OptimistOS.Paging.Walk

/-!
# The ACPI tables

`acpi.cpp`: `initACPI` remembers where the root table lies, `acpiFindTable`
searches the tables that it lists. A machine of ACPI revision 0 has an RSDT with
entries of 32 bits, later ones have an XSDT with entries of 64 bits. Both hold
physical addresses. The search of the RSDT takes its entries as pointers; the
search of the XSDT subtracts the offset of the direct map from them first.

The pointers come from the firmware, so a read may go anywhere. `translate` is
what the loaded page tables do with an address; a read of an address that is not
canonical, or that they lead nowhere, stops the code with a fault. `entryReads`
is not a variable of the code either: it records which bytes of the root table
were read as entries, the last ones first.
-/

namespace OptimistOS

open ByteMemory ByteMemory.Code

inductive XsdpInfo
  | revision
  | rsdtAddress
  | xsdtAddress
  deriving DecidableEq, Repr

/-- `xsdpInfo`; `rsdpInfo` is its beginning. -/
def xsdpInfo : Layout 64 XsdpInfo where
  offset
    | .revision => 15
    | .rsdtAddress => 16
    | .xsdtAddress => 24
  width
    | .revision => 1
    | .rsdtAddress => 4
    | .xsdtAddress => 8
  sizeof := 36
  fits f := by cases f <;> decide
  apart f g h := by cases f <;> cases g <;> simp at h ⊢
  sizeof_le := by decide

/-- The members of `SDT` that `acpiFindTable` reads, besides the signature at
its start. -/
inductive SDT
  | length
  deriving DecidableEq, Repr

/-- `SDT`. The entries of `RSDT` and `XSDT` follow the record. -/
def sdtLayout : Layout 64 SDT where
  offset _ := 4
  width _ := 4
  sizeof := 36
  fits f := by cases f; decide
  apart f g h := by cases f; cases g; exact absurd rfl h
  sizeof_le := by decide

def sizeofSDT : Word := 36

structure XsdtInfo where
  inUse : Bool
  xsdpInformation : Addr
  rootXSDT : Addr

/-- The global variables of `acpi.cpp`, `rsdpRequest.response->address`, and
those of the conversions between physical and virtual addresses. -/
structure AcpiGlobals (τ : Type) where
  frames : FrameGlobals τ
  rsdpAddress : Addr
  rootRSDT : Addr
  xsdtInformation : XsdtInfo
  translate : Addr → Option Word
  entryReads : List (Addr × ℕ)

def rsdPtr : ℕ → BitVec 8 :=
  fun i => [0x52, 0x53, 0x44, 0x20, 0x50, 0x54, 0x52, 0x20].getD i 0

/-- `memorycmp` (`string.cpp`) from the index `i` on, with `n` bytes left. The
bytes of the first argument may be out of reach. -/
def memorycmpFrom (p1 : ℕ → Option (BitVec 8)) (p2 : ℕ → BitVec 8) :
    ℕ → ℕ → Option Bool
  | 0, _ => some true
  | n + 1, i => do
      if (← p1 i) ≠ p2 i then
        return false
      memorycmpFrom p1 p2 n (i + 1)

def memorycmp (p1 : ℕ → Option (BitVec 8)) (p2 : ℕ → BitVec 8) (n : ℕ) :
    Option Bool :=
  memorycmpFrom p1 p2 n 0

section

variable {τ : Type}

def AcpiGlobals.Readable (g : AcpiGlobals τ) (p : Addr) : Prop :=
  Canonical p ∧ (g.translate p).isSome

instance (g : AcpiGlobals τ) (p : Addr) : Decidable (g.Readable p) :=
  inferInstanceAs (Decidable (_ ∧ _))

def bytesAt (s : Machine 64 (AcpiGlobals τ)) (p : Addr) :
    ℕ → Option (BitVec 8) := fun i =>
  if s.globals.Readable (p + BitVec.ofNat 64 i) then
    some (s.mem (p + BitVec.ofNat 64 i))
  else
    none

def wordAt (s : Machine 64 (AcpiGlobals τ)) (p : Addr) (n : ℕ) : Option Word :=
  if ∀ i < n, s.globals.Readable (p + BitVec.ofNat 64 i) then
    some (BitVec.ofNat 64 (load s.mem p n))
  else
    none

def memberAt {F : Type} (L : Layout 64 F) (s : Machine 64 (AcpiGlobals τ))
    (p : Addr) (f : F) : Option Word :=
  wordAt s (p + BitVec.ofNat 64 (L.offset f)) (L.width f)

def readMemory {β : Type} (x : Machine 64 (AcpiGlobals τ) → Option β) :
    Code 64 (AcpiGlobals τ) β := do
  match x (← get) with
  | some b => return b
  | none => throw .fault

def callAllocator {β : Type} (x : Code 64 (FrameGlobals τ) β) :
    Code 64 (AcpiGlobals τ) β :=
  zoom (fun g => g.frames) (fun g f => { g with frames := f }) x

def initACPI : Code 64 (AcpiGlobals τ) Word := do
  let rsdp := (← get).globals.rsdpAddress
  if ¬ (← readMemory fun s => memorycmp (bytesAt s rsdp) rsdPtr 8) then
    throw .halt
  else if (← readMemory fun s => memberAt xsdpInfo s rsdp .revision) ≠ 0 then
    modifyGlobals fun g => { g with xsdtInformation.xsdpInformation := rsdp }
    let xsdtAddress ← readMemory fun s => memberAt xsdpInfo s rsdp .xsdtAddress
    let rootXSDT ← callAllocator (toPhysicalAddr xsdtAddress)
    modifyGlobals fun g => { g with xsdtInformation.rootXSDT := rootXSDT }
    modifyGlobals fun g => { g with xsdtInformation.inUse := true }
    return xsdtAddress
  else
    let rsdtAddress ← readMemory fun s => memberAt xsdpInfo s rsdp .rsdtAddress
    let rootRSDT ← callAllocator (toPhysicalAddr rsdtAddress)
    modifyGlobals fun g => { g with rootRSDT := rootRSDT }
    return rsdtAddress

def readEntry (p : Addr) (n : ℕ) : Code 64 (AcpiGlobals τ) Word := do
  modifyGlobals fun g => { g with entryReads := (p, n) :: g.entryReads }
  readMemory fun s => wordAt s p n

/-- The number of entries of `bytes` bytes in a table of `length` bytes, as the
code computes it: in 64 bits, cut to 32. -/
def entryCount (length bytes : Word) : BitVec 32 :=
  ((length - sizeofSDT) / bytes).setWidth 32

/-- The loops of `acpiFindTable` at the index `i`, with `n` entries left. `sdt`
makes an entry into a pointer. -/
def searchEntries (sdt : BitVec 32 → Code 64 (AcpiGlobals τ) Addr)
    (name : ℕ → BitVec 8) : ℕ → BitVec 32 → Code 64 (AcpiGlobals τ) Addr
  | 0, _ => return 0
  | n + 1, i => do
      let p ← sdt i
      if ← readMemory fun s => memorycmp (bytesAt s p) name 4 then
        return p
      else
        searchEntries sdt name n (i + 1)

def rsdtEntry (rsdt : Addr) (i : BitVec 32) : Code 64 (AcpiGlobals τ) Addr :=
  readEntry (rsdt + sizeofSDT + 4 * i.setWidth 64) 4

/-- The table that the entry `i` of the XSDT names; the index is an `int`. -/
def xsdtEntry (xsdt : Addr) (i : BitVec 32) : Code 64 (AcpiGlobals τ) Addr := do
  let entry ← readEntry (xsdt + sizeofSDT + 8 * i.signExtend 64) 8
  callAllocator (toPhysicalAddr entry)

def acpiFindTable (name : ℕ → BitVec 8) : Code 64 (AcpiGlobals τ) Addr := do
  let g := (← get).globals
  if g.rootRSDT ≠ 0 then
    let rsdt ← callAllocator (toVirtualAddr g.rootRSDT)
    let length ← readMemory fun s => memberAt sdtLayout s rsdt .length
    searchEntries (rsdtEntry rsdt) name (entryCount length 4).toNat 0
  else
    let xsdt ← callAllocator (toVirtualAddr g.xsdtInformation.rootXSDT)
    let length ← readMemory fun s => memberAt sdtLayout s xsdt .length
    searchEntries (xsdtEntry xsdt) name (entryCount length 8).toNat 0

end

/-- The offset of the direct map that the conversions use. -/
def AcpiGlobals.hhdmOffset {τ : Type} (g : AcpiGlobals τ) : Word :=
  if g.frames.bootInformation.memory.hhdmOffset = 0 then
    g.frames.globalBootInfo.memory.hhdmOffset
  else
    g.frames.bootInformation.memory.hhdmOffset

def virtualAddr (hhdmOffset addr : Word) : Addr :=
  if addr = -1 then 0 else addr + hhdmOffset

section

variable {τ : Type} {s t u : Machine 64 (AcpiGlobals τ)}
  {rs us : List (Addr × ℕ)}

/-- The code has converted addresses and read the entries `rs`, and has done
nothing else. -/
structure Reads (s : Machine 64 (AcpiGlobals τ)) (rs : List (Addr × ℕ))
    (t : Machine 64 (AcpiGlobals τ)) : Prop where
  mem : t.mem = s.mem
  hhdmOffset : t.globals.hhdmOffset = s.globals.hhdmOffset
  globals : t.globals = { s.globals with
    frames := t.globals.frames
    entryReads := rs ++ s.globals.entryReads }

theorem Reads.trans (h : Reads s rs t) (h' : Reads t us u) :
    Reads s (us ++ rs) u := by
  refine ⟨h'.mem.trans h.mem, h'.hhdmOffset.trans h.hhdmOffset, ?_⟩
  rw [h'.globals, h.globals, List.append_assoc]

theorem Reads.refl (s : Machine 64 (AcpiGlobals τ)) : Reads s [] s :=
  ⟨rfl, rfl, rfl⟩

theorem Reads.translate (h : Reads s rs t) :
    t.globals.translate = s.globals.translate := by
  rw [h.globals]

theorem readable_congr (h : t.globals.translate = s.globals.translate)
    (p : Addr) : t.globals.Readable p ↔ s.globals.Readable p := by
  rw [AcpiGlobals.Readable, h]
  rfl

theorem bytesAt_congr (hmem : t.mem = s.mem)
    (htranslate : t.globals.translate = s.globals.translate) :
    bytesAt t = bytesAt s := by
  funext p i
  exact if_congr (readable_congr htranslate _) (by rw [hmem]) rfl

theorem Reads.bytesAt (h : Reads s rs t) : bytesAt t = bytesAt s :=
  bytesAt_congr h.mem h.translate

theorem Reads.wordAt (h : Reads s rs t) (p : Addr) (n : ℕ) :
    wordAt t p n = wordAt s p n := by
  exact if_congr (forall₂_congr fun i _ => readable_congr h.translate _)
    (by rw [h.mem]) rfl

theorem run_readMemory_of_some {β : Type}
    {x : Machine 64 (AcpiGlobals τ) → Option β} {b : β} (h : x s = some b) :
    (readMemory x).run s = .ok b s := by
  rw [readMemory, EStateM.run_bind, EStateM.run_get]
  dsimp only
  rw [h]
  rfl

theorem run_readMemory_of_none {β : Type}
    {x : Machine 64 (AcpiGlobals τ) → Option β} (h : x s = none) :
    (readMemory x).run s = .error .fault s := by
  rw [readMemory, EStateM.run_bind, EStateM.run_get]
  dsimp only
  rw [h]
  rfl

theorem run_loadBootInfo (s : Machine 64 (AcpiGlobals τ)) :
    ∃ f : FrameGlobals τ,
      loadBootInfo.run ⟨s.mem, s.globals.frames⟩ = .ok () ⟨s.mem, f⟩ ∧
      f.bootInformation.memory.hhdmOffset = s.globals.hhdmOffset ∧
      Reads s [] ⟨s.mem, { s.globals with frames := f }⟩ := by
  by_cases h : s.globals.frames.bootInformation.memory.hhdmOffset = 0
  · refine ⟨{ s.globals.frames with
      bootInformation := s.globals.frames.globalBootInfo }, ?_, ?_, rfl, ?_, rfl⟩
    · rw [loadBootInfo, run_modifyGlobals]
      simp only [if_pos h]
    · rw [AcpiGlobals.hhdmOffset, if_pos h]
    · simp only [AcpiGlobals.hhdmOffset, if_pos h, ite_self]
  · refine ⟨s.globals.frames, ?_, ?_, Reads.refl s⟩
    · rw [loadBootInfo, run_modifyGlobals]
      simp only [if_neg h]
    · rw [AcpiGlobals.hhdmOffset, if_neg h]

theorem run_acpiPhysicalAddr (s : Machine 64 (AcpiGlobals τ)) (addr : Addr) :
    ∃ t, (callAllocator (toPhysicalAddr addr)).run s =
      .ok (addr - s.globals.hhdmOffset) t ∧ Reads s [] t := by
  obtain ⟨f, hload, hoffset, hreads⟩ := run_loadBootInfo s
  refine ⟨_, run_zoom_of_ok (t := ⟨s.mem, f⟩) ?_, hreads⟩
  rw [toPhysicalAddr, run_bind_of_ok hload, EStateM.run_bind, EStateM.run_get]
  dsimp only
  rw [hoffset]
  rfl

theorem run_acpiVirtualAddr (s : Machine 64 (AcpiGlobals τ)) (addr : Word) :
    ∃ t, (callAllocator (toVirtualAddr addr)).run s =
      .ok (virtualAddr s.globals.hhdmOffset addr) t ∧ Reads s [] t := by
  rw [virtualAddr]
  split_ifs with h
  · refine ⟨s, run_zoom_of_ok (t := ⟨s.mem, s.globals.frames⟩) ?_,
      Reads.refl s⟩
    rw [toVirtualAddr, if_pos h]
    rfl
  · obtain ⟨f, hload, hoffset, hreads⟩ := run_loadBootInfo s
    refine ⟨_, run_zoom_of_ok (t := ⟨s.mem, f⟩) ?_, hreads⟩
    rw [toVirtualAddr, if_neg h, run_bind_of_ok hload, EStateM.run_bind,
      EStateM.run_get]
    dsimp only
    rw [hoffset]
    rfl

theorem exists_run_readMemory_iff {β : Type}
    {x : Machine 64 (AcpiGlobals τ) → Option β} {b : β} :
    (∃ t, (readMemory x).run s = .ok b t) ↔ x s = some b := by
  refine ⟨?_, fun h => ⟨s, run_readMemory_of_some h⟩⟩
  rintro ⟨t, h⟩
  cases hx : x s with
  | none =>
      rw [run_readMemory_of_none hx] at h
      exact absurd h (by simp)
  | some a =>
      rw [run_readMemory_of_some hx, EStateM.Result.ok.injEq] at h
      rw [h.1]

def rsdtSlot (rsdt : Addr) (i : BitVec 32) : Addr × ℕ :=
  (rsdt + sizeofSDT + 4 * i.setWidth 64, 4)

def xsdtSlot (xsdt : Addr) (i : BitVec 32) : Addr × ℕ :=
  (xsdt + sizeofSDT + 8 * i.signExtend 64, 8)

theorem reads_entryReads (s : Machine 64 (AcpiGlobals τ)) (slot : Addr × ℕ) :
    Reads s [slot] { s with globals :=
      { s.globals with entryReads := slot :: s.globals.entryReads } } :=
  ⟨rfl, rfl, rfl⟩

theorem final_readEntry (s : Machine 64 (AcpiGlobals τ)) (slot : Addr × ℕ) :
    Reads s [slot] ((readEntry slot.1 slot.2).final s) := by
  rw [readEntry, final_bind_of_ok (run_modifyGlobals _ s)]
  have hrec := reads_entryReads s slot
  cases hword : wordAt s slot.1 slot.2 with
  | none =>
      rwa [final_of_error (run_readMemory_of_none ((hrec.wordAt _ _).trans hword))]
  | some v =>
      rwa [final_of_ok (run_readMemory_of_some ((hrec.wordAt _ _).trans hword))]

theorem run_readEntry {slot : Addr × ℕ} {v : Word}
    (h : wordAt s slot.1 slot.2 = some v) :
    ∃ t, (readEntry slot.1 slot.2).run s = .ok v t ∧ Reads s [slot] t := by
  have hrec := reads_entryReads s slot
  refine ⟨_, ?_, hrec⟩
  rw [readEntry, run_bind_of_ok (run_modifyGlobals _ s)]
  exact run_readMemory_of_some ((hrec.wordAt _ _).trans h)

theorem xsdtEntry_eq (xsdt : Addr) (i : BitVec 32) :
    (xsdtEntry xsdt i : Code 64 (AcpiGlobals τ) Addr) = (do
      let entry ← readEntry (xsdtSlot xsdt i).1 (xsdtSlot xsdt i).2
      callAllocator (toPhysicalAddr entry)) := rfl

theorem final_xsdtEntry (s : Machine 64 (AcpiGlobals τ)) (xsdt : Addr)
    (i : BitVec 32) : Reads s [xsdtSlot xsdt i] ((xsdtEntry xsdt i).final s) := by
  have hread := final_readEntry s (xsdtSlot xsdt i)
  cases hrun : (readEntry (xsdtSlot xsdt i).1 (xsdtSlot xsdt i).2).run s with
  | ok entry u =>
      rw [final_of_ok hrun] at hread
      obtain ⟨t, hphys, ht⟩ := run_acpiPhysicalAddr u entry
      rw [xsdtEntry_eq, final_bind_of_ok hrun, final_of_ok hphys]
      exact hread.trans ht
  | error e u =>
      rw [final_of_error hrun] at hread
      rwa [xsdtEntry_eq, final_bind_of_error hrun]

theorem run_xsdtEntry {xsdt : Addr} {i : BitVec 32} {v : Word}
    (h : wordAt s (xsdtSlot xsdt i).1 (xsdtSlot xsdt i).2 = some v) :
    ∃ t, (xsdtEntry xsdt i).run s = .ok (v - s.globals.hhdmOffset) t ∧
      Reads s [xsdtSlot xsdt i] t := by
  obtain ⟨u, hread, hu⟩ := run_readEntry h
  obtain ⟨t, hphys, ht⟩ := run_acpiPhysicalAddr u v
  refine ⟨t, ?_, hu.trans ht⟩
  rw [xsdtEntry_eq, run_bind_of_ok hread, hphys, hu.hhdmOffset]

def indices (n : ℕ) (i : BitVec 32) : List (BitVec 32) :=
  (List.range n).map fun j => i + BitVec.ofNat 32 j

theorem indices_succ (n : ℕ) (i : BitVec 32) :
    indices (n + 1) i = i :: indices n (i + 1) := by
  rw [indices, List.range_succ_eq_map, List.map_cons, List.map_map]
  refine congrArg₂ _ (BitVec.add_zero i) (List.map_congr_left fun j _ => ?_)
  rw [Function.comp_apply, Nat.succ_eq_add_one, Nat.add_comm, BitVec.ofNat_add,
    ← BitVec.add_assoc]
  rfl

def AcpiGlobals.rootTable (g : AcpiGlobals τ) : Addr :=
  virtualAddr g.hhdmOffset
    (if g.rootRSDT ≠ 0 then g.rootRSDT else g.xsdtInformation.rootXSDT)

def AcpiGlobals.rootSlot (g : AcpiGlobals τ) (i : BitVec 32) : Addr × ℕ :=
  if g.rootRSDT ≠ 0 then rsdtSlot g.rootTable i else xsdtSlot g.rootTable i

def AcpiGlobals.readRoot (g : AcpiGlobals τ) (i : BitVec 32) :
    Code 64 (AcpiGlobals τ) Addr :=
  if g.rootRSDT ≠ 0 then rsdtEntry g.rootTable i else xsdtEntry g.rootTable i

def AcpiGlobals.rootPointer (g : AcpiGlobals τ) (v : Word) : Addr :=
  if g.rootRSDT ≠ 0 then v else v - g.hhdmOffset

/-- The number of entries that it expects in a table of `length` bytes. -/
def AcpiGlobals.rootCount (g : AcpiGlobals τ) (length : Word) : BitVec 32 :=
  entryCount length (if g.rootRSDT ≠ 0 then 4 else 8)

def rootLength (s : Machine 64 (AcpiGlobals τ)) : Option Word :=
  memberAt sdtLayout s s.globals.rootTable .length

theorem final_readRoot (g : AcpiGlobals τ) (i : BitVec 32)
    (s : Machine 64 (AcpiGlobals τ)) :
    Reads s [g.rootSlot i] ((g.readRoot i).final s) := by
  rw [AcpiGlobals.rootSlot, AcpiGlobals.readRoot]
  split_ifs
  · exact final_readEntry s _
  · exact final_xsdtEntry s _ i

theorem run_readRoot {g : AcpiGlobals τ} {i : BitVec 32} {v : Word}
    (hoffset : s.globals.hhdmOffset = g.hhdmOffset)
    (h : wordAt s (g.rootSlot i).1 (g.rootSlot i).2 = some v) :
    ∃ t, (g.readRoot i).run s = .ok (g.rootPointer v) t ∧
      Reads s [g.rootSlot i] t := by
  rw [AcpiGlobals.rootSlot] at h ⊢
  rw [AcpiGlobals.readRoot, AcpiGlobals.rootPointer]
  split_ifs at h ⊢
  · exact run_readEntry h
  · exact hoffset ▸ run_xsdtEntry h

/-- `acpiFindTable` reads the length of the root table and searches its
entries. -/
theorem exists_acpiFindTable_run_eq (s : Machine 64 (AcpiGlobals τ))
    (name : ℕ → BitVec 8) :
    ∃ u, Reads s [] u ∧ (acpiFindTable name).run s = (do
      let length ← readMemory fun t =>
        memberAt sdtLayout t s.globals.rootTable .length
      searchEntries s.globals.readRoot name (s.globals.rootCount length).toNat
        0 : Code 64 (AcpiGlobals τ) Addr).run u := by
  obtain ⟨u, hvirt, hu⟩ := run_acpiVirtualAddr s
    (if s.globals.rootRSDT ≠ 0 then s.globals.rootRSDT
      else s.globals.xsdtInformation.rootXSDT)
  refine ⟨u, hu, ?_⟩
  rw [acpiFindTable, EStateM.run_bind, EStateM.run_get]
  dsimp only
  by_cases hroot : s.globals.rootRSDT ≠ 0
  · have hentry : s.globals.readRoot = rsdtEntry s.globals.rootTable :=
      funext fun i => if_pos hroot
    have hcount : s.globals.rootCount = fun length => entryCount length 4 := by
      funext length
      rw [AcpiGlobals.rootCount, if_pos hroot]
    rw [if_pos hroot] at hvirt
    rw [if_pos hroot, run_bind_of_ok hvirt, hentry, hcount,
      AcpiGlobals.rootTable, if_pos hroot]
  · have hentry : s.globals.readRoot = xsdtEntry s.globals.rootTable :=
      funext fun i => if_neg hroot
    have hcount : s.globals.rootCount = fun length => entryCount length 8 := by
      funext length
      rw [AcpiGlobals.rootCount, if_neg hroot]
    rw [if_neg hroot] at hvirt
    rw [if_neg hroot, run_bind_of_ok hvirt, hentry, hcount,
      AcpiGlobals.rootTable, if_neg hroot]

end

/-- What the page tables do when the low 4 GB lead to themselves and the direct
map of them starts at `hhdmOffset`. -/
def directMapped (hhdmOffset : Word) : Addr → Option Word := fun a =>
  if a.toNat < 2 ^ 32 then some a
  else if (a - hhdmOffset).toNat < 2 ^ 32 then some (a - hhdmOffset)
  else none

/-- A machine with the memory `m` and such page tables that knows the offset
`hhdmOffset` and has not looked for its tables yet. -/
def acpiMachine (m : Bytes) (rsdpAddress : Addr) (hhdmOffset : Word) :
    Machine 64 (AcpiGlobals Unit) where
  mem := m
  globals :=
    { frames :=
        { globalBootInfo := ⟨⟨0, 0, hhdmOffset⟩⟩
          head := 0
          freeBlock := 0
          totalMemory := 0
          usedMemory := 0
          bootInformation := BootInfo.zero
          addressSizeHT := () }
      rsdpAddress := rsdpAddress
      rootRSDT := 0
      xsdtInformation := ⟨false, 0, 0⟩
      translate := directMapped hhdmOffset
      entryReads := [] }

end OptimistOS
