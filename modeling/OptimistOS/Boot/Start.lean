import OptimistOS.Boot.StringEnds
import OptimistOS.Paging.FrameRuns
import OptimistOS.Paging.InitPaging
import OptimistOS.Renderer.BasicRenderer

/-!
# The entry of the kernel

`_start` (`boot.cpp`) checks the answers of the bootloader one after the other and
collects what the kernel needs of them. Of the usable entries of the memory map it
takes the longest, the first one of several, and gives it to the frame allocator.
No frame of any later run overlaps another entry of the map, the kernel's own
included (`frames_of_start`).
-/

namespace OptimistOS

open ByteMemory CString Transition

structure LimineFramebuffer where
  address : Word
  width : Word
  height : Word
  pitch : Word

structure TypedEntry extends MemmapEntry where
  type : Word

def LIMINE_MEMMAP_USABLE : Word := 0

structure LimineFile where
  path : ℤ → Byte
  magic : Byte × Byte
  charsize : Byte
  glyphs : ℤ → Byte

/-- The answers of the bootloader, where it has given one. -/
structure LimineResponses where
  terminals : Option Word
  framebuffers : Option (List LimineFramebuffer)
  memmap : Option (List TypedEntry)
  /-- The physical and the virtual base of the kernel. -/
  kernelAddress : Option (Word × Word)
  modules : Option (List LimineFile)
  hhdmOffset : Option Word

structure StartMemory extends Memory where
  extraMemStart : Word
  kernelStart : Word
  kernelSize : Word
  kernelStartV : Word

structure StartInfo where
  framebuffer : Framebuffer
  psf1Font : PSF1_FONT
  memory : StartMemory

/-- The variables of the loop over the memory map. -/
structure MemmapScan where
  freeMemStart : Word
  freeMemSize : Word
  kernelSize : Word

/-- An iteration of the loop over the memory map. -/
def scanEntry (kernelStart : Word) (s : MemmapScan) (e : TypedEntry) : MemmapScan :=
  if e.type = LIMINE_MEMMAP_USABLE then
    if s.freeMemSize < e.length then
      { s with freeMemStart := e.base, freeMemSize := e.length }
    else s
  else if e.base = kernelStart then { s with kernelSize := e.length }
  else s

def scanMemmap (kernelStart : Word) (map : List TypedEntry) : MemmapScan :=
  map.foldl (scanEntry kernelStart) ⟨0, 0, 1⟩

def fontName : ℤ → Byte :=
  literal ("zap-light16.psf".toList.map ascii)

inductive StartStop
  /-- At a call of `done`, after it has printed a text. -/
  | done (text : String)
  /-- The comparison of file names has not ended. -/
  | fuel

/-- An answer that has to be there. -/
def require {β : Type} (x : Option β) (text : String) : Except StartStop β :=
  match x with
  | none => .error (.done text)
  | some b => .ok b

/-- A condition that has to be met. -/
def demand (p : Prop) [Decidable p] (text : String) : Except StartStop Unit :=
  if p then .ok () else .error (.done text)

def getFile (fuel : ℕ) : List LimineFile → Except StartStop (Option LimineFile)
  | [] => .ok none
  | f :: modules =>
      match checkStringEndsWith f.path fontName fuel with
      | none => .error .fuel
      | some check => if check.result then .ok (some f) else getFile fuel modules

/-- `_start` up to the call of `setupOptimist`. -/
def start (fuel : ℕ) (r : LimineResponses) : Except StartStop StartInfo := do
  let terminal_count ← require r.terminals ""
  demand (¬ terminal_count < 1) ""
  let framebuffers ← require r.framebuffers "LIMINE_ERROR: Framebuffer is NULL!\n"
  let lFb ← require framebuffers.head? "LIMINE_ERROR: Framebuffer is NULL!\n"
  let map ← require r.memmap "LIMINE_ERROR: Memory map not passed\n"
  let kernelAddress ← require r.kernelAddress
    "LIMINE_ERROR: Kernel address not passed\n"
  let scan := scanMemmap kernelAddress.1 map
  demand (scan.freeMemStart ≠ 0) "No valid Memory space found for OS!\n"
  let modules ← require r.modules "Modules not passed!\n\n"
  let file ← getFile fuel modules
  let file ← require file
    "LIMINE_ERROR: Failed to get Font \"zap-light16.psf\"!\n"
  demand (¬ (file.magic.1 ≠ 0x36 ∨ file.magic.2 ≠ 0x04))
    "LIMINE_ERROR: FONT HEADER INVALID!\n"
  let hhdmOffset ← require r.hhdmOffset "HHDM request wasn't fulfilled"
  return {
    framebuffer := {
      BaseAddress := lFb.address
      Width := lFb.width.setWidth 32
      Height := lFb.height.setWidth 32
      PixelsPerScanLine := (lFb.pitch / 4).setWidth 32 }
    psf1Font := ⟨file.charsize, file.glyphs⟩
    memory := {
      freeMemStart := scan.freeMemStart
      extraMemStart := scan.freeMemStart
      freeMemSize := scan.freeMemSize
      kernelStart := kernelAddress.1
      kernelSize := scan.kernelSize
      kernelStartV := kernelAddress.2
      hhdmOffset := hhdmOffset } }

theorem require_eq_ok {β : Type} {x : Option β} {text : String} {b : β} :
    require x text = .ok b ↔ x = some b := by
  cases x with
  | none => simp [require]
  | some a => simp [require]

theorem demand_eq_ok {p : Prop} [Decidable p] {text : String} {u : Unit} :
    demand p text = .ok u ↔ p := by
  by_cases hp : p
  · simp [demand, hp]
  · simp [demand, hp]

theorem bind_eq_ok {β γ : Type} {x : Except StartStop β}
    {f : β → Except StartStop γ} {c : γ} :
    x >>= f = .ok c ↔ ∃ b, x = .ok b ∧ f b = .ok c := by
  cases x with
  | error e => simp [bind, Except.bind]
  | ok b => simp [bind, Except.bind]

theorem start_eq_ok {fuel : ℕ} {r : LimineResponses} {info : StartInfo}
    (h : start fuel r = .ok info) :
    ∃ map kernelAddress, r.memmap = some map ∧
      r.kernelAddress = some kernelAddress ∧
      (scanMemmap kernelAddress.1 map).freeMemStart ≠ 0 ∧
      r.hhdmOffset = some info.memory.hhdmOffset ∧
      info.memory.freeMemStart = (scanMemmap kernelAddress.1 map).freeMemStart ∧
      info.memory.freeMemSize = (scanMemmap kernelAddress.1 map).freeMemSize := by
  simp only [start, bind_eq_ok, require_eq_ok, demand_eq_ok] at h
  obtain ⟨count, -, -, -, framebuffers, -, lFb, -, map, hmap, kernelAddress, hkernel,
    -, hstart, modules, -, file?, -, file, -, -, -, hhdmOffset, hhhdm, h⟩ := h
  obtain rfl := Except.ok.inj h
  exact ⟨map, kernelAddress, hmap, hkernel, hstart, hhhdm, rfl, rfl⟩

/-- The first of the longest usable entries of the map. -/
structure FirstLongest (map : List TypedEntry) (e : TypedEntry)
    (before after : List TypedEntry) : Prop where
  map_eq : map = before ++ e :: after
  usable : e.type = LIMINE_MEMMAP_USABLE
  before_lt : ∀ a ∈ before, a.type = LIMINE_MEMMAP_USABLE → a.length < e.length
  after_le : ∀ a ∈ after, a.type = LIMINE_MEMMAP_USABLE → a.length ≤ e.length

namespace FirstLongest

variable {map before after : List TypedEntry} {e a : TypedEntry}

theorem mem (h : FirstLongest map e before after) : e ∈ map := by
  rw [h.map_eq]
  exact List.mem_append_right before List.mem_cons_self

theorem length_le (h : FirstLongest map e before after) (ha : a ∈ map)
    (husable : a.type = LIMINE_MEMMAP_USABLE) : a.length ≤ e.length := by
  rw [h.map_eq, List.mem_append, List.mem_cons] at ha
  rcases ha with ha | rfl | ha
  · exact BitVec.le_of_lt (h.before_lt a ha husable)
  · exact BitVec.le_refl _
  · exact h.after_le a ha husable

theorem snoc (h : FirstLongest map e before after)
    (hle : a.type = LIMINE_MEMMAP_USABLE → a.length ≤ e.length) :
    FirstLongest (map ++ [a]) e before (after ++ [a]) where
  map_eq := by rw [h.map_eq, List.append_assoc, List.cons_append]
  usable := h.usable
  before_lt := h.before_lt
  after_le b hb husable := by
    rcases List.mem_append.1 hb with hb | hb
    · exact h.after_le b hb husable
    · obtain rfl := List.mem_singleton.1 hb
      exact hle husable

end FirstLongest

/-- What the loop over the memory map has come to: no usable entry with a length, or
the first of the longest ones. -/
def Scanned (map : List TypedEntry) (s : MemmapScan) : Prop :=
  (s.freeMemStart = 0 ∧ s.freeMemSize = 0 ∧
    ∀ a ∈ map, a.type = LIMINE_MEMMAP_USABLE → a.length = 0) ∨
    ∃ e before after, FirstLongest map e before after ∧ s.freeMemStart = e.base ∧
      s.freeMemSize = e.length

theorem Scanned.length_le {map : List TypedEntry} {s : MemmapScan}
    (h : Scanned map s) {a : TypedEntry} (ha : a ∈ map)
    (husable : a.type = LIMINE_MEMMAP_USABLE) : a.length ≤ s.freeMemSize := by
  rcases h with ⟨-, hsize, hzero⟩ | ⟨e, before, after, h, -, hsize⟩
  · rw [hsize, hzero a ha husable]
    exact BitVec.le_refl 0
  · rw [hsize]
    exact h.length_le ha husable

theorem Scanned.pass {map : List TypedEntry} {s s' : MemmapScan} {a : TypedEntry}
    (h : Scanned map s) (hstart : s'.freeMemStart = s.freeMemStart)
    (hsize : s'.freeMemSize = s.freeMemSize)
    (hle : a.type = LIMINE_MEMMAP_USABLE → a.length ≤ s.freeMemSize) :
    Scanned (map ++ [a]) s' := by
  rcases h with ⟨hstart₀, hsize₀, hzero⟩ | ⟨e, before, after, h, hstart₀, hsize₀⟩
  · refine .inl ⟨hstart.trans hstart₀, hsize.trans hsize₀, fun b hb husable => ?_⟩
    rcases List.mem_append.1 hb with hb | hb
    · exact hzero b hb husable
    · obtain rfl := List.mem_singleton.1 hb
      have hle₀ := hle husable
      rw [hsize₀] at hle₀
      exact BitVec.le_zero_iff.1 hle₀
  · rw [hsize₀] at hle
    exact .inr ⟨e, before, _, h.snoc hle, hstart.trans hstart₀, hsize.trans hsize₀⟩

theorem scanned_scanMemmap (kernelStart : Word) (map : List TypedEntry) :
    Scanned map (scanMemmap kernelStart map) := by
  induction map using List.reverseRecOn with
  | nil => exact .inl ⟨rfl, rfl, fun a ha => absurd ha List.not_mem_nil⟩
  | append_singleton map a ih =>
      have hsnoc : scanMemmap kernelStart (map ++ [a]) =
          scanEntry kernelStart (scanMemmap kernelStart map) a :=
        List.foldl_concat ..
      rw [hsnoc, scanEntry]
      split_ifs with husable hlonger hkernel
      · exact .inr ⟨a, map, [], ⟨rfl, husable,
          fun b hb hb' => Nat.lt_of_le_of_lt (ih.length_le hb hb') hlonger,
          fun b hb => absurd hb List.not_mem_nil⟩, rfl, rfl⟩
      · exact ih.pass rfl rfl fun _ => BitVec.not_lt.1 hlonger
      · exact ih.pass rfl rfl fun h => absurd h husable
      · exact ih.pass rfl rfl fun h => absurd h husable

def TypedEntry.bytes (e : TypedEntry) : Set Word :=
  region e.base e.length.toNat

def Frame.physical (f : Frame) : Set Word :=
  region f.address f.size.toNat

theorem Frame.disjoint_physical {f g : Frame} {hhdmOffset : Word}
    (h : Disjoint (f.bytes hhdmOffset) (g.bytes hhdmOffset)) :
    Disjoint f.physical g.physical := by
  have hmoved := disjoint_region_add (-hhdmOffset) h
  have hback : ∀ a : Word, a + hhdmOffset + -hhdmOffset = a := by
    intro a
    rw [BitVec.add_neg_eq_sub, BitVec.add_sub_cancel]
  rwa [hback, hback] at hmoved

/-- What the bootloader promises of its memory map: usable entries consist of whole
pages, overlap no other entry and lie in the direct map. -/
structure WellFormedMap (map : List TypedEntry) (hhdmOffset : Word) : Prop where
  base_aligned : ∀ e ∈ map, e.type = LIMINE_MEMMAP_USABLE → e.base.toNat % 4096 = 0
  length_aligned : ∀ e ∈ map, e.type = LIMINE_MEMMAP_USABLE →
    e.length.toNat % 4096 = 0
  window : ∀ e ∈ map, e.type = LIMINE_MEMMAP_USABLE →
    e.base.toNat + hhdmOffset.toNat + e.length.toNat < 2 ^ 64
  apart : map.Pairwise fun a b =>
    a.type = LIMINE_MEMMAP_USABLE ∨ b.type = LIMINE_MEMMAP_USABLE →
      Disjoint a.bytes b.bytes

def TypedEntry.region {map : List TypedEntry} {hhdmOffset : Word} (e : TypedEntry)
    (h : WellFormedMap map hhdmOffset) (he : e ∈ map)
    (husable : e.type = LIMINE_MEMMAP_USABLE) (hne : e.base ≠ 0) : UsableRegion where
  start := e.base
  length := e.length
  hhdmOffset := hhdmOffset
  start_ne := hne
  start_aligned := h.base_aligned e he husable
  length_aligned := h.length_aligned e he husable
  physical := by
    have hwindow := h.window e he husable
    omega
  base_ne := by
    have hwindow := h.window e he husable
    bv_omega
  window := by
    have hwindow := h.window e he husable
    rw [BitVec.toNat_add_of_lt (by omega)]
    exact hwindow

def startMachine {τ : Type} (info : StartInfo) (mem : Bytes) (table : τ) :
    FrameMachine τ where
  mem := mem
  globals :=
    { globalBootInfo := ⟨info.memory.toMemory⟩
      head := 0
      freeBlock := 0
      totalMemory := 0
      usedMemory := 0
      bootInformation := BootInfo.zero
      addressSizeHT := table }

/-- All frames are in the entry `e` and in none of the entries `others`, and apart
from each other. -/
structure FramesIn (frames : List Frame) (e : TypedEntry) (others : List TypedEntry) :
    Prop where
  inside : ∀ f ∈ frames, f.physical ⊆ e.bytes
  others : ∀ f ∈ frames, ∀ a ∈ others, Disjoint f.physical a.bytes
  disjoint : frames.Pairwise fun f g => Disjoint f.physical g.physical

theorem WellFormedMap.disjoint {map before after : List TypedEntry} {e a : TypedEntry}
    {hhdmOffset : Word} (hwf : WellFormedMap map hhdmOffset)
    (h : FirstLongest map e before after) (ha : a ∈ before ++ after) :
    Disjoint e.bytes a.bytes := by
  have hapart := hwf.apart
  rw [h.map_eq, List.pairwise_append, List.pairwise_cons] at hapart
  obtain ⟨-, ⟨hafter, -⟩, hbefore⟩ := hapart
  rcases List.mem_append.1 ha with ha | ha
  · exact (hbefore a ha e List.mem_cons_self (.inr h.usable)).symm
  · exact hafter a ha (.inl h.usable)

/-- `_start` chooses the first of the longest usable entries. In a well-formed map
the frames of every run of `allocateFrame` lie in this entry, so that they overlap
no other entry and not each other. -/
theorem frames_of_start {fuel : ℕ} {r : LimineResponses} {info : StartInfo}
    {map : List TypedEntry} (hmap : r.memmap = some map)
    (hstart : start fuel r = .ok info) :
    ∃ e before after, FirstLongest map e before after ∧
      info.memory.freeMemStart = e.base ∧ info.memory.freeMemSize = e.length ∧
      (WellFormedMap map info.memory.hhdmOffset →
        ∀ {τ : Type} (T : SizeTable τ) (fuel' : ℕ) (mem : Bytes) (table : τ)
          (rs : List Word) (s : FrameMachine τ) (frames : List Frame),
          Run (allocateStep T fuel') (startMachine info mem table, []) rs
            (s, frames) → FramesIn frames e (before ++ after)) := by
  obtain ⟨map', kernelAddress, hmap', -, hne, -, hfreeStart, hfreeSize⟩ :=
    start_eq_ok hstart
  obtain rfl : map' = map := Option.some.inj (hmap'.symm.trans hmap)
  rcases scanned_scanMemmap kernelAddress.1 map' with ⟨hzero, -, -⟩ |
    ⟨e, before, after, h, hbase, hsize⟩
  · exact absurd hzero hne
  · refine ⟨e, before, after, h, hfreeStart.trans hbase, hfreeSize.trans hsize, ?_⟩
    intro hwf τ T fuel' mem table rs s frames hrun
    have hbase_ne : e.base ≠ 0 := by
      rwa [← hbase]
    set R := e.region hwf h.mem h.usable hbase_ne
    have hmemory : info.memory.toMemory = ⟨R.start, R.length, R.hhdmOffset⟩ := by
      obtain ⟨⟨⟨⟩⟩⟩ := info
      rw [Memory.mk.injEq]
      exact ⟨hfreeStart.trans hbase, hfreeSize.trans hsize, rfl⟩
    have hmachine : startMachine info mem table = bootMachine R mem table := by
      rw [startMachine, hmemory, bootMachine]
    rw [hmachine] at hrun
    obtain ⟨halloc, hbelow⟩ := allocState_of_run T hrun
    have hinside : ∀ f ∈ frames, f.physical ⊆ e.bytes := by
      intro f hf
      obtain ⟨o, ho, hle⟩ := hbelow.below f hf
      have hlength : o + f.size.toNat ≤ e.length.toNat := hle.trans halloc.used_le
      rw [Frame.physical, ho]
      exact region_subset_of_le e.base hlength (Nat.le_of_lt e.length.isLt)
    refine ⟨hinside, fun f hf a ha => ?_, hbelow.disjoint.imp Frame.disjoint_physical⟩
    exact (hwf.disjoint h ha).mono_left (hinside f hf)

def oneEntryMap : List TypedEntry :=
  [⟨⟨0x100000, 0x10000⟩, LIMINE_MEMMAP_USABLE⟩, ⟨⟨0x110000, 0x5000⟩, 6⟩]

theorem wellFormedMap_oneEntryMap :
    WellFormedMap oneEntryMap 0xffff800000000000 where
  base_aligned := by decide
  length_aligned := by decide
  window := by decide
  apart := by
    have hdisjoint := disjoint_region_of_le (w := 64) 0x100000 (i := 0)
      (n := 0x10000) (j := 0x10000) (k := 0x5000) (by decide) (by decide)
    exact List.pairwise_pair.2 fun _ => hdisjoint

/-- What the bootloader answers on a machine with this map. -/
def oneEntryResponses : LimineResponses where
  terminals := some 1
  framebuffers := some [⟨0xfd000000, 640, 480, 2560⟩]
  memmap := some oneEntryMap
  kernelAddress := some (0x110000, 0xffffffff80000000)
  modules := some [⟨fontName, (0x36, 0x04), 16, fun _ => 0⟩]
  hhdmOffset := some 0xffff800000000000

/-- One page handed out after `_start`. -/
theorem frames_of_start_oneEntryMap :
    ∃ info s, start 20 oneEntryResponses = .ok info ∧
      Run (allocateStep addressSizeTable 0)
        (startMachine info (fun _ => 0) HashTable.zero, []) [1]
        (s, [⟨0x100000, 4096⟩]) ∧
      ∃ e before after, FirstLongest oneEntryMap e before after ∧
        FramesIn [⟨0x100000, 4096⟩] e (before ++ after) := by
  obtain ⟨s, hrun⟩ := allocateFrame_smallRegion fun _ => 0
  have hstart : ∃ info, start 20 oneEntryResponses = .ok info ∧
      info.memory.toMemory = ⟨0x100000, 0x10000, 0xffff800000000000⟩ :=
    ⟨_, rfl, rfl⟩
  obtain ⟨info, hstart, hmemory⟩ := hstart
  have hrun' : Run (allocateStep addressSizeTable 0)
      (startMachine info (fun _ => 0) HashTable.zero, []) [1]
      (s, [⟨0x100000, 4096⟩]) := by
    rw [startMachine, hmemory]
    exact .single ⟨0x100000, hrun, rfl⟩
  have hwf : WellFormedMap oneEntryMap info.memory.hhdmOffset := by
    rw [hmemory]
    exact wellFormedMap_oneEntryMap
  obtain ⟨e, before, after, hfirst, -, -, hframes⟩ := frames_of_start rfl hstart
  exact ⟨info, s, hstart, hrun', e, before, after, hfirst,
    hframes hwf addressSizeTable 0 _ _ _ _ _ hrun'⟩

end OptimistOS
