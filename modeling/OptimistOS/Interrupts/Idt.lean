import OptimistOS.Foundation.LastSet
import OptimistOS.Foundation.Masks
import OptimistOS.Interrupts.IsrStub

/-!
# The interrupt descriptor table

`setIDTGate` (`idt.cpp`) cuts the address of a handler into three members of a
packed record of 16 bytes, from which the processor puts it together again.
`isrInstall` (`isr.cpp`) fills all 256 gates from `int_table` and loads `idtr`.

In every run of the functions that write the table and the handlers, the
processor delivers an interrupt to the handler that its gate was last set to
(`delivers_of_run`). After `isrInstall` this is the stub of the vector, except
that vector 32 goes to `pitHandler` itself.
-/

namespace OptimistOS

open ByteMemory Transition

inductive IdtEntry
  | offsetLow
  | segmentSelector
  | reserved
  | attributes
  | offsetMiddle
  | offsetHigh
  | reserved2
  deriving DecidableEq, Repr

def IdtEntry.members : List IdtEntry :=
  [.offsetLow, .segmentSelector, .reserved, .attributes, .offsetMiddle,
    .offsetHigh, .reserved2]

theorem IdtEntry.mem_members (f : IdtEntry) : f ∈ IdtEntry.members := by
  cases f <;> decide

theorem IdtEntry.sizeof_le : 16 ≤ 2 ^ 64 := by
  decide

def idtEntry : Layout 64 IdtEntry where
  offset
    | .offsetLow => 0
    | .segmentSelector => 2
    | .reserved => 4
    | .attributes => 5
    | .offsetMiddle => 6
    | .offsetHigh => 8
    | .reserved2 => 12
  width
    | .offsetLow | .segmentSelector | .offsetMiddle => 2
    | .reserved | .attributes => 1
    | .offsetHigh | .reserved2 => 4
  sizeof := 16
  fits f := by cases f <;> decide
  apart f g h := by cases f <;> cases g <;> simp at h ⊢
  sizeof_le := IdtEntry.sizeof_le

def idtSlot (idtEntries : Addr) (gateNumber : BitVec 8) : Addr :=
  idtEntries + BitVec.ofNat 64 (16 * gateNumber.toNat)

def setIDTGateEntry (gateAddr : Word) : IdtEntry → Word
  | .offsetLow => gateAddr &&& 0xFFFF#64
  | .segmentSelector => 0x28
  | .reserved => 0
  | .attributes => 0x8E
  | .offsetMiddle => (gateAddr >>> 16) &&& 0xFFFF#64
  | .offsetHigh => (gateAddr >>> 32) &&& 0xFFFFFFFF#64
  | .reserved2 => 0

def setIDTGate (idtEntries : Addr) (gateNumber : BitVec 8) (gateAddr : Word)
    (mem : Bytes) : Bytes :=
  idtEntry.write (idtSlot idtEntries gateNumber) (setIDTGateEntry gateAddr)
    IdtEntry.members mem

structure Gate where
  offset : Word
  selector : BitVec 16
  ist : BitVec 3
  type : BitVec 4
  dpl : BitVec 2
  present : Bool
  deriving DecidableEq, Repr

def gateAt (mem : Bytes) (p : Addr) : Gate where
  offset := idtEntry.get mem p .offsetLow |||
    idtEntry.get mem p .offsetMiddle <<< 16 |||
    idtEntry.get mem p .offsetHigh <<< 32
  selector := (idtEntry.get mem p .segmentSelector).setWidth 16
  ist := (idtEntry.get mem p .reserved).setWidth 3
  type := (idtEntry.get mem p .attributes).setWidth 4
  dpl := (idtEntry.get mem p .attributes >>> 5).setWidth 2
  present := (idtEntry.get mem p .attributes).getLsbD 7

def kernelGate (handler : Word) : Gate :=
  ⟨handler, 0x28, 0, 0xE, 0, true⟩

structure IdtPtrStruct where
  limit : BitVec 16
  base : Addr
  deriving DecidableEq, Repr

/-- The delivery of interrupt `n` through the table, by a processor whose `idtr`
is `idtr`. There is none without a present interrupt gate within the limit. -/
def deliverThrough (idtr : IdtPtrStruct) (n : BitVec 8) (errorCode : Word)
    (rsp0 : Option Addr) (c : Cpu) : Option Cpu :=
  let gate := gateAt c.mem (idtSlot idtr.base n)
  if 16 * n.toNat + 15 ≤ idtr.limit.toNat ∧ gate.present = true ∧
      gate.type = 0xE ∧ gate.ist = 0 then
    some { deliver n errorCode rsp0 c with
      cs := gate.selector
      rip := gate.offset }
  else
    none

theorem or_parts (a : Word) :
    a &&& 0xFFFF#64 ||| ((a >>> 16) &&& 0xFFFF#64) <<< 16 |||
      ((a >>> 32) &&& 0xFFFFFFFF#64) <<< 32 = a := by
  have hhigh : (a >>> 32) &&& 0xFFFFFFFF#64 = a >>> 32 := by
    apply and_mask_eq_self (k := 32)
    rw [BitVec.toNat_ushiftRight, Nat.shiftRight_eq_div_pow]
    omega
  have hmiddle : (a >>> 16) &&& 0xFFFF#64 ||| (a >>> 32) <<< 16 = a >>> 16 :=
    and_mask_or_shift (a >>> 16) 16
  have hlow : a &&& 0xFFFF#64 ||| (a >>> 16) <<< 16 = a := and_mask_or_shift a 16
  rw [← hmiddle, BitVec.shiftLeft_or_distrib, ← BitVec.shiftLeft_add,
    ← BitVec.or_assoc] at hlow
  rw [hhigh]
  exact hlow

theorem setIDTGateEntry_lt (gateAddr : Word) (f : IdtEntry) :
    (setIDTGateEntry gateAddr f).toNat < 256 ^ idtEntry.width f := by
  have hand : ∀ x y : Word, (x &&& y).toNat ≤ y.toNat := fun x y => by
    rw [BitVec.toNat_and]
    exact Nat.and_le_right
  cases f with
  | offsetLow | offsetMiddle | offsetHigh =>
      exact lt_of_le_of_lt (hand _ _) (by decide)
  | segmentSelector | reserved | attributes | reserved2 =>
      simp [setIDTGateEntry, idtEntry]

theorem gateAt_setIDTGate (idtEntries : Addr) (n : BitVec 8) (handler : Word)
    (mem : Bytes) :
    gateAt (setIDTGate idtEntries n handler mem) (idtSlot idtEntries n) =
      kernelGate handler := by
  have hget : ∀ f, idtEntry.get (setIDTGate idtEntries n handler mem)
      (idtSlot idtEntries n) f = setIDTGateEntry handler f := fun f =>
    idtEntry.get_write _ mem f.mem_members (setIDTGateEntry_lt handler f)
  simp only [gateAt, hget, setIDTGateEntry]
  rw [or_parts]
  rfl

def idtTable (idtEntries : Addr) : Set Addr :=
  region idtEntries (16 * 256)

theorem recordRegion_idtSlot_subset (idtEntries : Addr) (n : BitVec 8) :
    idtEntry.recordRegion (idtSlot idtEntries n) ⊆ idtTable idtEntries := by
  have hn := n.isLt
  have hsize : idtEntry.sizeof = 16 := rfl
  exact region_subset_of_le idtEntries (by omega) (by decide)

theorem disjoint_idtSlot (idtEntries : Addr) {n m : BitVec 8} (h : n ≠ m) :
    Disjoint (idtEntry.recordRegion (idtSlot idtEntries n))
      (idtEntry.recordRegion (idtSlot idtEntries m)) := by
  have hn := n.isLt
  have hm := m.isLt
  have hsize : idtEntry.sizeof = 16 := rfl
  have hne : n.toNat ≠ m.toNat := fun heq => h (BitVec.eq_of_toNat_eq heq)
  rcases Nat.lt_or_gt_of_ne hne with hlt | hgt
  · exact disjoint_region_of_le idtEntries (by omega) (by omega)
  · exact (disjoint_region_of_le idtEntries (by omega) (by omega)).symm

theorem gateAt_congr {s : Set Addr} {mem mem' : Bytes} {p : Addr}
    (h : AgreeOff s mem mem') (hs : Disjoint (idtEntry.recordRegion p) s) :
    gateAt mem' p = gateAt mem p := by
  have hget := fun f => idtEntry.get_congr h p f hs
  simp only [gateAt, hget]

theorem gateAt_setIDTGate_of_ne (idtEntries : Addr) {n m : BitVec 8}
    (handler : Word) (mem : Bytes) (h : n ≠ m) :
    gateAt (setIDTGate idtEntries m handler mem) (idtSlot idtEntries n) =
      gateAt mem (idtSlot idtEntries n) :=
  gateAt_congr (idtEntry.agreeOff_write _ _ _ mem) (disjoint_idtSlot _ h)

/-- Where the linker has placed the table and the handlers. -/
structure IdtSymbols where
  idtEntries : Addr
  pitHandler : Word
  isr13 : Word

/-- The variables of `idt.cpp` and `isr.cpp` and what the processor has loaded of
them. -/
structure IdtState where
  mem : Bytes
  intTable : BitVec 8 → Word
  handlers : BitVec 8 → Word
  idtPtr : IdtPtrStruct
  wasInit : Bool
  idtr : IdtPtrStruct
  interrupts : Bool

namespace IdtState

def idtInit (L : IdtSymbols) (s : IdtState) : IdtState :=
  let idtPtr : IdtPtrStruct := ⟨16 * 256 - 1, L.idtEntries⟩
  { s with idtPtr := idtPtr, idtr := idtPtr, wasInit := true }

def idtInitAgain (s : IdtState) : IdtState :=
  { s with idtr := s.idtPtr, interrupts := true }

/-- The first `n` iterations of the loop of `isrInstall`. -/
def setGates (L : IdtSymbols) (s : IdtState) (n : ℕ) : Bytes :=
  (List.range n).foldl (fun mem i => setIDTGate L.idtEntries (BitVec.ofNat 8 i)
    (s.intTable (BitVec.ofNat 8 i)) mem) s.mem

def isrInstall (L : IdtSymbols) (s : IdtState) : IdtState :=
  let s := { s with
    intTable := Function.update s.intTable 32 L.pitHandler
    interrupts := false
    handlers := Function.update s.handlers 0xd L.isr13 }
  let s := { s with mem := s.setGates L 256 }
  let s := if s.wasInit then s.idtInitAgain else s.idtInit L
  { s with interrupts := true }

end IdtState

inductive IdtEvent
  | setIDTGate (gateNumber : BitVec 8) (gateAddr : Word)
  | isrInstall
  /-- `pitInit` sets the handler of vector 32. -/
  | pitInit
  | unregisterIRQ (vec : BitVec 8)
  /-- Anything that leaves the table alone. -/
  | elsewhere

/-- One call. -/
inductive IdtStep (L : IdtSymbols) : IdtState → IdtEvent → IdtState → Prop
  | setIDTGate (s : IdtState) (gateNumber : BitVec 8) (gateAddr : Word) :
      IdtStep L s (.setIDTGate gateNumber gateAddr)
        { s with mem := setIDTGate L.idtEntries gateNumber gateAddr s.mem }
  | isrInstall (s : IdtState) : IdtStep L s .isrInstall (s.isrInstall L)
  | pitInit (s : IdtState) : IdtStep L s .pitInit
      { s with
        interrupts := true
        handlers := Function.update s.handlers 32 L.pitHandler }
  | unregisterIRQ (s : IdtState) (vec : BitVec 8) :
      IdtStep L s (.unregisterIRQ vec)
        { s with handlers := Function.update s.handlers vec 0 }
  | elsewhere (s : IdtState) {mem : Bytes}
      (h : AgreeOff (idtTable L.idtEntries)ᶜ s.mem mem) :
      IdtStep L s .elsewhere { s with mem := mem }

namespace IdtEvent

/-- The handler that a call sets the gate of vector `n` to. The stubs are at
`stub`. -/
def sets (L : IdtSymbols) (stub : BitVec 8 → Word) :
    IdtEvent → BitVec 8 → Option Word
  | .setIDTGate m handler, n => if m = n then some handler else none
  | .isrInstall, n => some (if n = 32 then L.pitHandler else stub n)
  | _, _ => none

def loads (L : IdtSymbols) : IdtEvent → Unit → Option IdtPtrStruct
  | .isrInstall, _ => some ⟨16 * 256 - 1, L.idtEntries⟩
  | _, _ => none

end IdtEvent

theorem gateAt_setGates (L : IdtSymbols) (s : IdtState) {n : ℕ} (hn : n ≤ 256)
    {m : BitVec 8} (hm : m.toNat < n) :
    gateAt (s.setGates L n) (idtSlot L.idtEntries m) =
      kernelGate (s.intTable m) := by
  induction n with
  | zero => exact absurd hm (Nat.not_lt_zero _)
  | succ n ih =>
      rw [IdtState.setGates, List.range_succ, List.foldl_concat]
      by_cases heq : m = BitVec.ofNat 8 n
      · rw [heq]
        exact gateAt_setIDTGate _ _ _ _
      · have hne : m.toNat ≠ n := fun h => heq (by rw [← h, BitVec.ofNat_toNat,
          BitVec.setWidth_eq])
        rw [gateAt_setIDTGate_of_ne _ _ _ heq]
        exact ih (by omega) (by omega)

/-- `int_table` leads to the stubs, and `idtPtr` to the table once it is set. -/
structure IdtReady (L : IdtSymbols) (stub : BitVec 8 → Word) (s : IdtState) :
    Prop where
  intTable : ∀ n, n ≠ 32 → s.intTable n = stub n
  idtPtr : s.wasInit = true → s.idtPtr = ⟨16 * 256 - 1, L.idtEntries⟩

/-- The step from `s` to `s'` has set what its label says. -/
structure SetsTable (L : IdtSymbols) (stub : BitVec 8 → Word) (e : IdtEvent)
    (s s' : IdtState) : Prop where
  ready : IdtReady L stub s'
  gate : ∀ n, gateAt s'.mem (idtSlot L.idtEntries n) =
    ((e.sets L stub n).map kernelGate).getD
      (gateAt s.mem (idtSlot L.idtEntries n))
  idtr : s'.idtr = (e.loads L ()).getD s.idtr

namespace IdtReady

variable {L : IdtSymbols} {stub : BitVec 8 → Word} {s s' : IdtState}

/-- `isrInstall` sets all gates. -/
theorem isrInstall (h : IdtReady L stub s) :
    SetsTable L stub .isrInstall s (s.isrInstall L) := by
  have hgates := fun m : BitVec 8 => gateAt_setGates L { s with
    intTable := Function.update s.intTable 32 L.pitHandler
    interrupts := false
    handlers := Function.update s.handlers 0xd L.isr13 } le_rfl m.isLt
  have hmem : ∀ m, gateAt (s.isrInstall L).mem (idtSlot L.idtEntries m) =
      kernelGate (Function.update s.intTable 32 L.pitHandler m) := by
    intro m
    rw [← hgates m]
    cases hinit : s.wasInit <;>
      simp only [IdtState.isrInstall, IdtState.idtInit, IdtState.idtInitAgain,
        hinit, if_true, if_false, Bool.false_eq_true]
  have hptr : (s.isrInstall L).idtPtr = ⟨16 * 256 - 1, L.idtEntries⟩ ∧
      (s.isrInstall L).idtr = ⟨16 * 256 - 1, L.idtEntries⟩ ∧
      (s.isrInstall L).intTable =
        Function.update s.intTable 32 L.pitHandler := by
    cases hinit : s.wasInit
    · simp only [IdtState.isrInstall, IdtState.idtInit, hinit, if_false,
        Bool.false_eq_true, and_self]
    · simp only [IdtState.isrInstall, IdtState.idtInitAgain, hinit, if_true,
        h.idtPtr hinit, and_self]
  obtain ⟨hidtPtr, hidtr, htable⟩ := hptr
  refine ⟨⟨fun n hn => ?_, fun _ => hidtPtr⟩, fun n => ?_, hidtr⟩
  · rw [htable, Function.update_of_ne hn]
    exact h.intTable n hn
  · rw [hmem, IdtEvent.sets, Option.map_some, Option.getD_some]
    split_ifs with hn
    · rw [hn, Function.update_self]
    · rw [Function.update_of_ne hn, h.intTable n hn]

theorem step {e : IdtEvent} (h : IdtReady L stub s) (hstep : IdtStep L s e s') :
    SetsTable L stub e s s' := by
  cases hstep with
  | isrInstall => exact h.isrInstall
  | pitInit | unregisterIRQ => exact ⟨⟨h.intTable, h.idtPtr⟩, fun _ => rfl, rfl⟩
  | elsewhere hmem =>
      refine ⟨⟨h.intTable, h.idtPtr⟩, fun n => ?_, rfl⟩
      apply gateAt_congr hmem
      exact Set.disjoint_compl_right_iff_subset.2
        (recordRegion_idtSlot_subset _ n)
  | setIDTGate m handler =>
      refine ⟨⟨h.intTable, h.idtPtr⟩, fun n => ?_, rfl⟩
      rw [IdtEvent.sets]
      split_ifs with hn
      · rw [← hn]
        exact gateAt_setIDTGate _ _ _ _
      · exact gateAt_setIDTGate_of_ne _ _ _ (Ne.symm hn)

end IdtReady

/-- In every run that has been through `isrInstall`, an interrupt is delivered to
the handler that its gate was last set to, with the processor as it is when the
stubs are entered. -/
theorem delivers_of_run {L : IdtSymbols} {stub : BitVec 8 → Word}
    {s₀ s : IdtState} {es : List IdtEvent} (hstub : s₀.intTable = stub)
    (hinit : s₀.wasInit = false) (hrun : Run (IdtStep L) s₀ es s)
    (hinstall : .isrInstall ∈ es) (n : BitVec 8) (errorCode : Word)
    (rsp0 : Option Addr) (c : Cpu) (hmem : c.mem = s.mem) :
    ∃ handler, lastSet (IdtEvent.sets L stub) es n = some handler ∧
      deliverThrough s.idtr n errorCode rsp0 c =
        some { deliver n errorCode rsp0 c with rip := handler } := by
  have hstart : IdtReady L stub s₀ :=
    ⟨fun n _ => congrFun hstub n,
      fun h => absurd (hinit.symm.trans h) Bool.false_ne_true⟩
  have hgateStep : ∀ s e s', IdtReady L stub s → IdtStep L s e s' →
      IdtReady L stub s' ∧ ∀ n ∈ Set.univ,
        gateAt s'.mem (idtSlot L.idtEntries n) =
          ((e.sets L stub n).map kernelGate).getD
            (gateAt s.mem (idtSlot L.idtEntries n)) :=
    fun _ _ _ h hstep => ⟨(h.step hstep).ready, fun n _ => (h.step hstep).gate n⟩
  have hidtrStep : ∀ s e s', IdtReady L stub s → IdtStep L s e s' →
      IdtReady L stub s' ∧ ∀ u ∈ Set.univ,
        s'.idtr = (e.loads L u).getD s.idtr :=
    fun _ _ _ h hstep => ⟨(h.step hstep).ready, fun _ _ => (h.step hstep).idtr⟩
  obtain ⟨-, hgates⟩ := hrun.lastSet (Set.univ : Set (BitVec 8))
    (fun (e : IdtEvent) n => (e.sets L stub n).map kernelGate)
    (fun (s : IdtState) n => gateAt s.mem (idtSlot L.idtEntries n))
    (IdtReady L stub) hstart hgateStep
  obtain ⟨-, hidtr⟩ := hrun.lastSet (Set.univ : Set Unit) (IdtEvent.loads L)
    (fun (s : IdtState) _ => s.idtr) (IdtReady L stub) hstart hidtrStep
  obtain ⟨handler, hlast, -⟩ := exists_lastSet (IdtEvent.sets L stub) n hinstall rfl
  obtain ⟨idtr, hload, e, -, he⟩ := exists_lastSet (IdtEvent.loads L) () hinstall rfl
  obtain rfl : ⟨16 * 256 - 1, L.idtEntries⟩ = idtr := by
    cases e with
    | isrInstall => exact Option.some.inj he
    | _ => exact absurd he (by simp [IdtEvent.loads])
  have hgate := hgates n trivial
  rw [lastSet_map, hlast, Option.map_some, Option.getD_some] at hgate
  have hn := n.isLt
  have hlimit : 16 * n.toNat + 15 ≤ (16 * 256 - 1 : BitVec 16).toNat := by
    change _ ≤ 4095
    omega
  refine ⟨handler, hlast, ?_⟩
  rw [deliverThrough, hidtr () trivial, hload, Option.getD_some, hmem, hgate]
  exact if_pos ⟨hlimit, rfl, rfl, rfl⟩

def kernelSymbols : IdtSymbols :=
  ⟨0xffffffff80020000, 0xffffffff80004000, 0xffffffff80005000⟩

def kernelStub (n : BitVec 8) : Word :=
  0xffffffff80010000 + BitVec.ofNat 64 (16 * n.toNat)

/-- The variables before `isrInstall`. -/
def bootIdt : IdtState where
  mem _ := 0
  intTable := kernelStub
  handlers _ := 0
  idtPtr := ⟨0, 0⟩
  wasInit := false
  idtr := ⟨0, 0⟩
  interrupts := false

/-- Interrupt 33 goes to its stub after `isrInstall`, with another gate set
afterwards. -/
theorem delivers_of_run_bootIdt :
    ∃ s c, Run (IdtStep kernelSymbols) bootIdt
        [.isrInstall, .setIDTGate 34 0xffffffff80006000] s ∧
      deliverThrough s.idtr 33 0 none c =
        some { deliver 33 0 none c with rip := 0xffffffff80010210 } := by
  obtain ⟨s, hrun⟩ : ∃ s, Run (IdtStep kernelSymbols) bootIdt
      [.isrInstall, .setIDTGate 34 0xffffffff80006000] s :=
    ⟨_, (Run.single (.isrInstall bootIdt)).snoc (.setIDTGate _ _ _)⟩
  refine ⟨s, { kernelContext with mem := s.mem }, hrun, ?_⟩
  obtain ⟨handler, hlast, hdeliver⟩ := delivers_of_run rfl rfl hrun (by simp) 33 0
    none { kernelContext with mem := s.mem } rfl
  obtain rfl : (0xffffffff80010210 : Word) = handler := by
    refine Option.some.inj (Eq.trans ?_ hlast)
    decide
  exact hdeliver

end OptimistOS
