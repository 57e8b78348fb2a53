import OptimistOS.Acpi.Madt
import Mathlib.Data.List.Pairwise

/-!
# The I/O APICs

`ioapic.cpp`: the search of `getGSI` for the I/O APIC behind a global interrupt.
The version register of an I/O APIC holds the index of its last pin.
`initIOAPIC` programs all pins up to this one, `getGSI` takes the index for the
number of the pins and never finds the last one.

The registers of the devices are a parameter: `registers addr reg` is what
`ioAPICRead` gets from the register `reg` of the device at `addr`.
-/

namespace OptimistOS

open ByteMemory

inductive IoAPICInfo
  | apicID
  | apicAddr
  | gsiBase
  deriving DecidableEq, Repr

def ioAPICInfo : Layout 64 IoAPICInfo where
  offset
    | .apicID => 2
    | .apicAddr => 4
    | .gsiBase => 8
  width
    | .apicID => 1
    | _ => 4
  sizeof := 12
  fits f := by cases f <;> decide
  apart f g h := by cases f <;> cases g <;> simp at h ⊢
  sizeof_le := by decide

inductive MadtIso
  | irqSrc
  | gsi
  | flags
  deriving DecidableEq, Repr

def madtIso : Layout 64 MadtIso where
  offset
    | .irqSrc => 3
    | .gsi => 4
    | .flags => 8
  width
    | .irqSrc => 1
    | .gsi => 4
    | .flags => 2
  sizeof := 12
  fits f := by cases f <;> decide
  apart f g h := by cases f <;> cases g <;> simp at h ⊢
  sizeof_le := by decide

section

variable (registers : BitVec 32 → BitVec 32 → BitVec 32) (m : Bytes)

def ioAPICRead (entry : Addr) (reg : BitVec 32) : BitVec 32 :=
  registers ((ioAPICInfo.get m entry .apicAddr).setWidth 32) reg

def getGSICount (ioapic : Addr) : Word :=
  ((ioAPICRead registers m ioapic 1 &&& 0xff0000) >>> 16).setWidth 64

/-- The test of `getGSI`; the sum is one of 64 bits. -/
def coversGSI (gsi : BitVec 32) (ioapic : Addr) : Prop :=
  ioAPICInfo.get m ioapic .gsiBase ≤ gsi.setWidth 64 ∧
    gsi.setWidth 64 <
      ioAPICInfo.get m ioapic .gsiBase + getGSICount registers m ioapic

instance (gsi : BitVec 32) : DecidablePred (coversGSI registers m gsi) :=
  fun _ => inferInstanceAs (Decidable (_ ∧ _))

def getGSILoop (g : MadtGlobals) (gsi : BitVec 32) : ℕ → ℕ → Addr
  | 0, _ => 0
  | n + 1, i =>
      let ioapic := g.madtInformationList i
      if coversGSI registers m gsi ioapic then ioapic
      else getGSILoop g gsi n (i + 1)

def getGSI (g : MadtGlobals) (gsi : BitVec 32) : Addr :=
  getGSILoop registers m g gsi g.madtInformation.ioAPICLen.toNat 0

def lastPin (ioapic : Addr) : ℕ :=
  ((ioAPICRead registers m ioapic 1 >>> 16) &&& 0xff).toNat

/-- The number of the first of the two registers of a pin. -/
def redirectionReg (pin : ℕ) : BitVec 32 := 0x10 + 2 * BitVec.ofNat 32 pin

def initIOAPIC (g : MadtGlobals) : Except Stop (List (BitVec 32 × BitVec 32)) :=
  let ioapic := g.madtInformationList 0
  if (ioAPICRead registers m ioapic 0 >>> 24).setWidth 64 ≠
      ioAPICInfo.get m ioapic .apicID then
    .error .halt
  else
    .ok ((List.range (lastPin registers m ioapic + 1)).flatMap fun i =>
      [(redirectionReg i, 0x00010000 ||| (32 + BitVec.ofNat 32 i)),
        (redirectionReg i + 1, 0)])

def OwnsGSI (gsi : BitVec 32) (ioapic : Addr) : Prop :=
  (ioAPICInfo.get m ioapic .gsiBase).toNat ≤ gsi.toNat ∧
    gsi.toNat ≤
      (ioAPICInfo.get m ioapic .gsiBase).toNat + lastPin registers m ioapic

/-- No global interrupt belongs to both I/O APICs. -/
def DisjointRanges (e f : Addr) : Prop :=
  ∀ gsi, ¬ (OwnsGSI registers m gsi e ∧ OwnsGSI registers m gsi f)

instance : Std.Symm (DisjointRanges registers m) :=
  ⟨fun _ _ h gsi hboth => h gsi hboth.symm⟩

/-- `getGSI` returns the I/O APIC that owns the pin of `gsi`, and the null
pointer exactly if there is none. -/
def FindsOwner (g : MadtGlobals) (gsi : BitVec 32) : Prop :=
  (∀ ioapic ∈ ioAPICs g, OwnsGSI registers m gsi ioapic →
      getGSI registers m g gsi = ioapic) ∧
    (getGSI registers m g gsi = 0 ↔
      ∀ ioapic ∈ ioAPICs g, ¬ OwnsGSI registers m gsi ioapic)

end

variable {registers : BitVec 32 → BitVec 32 → BitVec 32} {m : Bytes}
  {g : MadtGlobals} {gsi : BitVec 32} {ioapic : Addr}

theorem toNat_getGSICount (registers : BitVec 32 → BitVec 32 → BitVec 32)
    (m : Bytes) (ioapic : Addr) :
    (getGSICount registers m ioapic).toNat = lastPin registers m ioapic := by
  have hmask : (0xff0000 : BitVec 32) >>> 16 = 0xff := by decide
  rw [getGSICount, lastPin, BitVec.ushiftRight_and_distrib, hmask,
    BitVec.toNat_setWidth_of_le (by decide)]

theorem lastPin_lt (registers : BitVec 32 → BitVec 32 → BitVec 32) (m : Bytes)
    (ioapic : Addr) : lastPin registers m ioapic < 256 := by
  rw [lastPin, BitVec.toNat_and]
  exact lt_of_le_of_lt Nat.and_le_right (by decide)

theorem coversGSI_iff : coversGSI registers m gsi ioapic ↔
    OwnsGSI registers m gsi ioapic ∧
      gsi.toNat ≠ (ioAPICInfo.get m ioapic .gsiBase).toNat +
        lastPin registers m ioapic := by
  have hbase := ioAPICInfo.get_toNat_lt m ioapic .gsiBase
  have hwidth : 256 ^ ioAPICInfo.width .gsiBase = 2 ^ 32 := by decide
  have hlast := lastPin_lt registers m ioapic
  have hsum : (ioAPICInfo.get m ioapic .gsiBase +
      getGSICount registers m ioapic).toNat =
        (ioAPICInfo.get m ioapic .gsiBase).toNat +
          lastPin registers m ioapic := by
    rw [BitVec.toNat_add_of_lt (by rw [toNat_getGSICount]; omega),
      toNat_getGSICount]
  rw [coversGSI, OwnsGSI, BitVec.le_def, BitVec.lt_def, hsum,
    BitVec.toNat_setWidth_of_le (by decide)]
  omega

theorem getGSILoop_eq (n i : ℕ) : getGSILoop registers m g gsi n i =
    ((((List.range' i n).map g.madtInformationList).find? fun ioapic =>
      coversGSI registers m gsi ioapic)).getD 0 := by
  induction n generalizing i with
  | zero => rfl
  | succ n ih =>
      rw [getGSILoop, List.range'_succ, List.map_cons, List.find?_cons]
      by_cases h : coversGSI registers m gsi (g.madtInformationList i)
      · simp [h]
      · simp [h, ih]

theorem getGSI_eq : getGSI registers m g gsi =
    ((ioAPICs g).find? fun ioapic => coversGSI registers m gsi ioapic).getD 0 := by
  rw [getGSI, getGSILoop_eq, ioAPICs, List.range_eq_range']

/-- `initIOAPIC` writes the register of a pin exactly if the first I/O APIC has
this pin. -/
theorem redirectionReg_mem_initIOAPIC {ws : List (BitVec 32 × BitVec 32)}
    (h : initIOAPIC registers m g = .ok ws) {pin : ℕ} (hpin : pin < 2 ^ 30) :
    redirectionReg pin ∈ ws.map Prod.fst ↔
      pin ≤ lastPin registers m (g.madtInformationList 0) := by
  have hlast := lastPin_lt registers m (g.madtInformationList 0)
  have hreg : ∀ i < 2 ^ 30, (redirectionReg i).toNat = 16 + 2 * i ∧
      (redirectionReg i + 1).toNat = 17 + 2 * i := by
    intro i hi
    rw [redirectionReg]
    constructor <;> bv_omega
  rw [initIOAPIC] at h
  split_ifs at h with hID
  obtain rfl := Except.ok.inj h
  simp only [List.map_flatMap, List.mem_flatMap, List.mem_range, List.map_cons,
    List.map_nil, List.mem_cons, List.not_mem_nil, or_false]
  constructor
  · rintro ⟨i, hi, heq | heq⟩
    · have hnat := congrArg BitVec.toNat heq
      rw [(hreg pin hpin).1, (hreg i (by omega)).1] at hnat
      omega
    · have hnat := congrArg BitVec.toNat heq
      rw [(hreg pin hpin).1, (hreg i (by omega)).2] at hnat
      omega
  · exact fun hle => ⟨pin, by omega, Or.inl rfl⟩

theorem not_findsOwner_of_lastPin (hne : ∀ e ∈ ioAPICs g, e ≠ 0)
    (hmem : ioapic ∈ ioAPICs g)
    (hlast : gsi.toNat = (ioAPICInfo.get m ioapic .gsiBase).toNat +
      lastPin registers m ioapic) : ¬ FindsOwner registers m g gsi := by
  rintro ⟨howner, -⟩
  have hget := howner ioapic hmem ⟨by omega, by omega⟩
  rw [getGSI_eq] at hget
  cases hfind : (ioAPICs g).find? fun e => coversGSI registers m gsi e with
  | none =>
      rw [hfind] at hget
      exact hne ioapic hmem hget.symm
  | some e =>
      rw [hfind] at hget
      obtain rfl : e = ioapic := hget
      have hcovers := List.find?_some hfind
      exact (coversGSI_iff.1 (of_decide_eq_true hcovers)).2 hlast

/-- `getGSI` finds the owner of a pin exactly if this is not the last pin of an
I/O APIC. -/
theorem findsOwner_iff (hne : ∀ e ∈ ioAPICs g, e ≠ 0)
    (hdisjoint : (ioAPICs g).Pairwise (DisjointRanges registers m))
    (gsi : BitVec 32) :
    FindsOwner registers m g gsi ↔ ∀ e ∈ ioAPICs g,
      gsi.toNat ≠ (ioAPICInfo.get m e .gsiBase).toNat +
        lastPin registers m e := by
  refine ⟨fun h e he hlast => not_findsOwner_of_lastPin hne he hlast h,
    fun hlast => ?_⟩
  have htest : ∀ e ∈ ioAPICs g, (coversGSI registers m gsi e ↔
      OwnsGSI registers m gsi e) := fun e he => by
    rw [coversGSI_iff, and_iff_left (hlast e he)]
  rw [FindsOwner, getGSI_eq]
  cases hfind : (ioAPICs g).find? fun e => coversGSI registers m gsi e with
  | none =>
      have hnone : ∀ e ∈ ioAPICs g, ¬ OwnsGSI registers m gsi e :=
        fun e he howns => by
          have hnot := List.find?_eq_none.1 hfind e he
          exact hnot (decide_eq_true ((htest e he).2 howns))
      exact ⟨fun e he howns => absurd howns (hnone e he),
        iff_of_true rfl hnone⟩
  | some e =>
      have he := List.mem_of_find?_eq_some hfind
      have hcovers := List.find?_some hfind
      have howns := (htest e he).1 (of_decide_eq_true hcovers)
      refine ⟨fun f hf hf' => ?_, iff_of_false (hne e he)
        fun hnone => hnone e he howns⟩
      by_contra hef
      exact hdisjoint.forall he hf hef gsi ⟨howns, hf'⟩

/-- One I/O APIC with 24 pins. -/
def oneIOAPIC : MadtGlobals where
  madtInformationList _ := 0x1000
  madtISOList _ := 0
  madtInformation := ⟨1, 0, 0⟩

theorem ne_zero_oneIOAPIC : ∀ e ∈ ioAPICs oneIOAPIC, e ≠ 0 := by
  intro e he
  obtain rfl : e = 0x1000 := by simpa [ioAPICs, oneIOAPIC] using he
  decide

/-- Its pin 5 is found. -/
theorem findsOwner_iff_oneIOAPIC :
    FindsOwner (fun _ _ => 0x00170020) (fun _ => 0) oneIOAPIC 5 := by
  refine (findsOwner_iff ne_zero_oneIOAPIC ?_ 5).2 fun e he => ?_
  · exact List.pairwise_singleton _ _
  · obtain rfl : e = 0x1000 := by simpa [ioAPICs, oneIOAPIC] using he
    decide

/-- Its pin 23 is not. -/
theorem not_findsOwner_oneIOAPIC :
    (∀ e ∈ ioAPICs oneIOAPIC, e ≠ 0) ∧
      (ioAPICs oneIOAPIC).Pairwise
        (DisjointRanges (fun _ _ => 0x00170020) fun _ => 0) ∧
      ¬ FindsOwner (fun _ _ => 0x00170020) (fun _ => 0) oneIOAPIC 23 :=
  ⟨ne_zero_oneIOAPIC, List.pairwise_singleton _ _,
    not_findsOwner_of_lastPin ne_zero_oneIOAPIC
      (List.mem_singleton_self 0x1000) (by decide)⟩

end OptimistOS
