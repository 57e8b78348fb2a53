import OptimistOS.Acpi.IoApic
import OptimistOS.Foundation.Masks
import OptimistOS.Foundation.RegisterWindows

/-!
# The redirection of interrupts

`ioapic.cpp` on the registers of the I/O APICs: every access selects a register
first, reads as well. `redirectIRQ` looks for the first interrupt source override
of its IRQ, as `getRedirectIRQ` does, and programs the redirection entry of its
global interrupt, on the I/O APIC that `getGSI` finds. No other redirection entry
changes (`redirectIRQ_redirects`).
-/

namespace OptimistOS

open ByteMemory RegisterWindow

def apicAddr (m : Bytes) (entry : Addr) : BitVec 32 :=
  (ioAPICInfo.get m entry .apicAddr).setWidth 32

def gsiBase (m : Bytes) (ioapic : Addr) : BitVec 32 :=
  (ioAPICInfo.get m ioapic .gsiBase).setWidth 32

/-- The I/O APICs on the bus. The upper bits of the select register are not
used. -/
abbrev Devices := Bus 32 8 32

def IOAPIC_REGSEL : BitVec 32 := 0x0

def IOAPIC_IOWIN : BitVec 32 := 0x10

namespace Mmio

def ioAPICRead (m : Bytes) (entry : Addr) (reg : BitVec 32) (d : Devices) :
    BitVec 32 × Devices :=
  let d := Bus.write IOAPIC_IOWIN (apicAddr m entry + IOAPIC_REGSEL) reg d
  (Bus.read IOAPIC_IOWIN (apicAddr m entry + IOAPIC_IOWIN) d, d)

def ioAPICWrite (m : Bytes) (entry : Addr) (reg value : BitVec 32) (d : Devices) :
    Devices :=
  let d := Bus.write IOAPIC_IOWIN (apicAddr m entry + IOAPIC_REGSEL) reg d
  Bus.write IOAPIC_IOWIN (apicAddr m entry + IOAPIC_IOWIN) value d

def getGSICount (m : Bytes) (ioapic : Addr) (d : Devices) : Word × Devices :=
  let r := ioAPICRead m ioapic 1 d
  (((r.1 &&& 0xff0000) >>> 16).setWidth 64, r.2)

/-- The loop of `getGSI` at the index `i`, with `n` entries left. The second
operand of `&&` is only evaluated when the first one is true. -/
def getGSILoop (m : Bytes) (g : MadtGlobals) (gsi : BitVec 32) :
    ℕ → ℕ → Devices → Addr × Devices
  | 0, _, d => (0, d)
  | n + 1, i, d =>
      let ioapic := g.madtInformationList i
      if ioAPICInfo.get m ioapic .gsiBase ≤ gsi.setWidth 64 then
        let r := getGSICount m ioapic d
        if gsi.setWidth 64 < ioAPICInfo.get m ioapic .gsiBase + r.1 then
          (ioapic, r.2)
        else getGSILoop m g gsi n (i + 1) r.2
      else getGSILoop m g gsi n (i + 1) d

def getGSI (m : Bytes) (g : MadtGlobals) (gsi : BitVec 32) (d : Devices) :
    Addr × Devices :=
  getGSILoop m g gsi g.madtInformation.ioAPICLen.toNat 0 d

end Mmio

def redirectWord (lapicID : BitVec 32) (vec : BitVec 8) (flags : BitVec 16)
    (mask : Bool) : Word :=
  let redirect : Word := vec.setWidth 64
  let redirect := if flags &&& 1#16 <<< 1 ≠ 0 then redirect ||| 1#64 <<< 13
    else redirect
  let redirect := if flags &&& 1#16 <<< 3 ≠ 0 then redirect ||| 1#64 <<< 15
    else redirect
  let redirect := if mask then redirect ||| 1#64 <<< 16
    else redirect &&& ~~~(1#64 <<< 16)
  redirect ||| lapicID.setWidth 64 <<< 56

def redirectGSI (m : Bytes) (g : MadtGlobals) (lapicID : BitVec 32)
    (vec : BitVec 8) (gsi : BitVec 32) (flags : BitVec 16) (mask : Bool)
    (d : Devices) : Devices :=
  let found := Mmio.getGSI m g gsi d
  let redirect := redirectWord lapicID vec flags mask
  let redir_table := (gsi - gsiBase m found.1) * 2 + 16
  let d := Mmio.ioAPICWrite m found.1 redir_table (redirect.setWidth 32) found.2
  Mmio.ioAPICWrite m found.1 (redir_table + 1) ((redirect >>> 32).setWidth 32) d

/-- The loop over the overrides that both `redirectIRQ` and `getRedirectIRQ`
make, from `idx` on: the override at which it stops, if there is one. -/
def searchISO (m : Bytes) (g : MadtGlobals) (irq : BitVec 8) :
    ℕ → BitVec 8 → Option (Option Addr)
  | 0, _ => none
  | fuel + 1, idx =>
      if idx.setWidth 32 < g.madtInformation.madtISOLen then
        let iso := g.madtISOList idx.toNat
        if madtIso.get m iso .irqSrc = irq.setWidth 64 then some (some iso)
        else searchISO m g irq fuel (idx + 1)
      else some none

def isoGSI (m : Bytes) (irq : BitVec 8) : Option Addr → BitVec 32
  | some iso => (madtIso.get m iso .gsi).setWidth 32
  | none => irq.setWidth 32

def isoFlags (m : Bytes) : Option Addr → BitVec 16
  | some iso => (madtIso.get m iso .flags).setWidth 16
  | none => 0

def redirectIRQ (m : Bytes) (g : MadtGlobals) (fuel : ℕ) (lapicID : BitVec 32)
    (vec irq : BitVec 8) (mask : Bool) (d : Devices) : Option Devices := do
  let iso ← searchISO m g irq fuel 0
  return redirectGSI m g lapicID vec (isoGSI m irq iso) (isoFlags m iso) mask d

def getRedirectIRQ (m : Bytes) (g : MadtGlobals) (fuel : ℕ) (irq : BitVec 8) :
    Option (BitVec 32) := do
  let iso ← searchISO m g irq fuel 0
  return isoGSI m irq iso

def redirectionEntry (d : Device 8 32) (pin : ℕ) : Word :=
  d.registers ((redirectionReg pin + 1).setWidth 8) ++
    d.registers ((redirectionReg pin).setWidth 8)

def firstISO (m : Bytes) (g : MadtGlobals) (irq : BitVec 8) : Option Addr :=
  (madtISOs g).find? fun iso => madtIso.get m iso .irqSrc = irq.setWidth 64

/-- The entry that sends an interrupt to a processor: the destination, the mask
bit, level-triggered, active-low, fixed delivery and the vector. -/
def entryWord (lapicID : BitVec 32) (vec : BitVec 8) (flags : BitVec 16)
    (mask : Bool) : Word :=
  lapicID.setWidth 8 ++ (0 : BitVec 39) ++ BitVec.ofBool mask ++
    BitVec.ofBool (flags.getLsbD 3) ++ (0 : BitVec 1) ++
      BitVec.ofBool (flags.getLsbD 1) ++ (0 : BitVec 5) ++ vec

/-- What the registers of the I/O APICs hold. -/
def contents (d : Devices) (base reg : BitVec 32) : BitVec 32 :=
  (d base).registers (reg.setWidth 8)

/-- The register windows of the I/O APICs do not overlap. -/
def WindowsApart (m : Bytes) (g : MadtGlobals) : Prop :=
  (ioAPICs g).Pairwise fun e f =>
    Disjoint (region (apicAddr m e) 20) (region (apicAddr m f) 20)

/-- The entry of the pin `pin` of `ioapic` is `entry`, and no other one has
changed. -/
structure Redirected (m : Bytes) (g : MadtGlobals) (d d' : Devices) (ioapic : Addr)
    (pin : ℕ) (entry : Word) : Prop where
  entry : redirectionEntry (d' (apicAddr m ioapic)) pin = entry
  others : ∀ e ∈ ioAPICs g, ∀ i ≤ lastPin (contents d) m e,
    (e ≠ ioapic ∨ i ≠ pin) →
      redirectionEntry (d' (apicAddr m e)) i =
        redirectionEntry (d (apicAddr m e)) i

theorem getLsbD_or_bit (x : Word) {p : Prop} [Decidable p] {b : Bool}
    (hp : p ↔ b = true) {j : ℕ} (hj : j < 64) (i : ℕ) :
    (if p then x ||| 1#64 <<< j else x).getLsbD i =
      (x.getLsbD i || (decide (i = j) && b)) := by
  cases b
  · rw [if_neg fun h => Bool.false_ne_true (hp.1 h), Bool.and_false, Bool.or_false]
  · rw [if_pos (hp.2 rfl), BitVec.getLsbD_or, getLsbD_one_shiftLeft hj,
      Bool.and_true]

theorem getLsbD_write_bit (x : Word) (b : Bool) {j : ℕ} (hj : j < 64) {i : ℕ}
    (hi : i < 64) :
    (if b then x ||| 1#64 <<< j else x &&& ~~~(1#64 <<< j)).getLsbD i =
      if i = j then b else x.getLsbD i := by
  cases b <;> simp only [if_true, Bool.false_eq_true, if_false,
    BitVec.getLsbD_or, BitVec.getLsbD_and, BitVec.getLsbD_not,
    getLsbD_one_shiftLeft hj, hi, decide_true, Bool.true_and] <;>
    by_cases hij : i = j <;> simp [hij]

theorem getLsbD_redirectWord (lapicID : BitVec 32) (vec : BitVec 8)
    (flags : BitVec 16) (mask : Bool) {i : ℕ} (hi : i < 64) :
    (redirectWord lapicID vec flags mask).getLsbD i =
      ((if i = 16 then mask else
        vec.getLsbD i || (decide (i = 13) && flags.getLsbD 1) ||
          (decide (i = 15) && flags.getLsbD 3)) ||
            (decide (56 ≤ i) && lapicID.getLsbD (i - 56))) := by
  have hlapic : (lapicID.setWidth 64 <<< 56).getLsbD i =
      (decide (56 ≤ i) && lapicID.getLsbD (i - 56)) := by
    rw [BitVec.getLsbD_shiftLeft, BitVec.getLsbD_setWidth]
    by_cases h : i < 56
    · simp [h]
    · simp [h, hi, show i - 56 < 64 by omega, show 56 ≤ i by omega]
  unfold redirectWord
  rw [BitVec.getLsbD_or, hlapic, getLsbD_write_bit _ _ (by decide) hi,
    getLsbD_or_bit _ (and_one_shiftLeft_ne_zero flags (by decide)) (by decide),
    getLsbD_or_bit _ (and_one_shiftLeft_ne_zero flags (by decide)) (by decide),
    BitVec.getLsbD_setWidth, decide_eq_true hi, Bool.true_and]

/-- The word is the entry. -/
theorem redirectWord_eq (lapicID : BitVec 32) (vec : BitVec 8)
    (flags : BitVec 16) (mask : Bool) :
    redirectWord lapicID vec flags mask = entryWord lapicID vec flags mask := by
  refine BitVec.eq_of_getLsbD_eq fun i hi => ?_
  have hvec : 8 ≤ i → vec.getLsbD i = false := BitVec.getLsbD_of_ge vec i
  have hzero : ∀ {w : ℕ} (j : ℕ), (0 : BitVec w).getLsbD j = false :=
    fun _ => BitVec.getLsbD_zero
  rw [getLsbD_redirectWord _ _ _ _ hi, entryWord]
  simp only [BitVec.getLsbD_append, BitVec.getLsbD_ofBool,
    BitVec.getLsbD_setWidth, hzero]
  simp only [Nat.sub_sub, Nat.reduceAdd]
  -- the fields of the entry, from the vector up
  obtain h | h | rfl | rfl | rfl | rfl | h | h : i < 8 ∨ 8 ≤ i ∧ i < 13 ∨ i = 13 ∨
      i = 14 ∨ i = 15 ∨ i = 16 ∨ 17 ≤ i ∧ i < 56 ∨ 56 ≤ i := by
    omega
  · simp [h, show i ≠ 13 by omega, show i ≠ 15 by omega, show i ≠ 16 by omega,
      show ¬ 56 ≤ i by omega]
  · simp [hvec h.1, show ¬ i < 8 by omega, show i - 8 < 5 by omega,
      show i ≠ 13 by omega, show i ≠ 15 by omega, show i ≠ 16 by omega,
      show ¬ 56 ≤ i by omega]
  · simp
  · simp
  · simp
  · simp
  · simp [hvec (by omega), show ¬ i < 8 by omega, show ¬ i - 8 < 5 by omega,
      show i ≠ 13 by omega, show i ≠ 15 by omega, show i ≠ 16 by omega,
      show ¬ 56 ≤ i by omega, show ¬ i - 13 = 0 by omega,
      show ¬ i - 14 = 0 by omega, show ¬ i - 15 = 0 by omega,
      show ¬ i - 16 = 0 by omega, show i - 17 < 39 by omega]
  · simp [hvec (by omega), h, show ¬ i < 8 by omega, show ¬ i - 8 < 5 by omega,
      show i ≠ 13 by omega, show i ≠ 15 by omega, show i ≠ 16 by omega,
      show ¬ i - 13 = 0 by omega, show ¬ i - 14 = 0 by omega,
      show ¬ i - 15 = 0 by omega, show ¬ i - 16 = 0 by omega,
      show ¬ i - 17 < 39 by omega, show i - 56 < 8 by omega]

variable {m : Bytes} {g : MadtGlobals} {fuel : ℕ} {irq : BitVec 8}
  {gsi reg value : BitVec 32} {d : Devices} {e f ioapic : Addr}

theorem idx_lt_iff (hlen : g.madtInformation.madtISOLen.toNat ≤ 128) {n i : ℕ}
    (hn : i + n = g.madtInformation.madtISOLen.toNat) :
    (BitVec.ofNat 8 i).setWidth 32 < g.madtInformation.madtISOLen ↔ n ≠ 0 := by
  rw [BitVec.lt_def, BitVec.toNat_setWidth_of_le (by decide), BitVec.toNat_ofNat,
    Nat.mod_eq_of_lt (by omega)]
  omega

theorem searchISO_ofNat (hlen : g.madtInformation.madtISOLen.toNat ≤ 128)
    {n i : ℕ} (hn : i + n = g.madtInformation.madtISOLen.toNat) (hfuel : n < fuel) :
    searchISO m g irq fuel (BitVec.ofNat 8 i) =
      some (((List.range' i n).map g.madtISOList).find? fun iso =>
        madtIso.get m iso .irqSrc = irq.setWidth 64) := by
  induction n generalizing i fuel with
  | zero =>
      obtain ⟨fuel, rfl⟩ : ∃ k, fuel = k + 1 := ⟨fuel - 1, by omega⟩
      rw [searchISO, if_neg (mt (idx_lt_iff hlen hn).1 (not_not.2 rfl))]
      rfl
  | succ n ih =>
      obtain ⟨fuel, rfl⟩ : ∃ k, fuel = k + 1 := ⟨fuel - 1, by omega⟩
      have hidx : (BitVec.ofNat 8 i).toNat = i := by
        rw [BitVec.toNat_ofNat, Nat.mod_eq_of_lt (by omega)]
      have hnext : BitVec.ofNat 8 i + 1 = BitVec.ofNat 8 (i + 1) :=
        (BitVec.ofNat_add i 1).symm
      rw [searchISO, if_pos ((idx_lt_iff hlen hn).2 (Nat.succ_ne_zero n)), hidx,
        hnext, ih (by omega) (by omega), List.range'_succ, List.map_cons,
        List.find?_cons]
      by_cases hirq : madtIso.get m (g.madtISOList i) .irqSrc = irq.setWidth 64
      · simp only [hirq, if_true, decide_true]
      · simp only [hirq, if_false, decide_false]

theorem searchISO_eq (hlen : g.madtInformation.madtISOLen.toNat ≤ 128)
    (fuel : ℕ) (irq : BitVec 8) :
    searchISO m g irq (fuel + 129) 0 = some (firstISO m g irq) := by
  rw [firstISO, madtISOs, List.range_eq_range']
  exact searchISO_ofNat hlen (Nat.zero_add _) (by omega)

theorem IOAPIC_IOWIN_ne_zero : IOAPIC_IOWIN ≠ 0 := by
  decide

theorem add_IOAPIC_REGSEL (a : BitVec 32) : a + IOAPIC_REGSEL = a :=
  BitVec.add_zero a

theorem apart_of_disjoint {a b : BitVec 32}
    (h : Disjoint (region a 20) (region b 20)) :
    Bus.Apart IOAPIC_IOWIN a b := by
  have hmem : ∀ c : BitVec 32, c ∈ region c 20 ∧ c + IOAPIC_IOWIN ∈ region c 20 := by
    intro c
    rw [mem_region, mem_region, BitVec.sub_self, BitVec.add_comm,
      BitVec.add_sub_cancel]
    decide
  have hne := Set.disjoint_left.1 h
  refine ⟨fun heq => ?_, fun heq => ?_, fun heq => ?_⟩
  · exact hne (hmem a).1 (heq ▸ (hmem b).1)
  · exact hne (hmem a).2 (heq ▸ (hmem b).1)
  · exact hne (hmem a).1 (heq ▸ (hmem b).2)

theorem WindowsApart.apart (h : WindowsApart m g) (he : e ∈ ioAPICs g)
    (hf : f ∈ ioAPICs g) (hne : f ≠ e) :
    Bus.Apart IOAPIC_IOWIN (apicAddr m e) (apicAddr m f) := by
  have hsymm : Std.Symm fun e f =>
      Disjoint (region (apicAddr m e) 20) (region (apicAddr m f) 20) :=
    ⟨fun _ _ hdisjoint => hdisjoint.symm⟩
  exact apart_of_disjoint (List.Pairwise.forall h he hf hne.symm)

/-- The registers of all I/O APICs are the same. -/
def SameContents (m : Bytes) (g : MadtGlobals) (d d' : Devices) : Prop :=
  ∀ e ∈ ioAPICs g,
    (d' (apicAddr m e)).registers = (d (apicAddr m e)).registers

variable {d' : Devices}

theorem SameContents.contents_eq (h : SameContents m g d d') (he : e ∈ ioAPICs g)
    (reg : BitVec 32) :
    contents d' (apicAddr m e) reg = contents d (apicAddr m e) reg := by
  rw [contents, contents, h e he]

theorem SameContents.getGSICount_eq (h : SameContents m g d d')
    (he : e ∈ ioAPICs g) :
    getGSICount (contents d') m e = getGSICount (contents d) m e :=
  congrArg (fun r : BitVec 32 => ((r &&& 0xff0000) >>> 16).setWidth 64)
    (h.contents_eq he 1)

namespace Mmio

theorem ioAPICRead_fst (m : Bytes) (e : Addr) (reg : BitVec 32) (d : Devices) :
    (ioAPICRead m e reg d).1 = OptimistOS.ioAPICRead (contents d) m e reg := by
  rw [ioAPICRead, add_IOAPIC_REGSEL, Bus.read_write_base]
  rfl

theorem registers_ioAPICRead (m : Bytes) (e : Addr) (reg : BitVec 32) (d : Devices) :
    ((ioAPICRead m e reg d).2 (apicAddr m e)).registers =
      (d (apicAddr m e)).registers := by
  rw [ioAPICRead, add_IOAPIC_REGSEL]
  exact (congrArg Device.registers Bus.write_base).trans rfl

theorem sameContents_ioAPICRead (h : WindowsApart m g) (he : e ∈ ioAPICs g)
    (reg : BitVec 32) (d : Devices) :
    SameContents m g d (ioAPICRead m e reg d).2 := by
  intro f hf
  by_cases hfe : f = e
  · rw [hfe]
    exact registers_ioAPICRead m e reg d
  · rw [ioAPICRead, add_IOAPIC_REGSEL]
    exact congrArg Device.registers (h.apart he hf hfe).write_base

/-- The stateful search finds what `getGSI` finds in the registers, and changes
none of them. -/
theorem getGSILoop_spec (h : WindowsApart m g) (gsi : BitVec 32) {n i : ℕ}
    (hlist : ∀ j, i ≤ j → j < i + n → g.madtInformationList j ∈ ioAPICs g)
    (hd : SameContents m g d d') :
    (getGSILoop m g gsi n i d').1 =
        OptimistOS.getGSILoop (contents d) m g gsi n i ∧
      SameContents m g d (getGSILoop m g gsi n i d').2 := by
  induction n generalizing i d' with
  | zero => exact ⟨rfl, hd⟩
  | succ n ih =>
      have he := hlist i le_rfl (by omega)
      have hrest : ∀ j, i + 1 ≤ j → j < i + 1 + n →
          g.madtInformationList j ∈ ioAPICs g :=
        fun j hj hjn => hlist j (by omega) (by omega)
      have hread : SameContents m g d
          (getGSICount m (g.madtInformationList i) d').2 := fun f hf =>
        (sameContents_ioAPICRead h he 1 d' f hf).trans (hd f hf)
      have hcount : (getGSICount m (g.madtInformationList i) d').1 =
          OptimistOS.getGSICount (contents d) m (g.madtInformationList i) := by
        rw [← hd.getGSICount_eq he, getGSICount, ioAPICRead_fst]
        rfl
      rw [getGSILoop, OptimistOS.getGSILoop]
      simp only [hcount]
      by_cases hbase : ioAPICInfo.get m (g.madtInformationList i) .gsiBase ≤
          gsi.setWidth 64
      · by_cases hbound : gsi.setWidth 64 <
            ioAPICInfo.get m (g.madtInformationList i) .gsiBase +
              OptimistOS.getGSICount (contents d) m (g.madtInformationList i)
        · rw [if_pos hbase, if_pos hbound, if_pos ⟨hbase, hbound⟩]
          exact ⟨rfl, hread⟩
        · rw [if_pos hbase, if_neg hbound, if_neg fun hc => hbound hc.2]
          exact ih hrest hread
      · rw [if_neg hbase, if_neg fun hc => hbase hc.1]
        exact ih hrest hd

theorem getGSI_spec (h : WindowsApart m g) (gsi : BitVec 32) (d : Devices) :
    (getGSI m g gsi d).1 = OptimistOS.getGSI (contents d) m g gsi ∧
      SameContents m g d (getGSI m g gsi d).2 := by
  refine getGSILoop_spec h gsi (fun j _ hj => ?_) fun _ _ => rfl
  exact List.mem_map_of_mem (List.mem_range.2 (by omega))

theorem registers_ioAPICWrite (e : Addr) (reg value : BitVec 32) (d : Devices) :
    (ioAPICWrite m e reg value d (apicAddr m e)).registers =
      Function.update (d (apicAddr m e)).registers (reg.setWidth 8) value := by
  rw [ioAPICWrite, add_IOAPIC_REGSEL]
  exact Bus.registers_write_write IOAPIC_IOWIN_ne_zero

theorem ioAPICWrite_of_ne (h : WindowsApart m g) (he : e ∈ ioAPICs g)
    (hf : f ∈ ioAPICs g) (hne : f ≠ e) (reg value : BitVec 32) (d : Devices) :
    ioAPICWrite m e reg value d (apicAddr m f) = d (apicAddr m f) := by
  rw [ioAPICWrite, add_IOAPIC_REGSEL]
  exact (h.apart he hf hne).write_write

end Mmio

theorem toNat_redirectionReg {i : ℕ} (hi : i < 120) :
    ((redirectionReg i).setWidth 8).toNat = 16 + 2 * i ∧
      ((redirectionReg i + 1).setWidth 8).toNat = 17 + 2 * i := by
  rw [redirectionReg]
  constructor <;> bv_omega

/-- Both halves of an entry are written. -/
theorem redirectionEntry_update {d d' : Device 8 32} {pin : ℕ}
    {low high : BitVec 32}
    (h : d'.registers = Function.update (Function.update d.registers
      ((redirectionReg pin).setWidth 8) low)
        ((redirectionReg pin + 1).setWidth 8) high)
    (hpin : pin < 120) {i : ℕ} (hi : i < 120) :
    redirectionEntry d' i =
      if i = pin then high ++ low else redirectionEntry d i := by
  obtain ⟨hlow, hhigh⟩ := toNat_redirectionReg hi
  obtain ⟨hlow', hhigh'⟩ := toNat_redirectionReg hpin
  have hne : (redirectionReg i).setWidth 8 ≠ (redirectionReg pin + 1).setWidth 8 :=
    fun heq => by
      have hnat := congrArg BitVec.toNat heq
      omega
  by_cases heq : i = pin
  · subst heq
    rw [if_pos rfl, redirectionEntry, h, Function.update_self,
      Function.update_of_ne hne, Function.update_self]
  · have hhigh_ne : (redirectionReg i + 1).setWidth 8 ≠
        (redirectionReg pin + 1).setWidth 8 := fun heq => by
      have hnat := congrArg BitVec.toNat heq
      omega
    have hlow_ne : (redirectionReg i).setWidth 8 ≠
        (redirectionReg pin).setWidth 8 := fun heq => by
      have hnat := congrArg BitVec.toNat heq
      omega
    have hcross : (redirectionReg i + 1).setWidth 8 ≠
        (redirectionReg pin).setWidth 8 := fun heq => by
      have hnat := congrArg BitVec.toNat heq
      omega
    rw [if_neg heq, redirectionEntry, h, Function.update_of_ne hhigh_ne,
      Function.update_of_ne hcross, Function.update_of_ne hne,
      Function.update_of_ne hlow_ne, redirectionEntry]

theorem halves_append (x : Word) :
    (x >>> 32).setWidth 32 ++ x.setWidth 32 = x := by
  refine BitVec.eq_of_getLsbD_eq fun i hi => ?_
  rw [BitVec.getLsbD_append, BitVec.getLsbD_setWidth, BitVec.getLsbD_setWidth,
    BitVec.getLsbD_ushiftRight]
  split_ifs with h
  · rw [decide_eq_true h, Bool.true_and]
  · rw [decide_eq_true (show i - 32 < 32 by omega), Bool.true_and,
      show 32 + (i - 32) = i by omega]

theorem redirectionEntry_congr {d d' : Device 8 32}
    (h : d'.registers = d.registers) (i : ℕ) :
    redirectionEntry d' i = redirectionEntry d i := by
  rw [redirectionEntry, redirectionEntry, h]

theorem getGSI_covers {registers : BitVec 32 → BitVec 32 → BitVec 32}
    (h : getGSI registers m g gsi = ioapic) (hne : ioapic ≠ 0) :
    ioapic ∈ ioAPICs g ∧
      (gsi - gsiBase m ioapic).toNat < lastPin registers m ioapic := by
  rw [getGSI_eq] at h
  cases hfind : (ioAPICs g).find? fun e => coversGSI registers m gsi e with
  | none =>
      rw [hfind] at h
      exact absurd h.symm hne
  | some e =>
      rw [hfind] at h
      obtain rfl : e = ioapic := h
      have htest := List.find?_some hfind
      obtain ⟨hcovers, hlast⟩ := coversGSI_iff.1 (of_decide_eq_true htest)
      refine ⟨List.mem_of_find?_eq_some hfind, ?_⟩
      have hbase : (gsiBase m e).toNat =
          (ioAPICInfo.get m e .gsiBase).toNat := by
        rw [gsiBase, BitVec.toNat_setWidth]
        exact Nat.mod_eq_of_lt (ioAPICInfo.get_toNat_lt m e .gsiBase)
      rw [BitVec.toNat_sub_of_le (by
        rw [BitVec.le_def, hbase]
        exact hcovers.1), hbase]
      have hlow := hcovers.1
      have hhigh := hcovers.2
      omega

/-- `redirectGSI` programs the entry of the pin, and no other one. -/
theorem redirectGSI_redirects (hwindows : WindowsApart m g)
    (hpins : ∀ e ∈ ioAPICs g, lastPin (contents d) m e < 120)
    (hfound : (Mmio.getGSI m g gsi d).1 = ioapic) (hne : ioapic ≠ 0)
    (lapicID : BitVec 32) (vec : BitVec 8) (flags : BitVec 16) (mask : Bool) :
    Redirected m g d (redirectGSI m g lapicID vec gsi flags mask d) ioapic
      (gsi - gsiBase m ioapic).toNat (entryWord lapicID vec flags mask) := by
  obtain ⟨hget, hsame⟩ := Mmio.getGSI_spec hwindows gsi d
  obtain ⟨hmem, hpin⟩ := getGSI_covers (hget.symm.trans hfound) hne
  set pin := (gsi - gsiBase m ioapic).toNat with hpin_eq
  have hlt := hpins ioapic hmem
  have htable : (gsi - gsiBase m ioapic) * 2 + 16 = redirectionReg pin := by
    rw [redirectionReg, hpin_eq, BitVec.ofNat_toNat, BitVec.setWidth_eq,
      BitVec.add_comm, BitVec.mul_comm]
  have hregisters : (redirectGSI m g lapicID vec gsi flags mask d
      (apicAddr m ioapic)).registers =
        Function.update (Function.update (d (apicAddr m ioapic)).registers
          ((redirectionReg pin).setWidth 8)
            ((redirectWord lapicID vec flags mask).setWidth 32))
              ((redirectionReg pin + 1).setWidth 8)
                ((redirectWord lapicID vec flags mask >>> 32).setWidth 32) := by
    rw [redirectGSI]
    simp only [hfound, htable]
    rw [Mmio.registers_ioAPICWrite, Mmio.registers_ioAPICWrite, hsame ioapic hmem]
  refine ⟨?_, fun e he i hi hother => ?_⟩
  · rw [redirectionEntry_update hregisters (by omega) (by omega), if_pos rfl,
      halves_append, redirectWord_eq]
  · have hi' := hpins e he
    by_cases heq : e = ioapic
    · subst heq
      rw [redirectionEntry_update hregisters (by omega) (by omega),
        if_neg (hother.resolve_left (not_not.2 rfl))]
    · refine redirectionEntry_congr ?_ i
      rw [redirectGSI]
      simp only [hfound]
      rw [Mmio.ioAPICWrite_of_ne hwindows hmem he heq,
        Mmio.ioAPICWrite_of_ne hwindows hmem he heq, hsame e he]

/-- `redirectIRQ` programs the entry of the pin to which an IRQ is connected, with
the flags of its first override, and no other entry. -/
theorem redirectIRQ_redirects
    (hlen : g.madtInformation.madtISOLen.toNat ≤ 128) (hwindows : WindowsApart m g)
    (hpins : ∀ e ∈ ioAPICs g, lastPin (contents d) m e < 120)
    (hgsi : getRedirectIRQ m g (fuel + 129) irq = some gsi)
    (hfound : (Mmio.getGSI m g gsi d).1 = ioapic) (hne : ioapic ≠ 0)
    (lapicID : BitVec 32) (vec : BitVec 8) (mask : Bool) :
    ∃ d', redirectIRQ m g (fuel + 129) lapicID vec irq mask d = some d' ∧
      Redirected m g d d' ioapic (gsi - gsiBase m ioapic).toNat
        (entryWord lapicID vec (isoFlags m (firstISO m g irq)) mask) := by
  rw [getRedirectIRQ, searchISO_eq hlen] at hgsi
  obtain rfl := Option.some.inj hgsi
  refine ⟨_, ?_, redirectGSI_redirects hwindows hpins hfound hne lapicID vec _ mask⟩
  rw [redirectIRQ, searchISO_eq hlen]
  rfl

/-- The tables of a machine with one I/O APIC, at 0xFEC00000, on which the pin 2
has the IRQ 0, active-low and level-triggered. -/
def timerTables : Bytes := fun a =>
  if a = 0x1006 then 0xC0
  else if a = 0x1007 then 0xFE
  else if a = 0x2004 then 2
  else if a = 0x2008 then 0x0A
  else 0

/-- The lists of this machine. -/
def timerMadt : MadtGlobals where
  madtInformationList _ := 0x1000
  madtISOList _ := 0x2000
  madtInformation := ⟨1, 1, 0⟩

/-- I/O APICs with 24 pins. -/
def timerDevices : Devices := fun _ =>
  ⟨0, fun reg => if reg = 1 then 0x00170020 else 0⟩

/-- The IRQ 0 goes to the pin 2. -/
theorem redirectIRQ_redirects_timer :
    ∃ d', redirectIRQ timerTables timerMadt 129 1 32 0 false timerDevices =
        some d' ∧
      Redirected timerTables timerMadt timerDevices d' 0x1000 2
        (entryWord 1 32 0x0A false) := by
  have hwindows : WindowsApart timerTables timerMadt :=
    List.pairwise_singleton _ _
  have hpins : ∀ e ∈ ioAPICs timerMadt,
      lastPin (contents timerDevices) timerTables e < 120 := by
    intro e he
    obtain rfl : e = 0x1000 := by simpa [ioAPICs, timerMadt] using he
    decide
  have hgsi : getRedirectIRQ timerTables timerMadt (0 + 129) 0 = some 2 := by
    decide
  have hfound : (Mmio.getGSI timerTables timerMadt 2 timerDevices).1 = 0x1000 := by
    decide
  obtain ⟨d', hrun, hredirected⟩ := redirectIRQ_redirects (by decide) hwindows
    hpins hgsi hfound (by decide) 1 32 false
  exact ⟨d', hrun, hredirected⟩

end OptimistOS
