import OptimistOS.Acpi.Redirect
import OptimistOS.Foundation.LastSet
import Mathlib.Data.List.Find

/-!
# Runs of redirections

What `initIOAPIC`, `redirectGSI`, `redirectIRQ` and `setEntry` do one after the
other. Each of them programs redirection entries through the register windows and
leaves all other entries alone, and none of them touches a version register, so
that `getGSI` finds the same I/O APICs all along. In every run an entry is what was
set last for its pin (`entries_of_run`).
-/

namespace OptimistOS

open ByteMemory RegisterWindow Transition

variable {m : Bytes} {g : MadtGlobals} {d d' : Devices} {e f : Addr} {pin i : ℕ}

namespace Mmio

def writePin (m : Bytes) (e : Addr) (pin : ℕ) (low high : BitVec 32)
    (d : Devices) : Devices :=
  ioAPICWrite m e (redirectionReg pin + 1) high
    (ioAPICWrite m e (redirectionReg pin) low d)

def initPins (m : Bytes) (e : Addr) (d : Devices) (n : ℕ) : Devices :=
  (List.range n).foldl (fun d i =>
    writePin m e i (0x00010000 ||| (32 + BitVec.ofNat 32 i)) 0 d) d

theorem initPins_succ (m : Bytes) (e : Addr) (d : Devices) (n : ℕ) :
    initPins m e d (n + 1) =
      writePin m e n (0x00010000 ||| (32 + BitVec.ofNat 32 n)) 0
        (initPins m e d n) := by
  rw [initPins, List.range_succ, List.foldl_concat, initPins]

/-- `initIOAPIC`. There is no result where it halts. -/
def initIOAPIC (m : Bytes) (g : MadtGlobals) (d : Devices) : Option Devices :=
  let IOAPIC := g.madtInformationList 0
  let value := ioAPICRead m IOAPIC 1 d
  let count := (value.1 >>> 16) &&& 0xff
  let id := ioAPICRead m IOAPIC 0 value.2
  if (id.1 >>> 24).setWidth 64 ≠ ioAPICInfo.get m IOAPIC .apicID then none
  else some (initPins m IOAPIC id.2 (count.toNat + 1))

/-- `setEntry`. The register numbers are cut to 8 bits. -/
def setEntry (m : Bytes) (ioapic : Addr) (idx : BitVec 8) (data : Word)
    (d : Devices) : Devices :=
  let reg : BitVec 8 := 0x10 + idx * 2
  ioAPICWrite m ioapic ((reg + 1).setWidth 32) ((data >>> 32).setWidth 32)
    (ioAPICWrite m ioapic (reg.setWidth 32) (data.setWidth 32) d)

/-- `initIOAPIC` makes its writes through the windows of the first I/O APIC, which
the two reads have left with another register selected. -/
theorem initIOAPIC_eq_some_iff {IOAPIC : Addr}
    (hfirst : g.madtInformationList 0 = IOAPIC) :
    Mmio.initIOAPIC m g d = some d' ↔
      ∃ ws, OptimistOS.initIOAPIC (contents d) m g = .ok ws ∧
        ws.foldl (fun d w => ioAPICWrite m IOAPIC w.1 w.2 d)
          (ioAPICRead m IOAPIC 0 (ioAPICRead m IOAPIC 1 d).2).2 = d' := by
  have hid : (ioAPICRead m IOAPIC 0 (ioAPICRead m IOAPIC 1 d).2).1 =
      OptimistOS.ioAPICRead (contents d) m IOAPIC 0 := by
    rw [ioAPICRead_fst]
    exact congrFun (registers_ioAPICRead m IOAPIC 1 d) _
  have hcount : (((ioAPICRead m IOAPIC 1 d).1 >>> 16) &&& 0xff).toNat =
      lastPin (contents d) m IOAPIC := by
    rw [ioAPICRead_fst]
    rfl
  rw [Mmio.initIOAPIC, OptimistOS.initIOAPIC]
  simp only [hfirst, hid, hcount]
  split_ifs with hne
  · simp
  · simp only [Option.some.injEq, Except.ok.injEq, exists_eq_left']
    rw [initPins, List.foldl_flatMap]
    rfl

end Mmio

structure Programmed (m : Bytes) (g : MadtGlobals) (d d' : Devices) (e : Addr)
    (pin : ℕ) (low high : BitVec 32) : Prop where
  registers : (d' (apicAddr m e)).registers =
    Function.update (Function.update (d (apicAddr m e)).registers
      ((redirectionReg pin).setWidth 8) low)
        ((redirectionReg pin + 1).setWidth 8) high
  others : ∀ f ∈ ioAPICs g, f ≠ e →
    (d' (apicAddr m f)).registers = (d (apicAddr m f)).registers

theorem Mmio.programmed_writePin (hwindows : WindowsApart m g)
    (he : e ∈ ioAPICs g) (hd : SameContents m g d d') (low high : BitVec 32) :
    Programmed m g d (Mmio.writePin m e pin low high d') e pin low high := by
  refine ⟨?_, fun f hf hne => ?_⟩
  · rw [writePin, registers_ioAPICWrite, registers_ioAPICWrite, hd e he]
  · rw [writePin, ioAPICWrite_of_ne hwindows he hf hne,
      ioAPICWrite_of_ne hwindows he hf hne, hd f hf]

namespace Programmed

variable {low high : BitVec 32}

theorem entry (h : Programmed m g d d' e pin low high) (hpin : pin < 120)
    (hf : f ∈ ioAPICs g) (hi : i < 120) :
    redirectionEntry (d' (apicAddr m f)) i =
      if f = e ∧ i = pin then high ++ low
      else redirectionEntry (d (apicAddr m f)) i := by
  by_cases hfe : f = e
  · subst hfe
    rw [redirectionEntry_update h.registers hpin hi]
    simp only [true_and]
  · rw [if_neg fun hc => hfe hc.1]
    exact redirectionEntry_congr (h.others f hf hfe) i

theorem version (h : Programmed m g d d' e pin low high) (hpin : pin < 120)
    (hf : f ∈ ioAPICs g) :
    contents d' (apicAddr m f) 1 = contents d (apicAddr m f) 1 := by
  obtain ⟨hlow, hhigh⟩ := toNat_redirectionReg hpin
  by_cases hfe : f = e
  · subst hfe
    rw [contents, contents, h.registers, Function.update_of_ne,
      Function.update_of_ne]
    · intro heq
      have hnat := congrArg BitVec.toNat heq
      rw [hlow] at hnat
      change 1 = _ at hnat
      omega
    · intro heq
      have hnat := congrArg BitVec.toNat heq
      rw [hhigh] at hnat
      change 1 = _ at hnat
      omega
  · rw [contents, contents, h.others f hf hfe]

end Programmed

theorem Mmio.programmed_setEntry (hwindows : WindowsApart m g)
    (he : e ∈ ioAPICs g) (idx : BitVec 8) (data : Word) (d : Devices) :
    Programmed m g d (Mmio.setEntry m e idx data d) e idx.toNat
      (data.setWidth 32) ((data >>> 32).setWidth 32) := by
  have hlow : ((0x10 + idx * 2).setWidth 32).setWidth 8 =
      (redirectionReg idx.toNat).setWidth 8 := by
    rw [redirectionReg]
    bv_omega
  have hhigh : ((0x10 + idx * 2 + 1).setWidth 32).setWidth 8 =
      (redirectionReg idx.toNat + 1).setWidth 8 := by
    rw [redirectionReg]
    bv_omega
  refine ⟨?_, fun f hf hne => ?_⟩
  · rw [setEntry, registers_ioAPICWrite, registers_ioAPICWrite, hlow, hhigh]
  · rw [setEntry, ioAPICWrite_of_ne hwindows he hf hne,
      ioAPICWrite_of_ne hwindows he hf hne]

/-- What `initIOAPIC` writes into an entry: masked, with the vector after those
of the exceptions. -/
theorem maskedEntry_eq {i : ℕ} (hi : i < 120) :
    (0 : BitVec 32) ++ (0x00010000 ||| (32 + BitVec.ofNat 32 i)) =
      entryWord 0 (32 + BitVec.ofNat 8 i) 0 true := by
  have h : ∀ i : Fin 120,
      (0 : BitVec 32) ++ (0x00010000 ||| (32 + BitVec.ofNat 32 i)) =
        entryWord 0 (32 + BitVec.ofNat 8 i) 0 true := by
    decide
  exact h ⟨i, hi⟩

/-- The loop of `initIOAPIC` writes the entries it has come to. -/
theorem redirectionEntry_initPins (hwindows : WindowsApart m g)
    (he : e ∈ ioAPICs g) {n : ℕ} (hn : n ≤ 120) :
    (∀ f ∈ ioAPICs g, ∀ i < 120,
      redirectionEntry (Mmio.initPins m e d n (apicAddr m f)) i =
        if f = e ∧ i < n then entryWord 0 (32 + BitVec.ofNat 8 i) 0 true
        else redirectionEntry (d (apicAddr m f)) i) ∧
      ∀ f ∈ ioAPICs g, contents (Mmio.initPins m e d n) (apicAddr m f) 1 =
        contents d (apicAddr m f) 1 := by
  induction n with
  | zero =>
      refine ⟨fun f _ i _ => ?_, fun f _ => rfl⟩
      rw [if_neg fun h => Nat.not_lt_zero _ h.2]
      rfl
  | succ n ih =>
      obtain ⟨hentry, hversion⟩ := ih (by omega)
      have hwrite : Programmed m g (Mmio.initPins m e d n)
          (Mmio.initPins m e d (n + 1)) e n
            (0x00010000 ||| (32 + BitVec.ofNat 32 n)) 0 := by
        rw [Mmio.initPins_succ]
        exact Mmio.programmed_writePin hwindows he (fun _ _ => rfl) _ _
      refine ⟨fun f hf i hi => ?_, fun f hf => ?_⟩
      · rw [hwrite.entry (by omega) hf hi, hentry f hf i hi]
        by_cases hpin : i = n
        · subst hpin
          simp only [and_true, Nat.lt_irrefl, and_false, if_false,
            Nat.lt_succ_self, maskedEntry_eq hi]
        · have hlt : i < n + 1 ↔ i < n := by omega
          rw [if_neg fun h => hpin h.2]
          simp only [hlt]
      · rw [hwrite.version (by omega) hf, hversion f hf]

theorem programmed_redirectGSI {gsi : BitVec 32} {ioapic : Addr}
    (hwindows : WindowsApart m g)
    (hfound : getGSI (contents d) m g gsi = ioapic) (hne : ioapic ≠ 0)
    (lapicID : BitVec 32) (vec : BitVec 8) (flags : BitVec 16) (mask : Bool) :
    Programmed m g d (redirectGSI m g lapicID vec gsi flags mask d) ioapic
      (gsi - gsiBase m ioapic).toNat
        ((entryWord lapicID vec flags mask).setWidth 32)
          ((entryWord lapicID vec flags mask >>> 32).setWidth 32) := by
  obtain ⟨hget, hsame⟩ := Mmio.getGSI_spec hwindows gsi d
  obtain ⟨hmem, -⟩ := getGSI_covers hfound hne
  have htable : (gsi - gsiBase m ioapic) * 2 + 16 =
      redirectionReg (gsi - gsiBase m ioapic).toNat := by
    rw [redirectionReg, BitVec.ofNat_toNat, BitVec.setWidth_eq, BitVec.add_comm,
      BitVec.mul_comm]
  rw [redirectGSI]
  simp only [hget.trans hfound, htable, redirectWord_eq]
  exact Mmio.programmed_writePin hwindows hmem hsame _ _

/-- A call that changes registers of the I/O APICs, or another one. -/
inductive RedirectCall
  | initIOAPIC
  | redirectGSI (lapicID : BitVec 32) (vec : BitVec 8) (gsi : BitVec 32)
      (flags : BitVec 16) (mask : Bool)
  | redirectIRQ (lapicID : BitVec 32) (vec irq : BitVec 8) (mask : Bool)
  | setEntry (ioapic : Addr) (idx : BitVec 8) (data : Word)
  | elsewhere

/-- A call that returns. An I/O APIC that `getGSI` does not find is a null
pointer, and `setEntry` has only registers for 120 entries. -/
inductive RedirectStep (m : Bytes) (g : MadtGlobals) :
    Devices → RedirectCall → Devices → Prop
  | initIOAPIC {d d' : Devices} (he : g.madtInformationList 0 ∈ ioAPICs g)
      (h : Mmio.initIOAPIC m g d = some d') :
      RedirectStep m g d .initIOAPIC d'
  | redirectGSI (d : Devices) (lapicID : BitVec 32) (vec : BitVec 8)
      (gsi : BitVec 32) (flags : BitVec 16) (mask : Bool)
      (h : (Mmio.getGSI m g gsi d).1 ≠ 0) :
      RedirectStep m g d (.redirectGSI lapicID vec gsi flags mask)
        (redirectGSI m g lapicID vec gsi flags mask d)
  | redirectIRQ {d d' : Devices} (fuel : ℕ) (lapicID : BitVec 32)
      (vec irq : BitVec 8) (mask : Bool)
      (h : redirectIRQ m g (fuel + 129) lapicID vec irq mask d = some d')
      (hgsi : (Mmio.getGSI m g (isoGSI m irq (firstISO m g irq)) d).1 ≠ 0) :
      RedirectStep m g d (.redirectIRQ lapicID vec irq mask) d'
  | setEntry (d : Devices) {ioapic : Addr} {idx : BitVec 8} (data : Word)
      (he : ioapic ∈ ioAPICs g) (hidx : idx.toNat < 120) :
      RedirectStep m g d (.setEntry ioapic idx data)
        (Mmio.setEntry m ioapic idx data d)
  | elsewhere {d d' : Devices} (h : SameContents m g d d') :
      RedirectStep m g d .elsewhere d'

namespace RedirectCall

/-- What `redirectGSI` sets the entry of a pin to. The contents of the registers
are `r`. -/
def redirects (m : Bytes) (g : MadtGlobals) (r : BitVec 32 → BitVec 32 → BitVec 32)
    (lapicID : BitVec 32) (vec : BitVec 8) (gsi : BitVec 32) (flags : BitVec 16)
    (mask : Bool) (k : Addr × ℕ) : Option Word :=
  let ioapic := getGSI r m g gsi
  if k.1 = ioapic ∧ k.2 = (gsi - gsiBase m ioapic).toNat then
    some (entryWord lapicID vec flags mask)
  else none

def sets (m : Bytes) (g : MadtGlobals) (r : BitVec 32 → BitVec 32 → BitVec 32) :
    RedirectCall → Addr × ℕ → Option Word
  | .initIOAPIC, k =>
      let ioapic := g.madtInformationList 0
      if k.1 = ioapic ∧ k.2 < lastPin r m ioapic + 1 then
        some (entryWord 0 (32 + BitVec.ofNat 8 k.2) 0 true)
      else none
  | .redirectGSI lapicID vec gsi flags mask, k =>
      redirects m g r lapicID vec gsi flags mask k
  | .redirectIRQ lapicID vec irq mask, k =>
      let iso := firstISO m g irq
      redirects m g r lapicID vec (isoGSI m irq iso) (isoFlags m iso) mask k
  | .setEntry ioapic idx data, k =>
      if k.1 = ioapic ∧ k.2 = idx.toNat then some data else none
  | .elsewhere, _ => none

end RedirectCall

/-- The pins whose entries the 8 bits of a register number reach. -/
def pins (g : MadtGlobals) : Set (Addr × ℕ) :=
  {k | k.1 ∈ ioAPICs g ∧ k.2 < 120}

def SameVersions (m : Bytes) (g : MadtGlobals)
    (r : BitVec 32 → BitVec 32 → BitVec 32) (d : Devices) : Prop :=
  ∀ e ∈ ioAPICs g, contents d (apicAddr m e) 1 = r (apicAddr m e) 1

namespace SameVersions

variable {r : BitVec 32 → BitVec 32 → BitVec 32}

theorem getGSI_eq (h : SameVersions m g r d) (gsi : BitVec 32) :
    getGSI (contents d) m g gsi = getGSI r m g gsi := by
  rw [OptimistOS.getGSI_eq, OptimistOS.getGSI_eq]
  refine congrArg (Option.getD · 0) (List.find?_congr fun e he => ?_)
  have hcount : getGSICount (contents d) m e = getGSICount r m e :=
    congrArg (fun v : BitVec 32 => ((v &&& 0xff0000) >>> 16).setWidth 64) (h e he)
  exact decide_eq_decide.2 (by rw [coversGSI, coversGSI, hcount])

theorem lastPin_eq (h : SameVersions m g r d) (he : e ∈ ioAPICs g) :
    lastPin (contents d) m e = lastPin r m e :=
  congrArg (fun v : BitVec 32 => ((v >>> 16) &&& 0xff).toNat) (h e he)

theorem programmed (h : SameVersions m g r d) {low high : BitVec 32} {entry : Word}
    (hprog : Programmed m g d d' e pin low high) (hpin : pin < 120)
    (hentry : high ++ low = entry) :
    SameVersions m g r d' ∧ ∀ k ∈ pins g,
      redirectionEntry (d' (apicAddr m k.1)) k.2 =
        (if k.1 = e ∧ k.2 = pin then some entry else none).getD
          (redirectionEntry (d (apicAddr m k.1)) k.2) := by
  refine ⟨fun f hf => (hprog.version hpin hf).trans (h f hf), fun k hk => ?_⟩
  rw [hprog.entry hpin hk.1 hk.2, hentry]
  split_ifs <;> rfl

theorem redirectGSI (hwindows : WindowsApart m g)
    (hpins : ∀ e ∈ ioAPICs g, lastPin r m e < 120) (h : SameVersions m g r d)
    {gsi : BitVec 32} (hne : (Mmio.getGSI m g gsi d).1 ≠ 0) (lapicID : BitVec 32)
    (vec : BitVec 8) (flags : BitVec 16) (mask : Bool) :
    let d' := OptimistOS.redirectGSI m g lapicID vec gsi flags mask d
    SameVersions m g r d' ∧ ∀ k ∈ pins g,
      redirectionEntry (d' (apicAddr m k.1)) k.2 =
        (RedirectCall.redirects m g r lapicID vec gsi flags mask k).getD
          (redirectionEntry (d (apicAddr m k.1)) k.2) := by
  have hfound : OptimistOS.getGSI (contents d) m g gsi =
      OptimistOS.getGSI r m g gsi := h.getGSI_eq gsi
  rw [(Mmio.getGSI_spec hwindows gsi d).1, hfound] at hne
  obtain ⟨hmem, hpin⟩ := getGSI_covers rfl hne
  have hlast := hpins _ hmem
  exact h.programmed (programmed_redirectGSI hwindows hfound hne _ _ _ _)
    (by omega) (halves_append _)

theorem initIOAPIC (hwindows : WindowsApart m g)
    (hpins : ∀ e ∈ ioAPICs g, lastPin r m e < 120) (h : SameVersions m g r d)
    (he : g.madtInformationList 0 ∈ ioAPICs g)
    (hinit : Mmio.initIOAPIC m g d = some d') :
    SameVersions m g r d' ∧ ∀ k ∈ pins g,
      redirectionEntry (d' (apicAddr m k.1)) k.2 =
        (RedirectCall.initIOAPIC.sets m g r k).getD
          (redirectionEntry (d (apicAddr m k.1)) k.2) := by
  set e := g.madtInformationList 0 with he_eq
  have hversion := Mmio.sameContents_ioAPICRead hwindows he 1 d
  have hsame : SameContents m g d
      (Mmio.ioAPICRead m e 0 (Mmio.ioAPICRead m e 1 d).2).2 := fun f hf =>
    (Mmio.sameContents_ioAPICRead hwindows he 0 _ f hf).trans (hversion f hf)
  have hcount : (((Mmio.ioAPICRead m e 1 d).1 >>> 16) &&& 0xff).toNat =
      lastPin r m e := by
    rw [Mmio.ioAPICRead_fst, ← h.lastPin_eq he]
    rfl
  have hlast := hpins e he
  rw [Mmio.initIOAPIC] at hinit
  simp only [← he_eq, hcount] at hinit
  split_ifs at hinit with hid
  obtain rfl := Option.some.inj hinit
  obtain ⟨hentry, hversions⟩ := redirectionEntry_initPins
    (d := (Mmio.ioAPICRead m e 0 (Mmio.ioAPICRead m e 1 d).2).2) hwindows he
      (n := lastPin r m e + 1) (by omega)
  refine ⟨fun f hf => ?_, fun k hk => ?_⟩
  · rw [hversions f hf, hsame.contents_eq hf, h f hf]
  · rw [hentry k.1 hk.1 k.2 hk.2, redirectionEntry_congr (hsame k.1 hk.1),
      RedirectCall.sets, ← he_eq]
    split_ifs <;> rfl

theorem step (hwindows : WindowsApart m g)
    (hlen : g.madtInformation.madtISOLen.toNat ≤ 128)
    (hpins : ∀ e ∈ ioAPICs g, lastPin r m e < 120) (h : SameVersions m g r d)
    {c : RedirectCall} (hstep : RedirectStep m g d c d') :
    SameVersions m g r d' ∧ ∀ k ∈ pins g,
      redirectionEntry (d' (apicAddr m k.1)) k.2 =
        (c.sets m g r k).getD (redirectionEntry (d (apicAddr m k.1)) k.2) := by
  cases hstep with
  | initIOAPIC he hinit => exact h.initIOAPIC hwindows hpins he hinit
  | redirectGSI lapicID vec gsi flags mask hne =>
      exact h.redirectGSI hwindows hpins hne lapicID vec flags mask
  | redirectIRQ fuel lapicID vec irq mask hrun hne =>
      rw [OptimistOS.redirectIRQ, searchISO_eq hlen] at hrun
      obtain rfl := Option.some.inj hrun
      exact h.redirectGSI hwindows hpins hne lapicID vec _ mask
  | setEntry data he hidx =>
      exact h.programmed (Mmio.programmed_setEntry hwindows he _ data d) hidx
        (halves_append data)
  | elsewhere hsame =>
      refine ⟨fun f hf => (hsame.contents_eq hf 1).trans (h f hf), fun k hk => ?_⟩
      exact redirectionEntry_congr (hsame k.1 hk.1) k.2

end SameVersions

/-- In every run an entry is what was set last for its pin, and `getGSI` finds what
it found at the start. -/
theorem entries_of_run {d₀ : Devices} {cs : List RedirectCall}
    (hwindows : WindowsApart m g)
    (hlen : g.madtInformation.madtISOLen.toNat ≤ 128)
    (hpins : ∀ e ∈ ioAPICs g, lastPin (contents d₀) m e < 120)
    (hrun : Run (RedirectStep m g) d₀ cs d) :
    (∀ e ∈ ioAPICs g, ∀ i < 120, redirectionEntry (d (apicAddr m e)) i =
        (lastSet (RedirectCall.sets m g (contents d₀)) cs (e, i)).getD
          (redirectionEntry (d₀ (apicAddr m e)) i)) ∧
      ∀ gsi, (Mmio.getGSI m g gsi d).1 = (Mmio.getGSI m g gsi d₀).1 := by
  have hstep : ∀ d c d', SameVersions m g (contents d₀) d →
      RedirectStep m g d c d' → SameVersions m g (contents d₀) d' ∧
        ∀ k ∈ pins g, redirectionEntry (d' (apicAddr m k.1)) k.2 =
          (RedirectCall.sets m g (contents d₀) c k).getD
            (redirectionEntry (d (apicAddr m k.1)) k.2) :=
    fun _ _ _ h hs => h.step hwindows hlen hpins hs
  obtain ⟨hversions, hentries⟩ := hrun.lastSet (pins g)
    (RedirectCall.sets m g (contents d₀))
    (fun (d : Devices) k => redirectionEntry (d (apicAddr m k.1)) k.2)
    (SameVersions m g (contents d₀)) (fun _ _ => rfl) hstep
  refine ⟨fun e he i hi => hentries (e, i) ⟨he, hi⟩, fun gsi => ?_⟩
  rw [(Mmio.getGSI_spec hwindows gsi d).1, (Mmio.getGSI_spec hwindows gsi d₀).1]
  exact hversions.getGSI_eq gsi

/-- After `initIOAPIC` and a redirection of the IRQ 0, the pin 2 sends it to the
processor 1, and the pin 3 is masked still. -/
theorem entries_of_run_timer :
    ∃ d, Run (RedirectStep timerTables timerMadt) timerDevices
        [.initIOAPIC, .redirectIRQ 1 32 0 false] d ∧
      redirectionEntry (d (apicAddr timerTables 0x1000)) 2 =
        entryWord 1 32 0x0A false ∧
      redirectionEntry (d (apicAddr timerTables 0x1000)) 3 =
        entryWord 0 35 0 true ∧
      ∀ gsi, (Mmio.getGSI timerTables timerMadt gsi d).1 =
        (Mmio.getGSI timerTables timerMadt gsi timerDevices).1 := by
  have hwindows : WindowsApart timerTables timerMadt :=
    List.pairwise_singleton _ _
  have hlen : timerMadt.madtInformation.madtISOLen.toNat ≤ 128 := by decide
  have hmem : (0x1000 : Addr) ∈ ioAPICs timerMadt := by decide
  have hpins : ∀ e ∈ ioAPICs timerMadt,
      lastPin (contents timerDevices) timerTables e < 120 := by
    intro e he
    obtain rfl : e = 0x1000 := by simpa [ioAPICs, timerMadt] using he
    decide
  obtain ⟨d₁, hd₁⟩ : ∃ d₁,
      Mmio.initIOAPIC timerTables timerMadt timerDevices = some d₁ := by
    rw [Mmio.initIOAPIC]
    exact ⟨_, if_neg (by decide)⟩
  have hinit : RedirectStep timerTables timerMadt timerDevices .initIOAPIC d₁ :=
    .initIOAPIC hmem hd₁
  have hversions : SameVersions timerTables timerMadt (contents timerDevices) d₁ :=
    (SameVersions.step hwindows hlen hpins (fun _ _ => rfl) hinit).1
  have hgsi : (Mmio.getGSI timerTables timerMadt
      (isoGSI timerTables 0 (firstISO timerTables timerMadt 0)) d₁).1 ≠ 0 := by
    rw [(Mmio.getGSI_spec hwindows _ d₁).1, hversions.getGSI_eq]
    decide
  obtain ⟨d₂, hirq⟩ : ∃ d₂, redirectIRQ timerTables timerMadt (0 + 129) 1 32 0 false
      d₁ = some d₂ := by
    rw [redirectIRQ, searchISO_eq hlen]
    exact ⟨_, rfl⟩
  have hrun : Run (RedirectStep timerTables timerMadt) timerDevices
      [.initIOAPIC, .redirectIRQ 1 32 0 false] d₂ :=
    (Run.single hinit).snoc (.redirectIRQ 0 1 32 0 false hirq hgsi)
  obtain ⟨hentries, hfinds⟩ := entries_of_run hwindows hlen hpins hrun
  refine ⟨d₂, hrun, ?_, ?_, hfinds⟩
  · rw [hentries 0x1000 hmem 2 (by decide)]
    decide
  · rw [hentries 0x1000 hmem 3 (by decide)]
    decide

end OptimistOS
