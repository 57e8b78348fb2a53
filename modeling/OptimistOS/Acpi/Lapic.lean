import Mathlib.Logic.Function.Iterate
import OptimistOS.Boot.BootInfo

/-!
# The timer of the local APIC

`lapicTimer` computes the count of the timer in 64 bits and stores it in a
register of 32 bits: the test for zero is made before the upper half is dropped
(`startsTimer_iff`). `lapicTimerCalibrate` waits for ticks of the PIT with the
interrupts disabled, which is when there are none (`never_calibrates`).

Time is counted in cycles of the PIT, 1193180 in a second. The other threads, to
which `pitHandler` may switch, are left out.
-/

namespace OptimistOS

/-- The registers of the local APIC, the PIT and the global variables of the two
timers. The count of the timer runs since `started`. -/
structure TimerState where
  registers : BitVec 32 → BitVec 32
  started : ℕ
  time : ℕ
  divisor : ℕ
  interrupts : Bool
  pitTicks : Word
  ticksPerMS : BitVec 32

namespace TimerState

/-- `lapicWrite`. The initial count, at 0x380, starts the timer. -/
def lapicWrite (s : TimerState) (reg value : BitVec 32) : TimerState :=
  { s with
    registers := Function.update s.registers reg value
    started := if reg = 0x380 then s.time else s.started }

/-- `lapicRead`. The current count, at 0x390, is lowered `rate` times in a
millisecond. -/
def lapicRead (rate : ℕ) (s : TimerState) (reg : BitVec 32) : BitVec 32 :=
  if reg = 0x390 then
    s.registers 0x380 -
      BitVec.ofNat 32 (rate * (s.time - s.started) * 1000 / 1193180)
  else s.registers reg

def pitHandler (s : TimerState) : TimerState :=
  { s with pitTicks := s.pitTicks + 1 }

/-- The PIT ticks every `divisor` cycles. Its handler runs while the interrupts
are enabled. -/
def wait (cycles : ℕ) (s : TimerState) : TimerState :=
  let ticks := (s.time + cycles) / s.divisor - s.time / s.divisor
  let s := { s with time := s.time + cycles }
  if s.interrupts then pitHandler^[ticks] s else s

/-- `pitInit`. The parameter is not used. -/
def pitInit (_hertz : BitVec 8) (s : TimerState) : TimerState :=
  let divisor : BitVec 32 := 1193180 / 100
  let l := divisor.setWidth 8
  let h := (divisor >>> 8).setWidth 8
  { s with divisor := (h ++ l).toNat, interrupts := true }

/-- `asm volatile("cli")`. -/
def cli (s : TimerState) : TimerState :=
  { s with interrupts := false }

/-- The loop of `sleepMS`. Its next iteration takes `cycles k` cycles. -/
def sleepLoop (cycles : ℕ → ℕ) (startTime targetTicks : Word) :
    ℕ → ℕ → TimerState → Option TimerState
  | 0, _, _ => none
  | fuel + 1, k, s =>
      if s.pitTicks - startTime < targetTicks then
        sleepLoop cycles startTime targetTicks fuel (k + 1) (s.wait (cycles k))
      else some s

def sleepMS (cycles : ℕ → ℕ) (fuel : ℕ) (milliseconds : BitVec 32)
    (s : TimerState) : Option TimerState :=
  sleepLoop cycles s.pitTicks ((milliseconds * 10).signExtend 64) fuel 0 s

def lapicTimerCalibrate (rate : ℕ) (cycles : ℕ → ℕ) (fuel : ℕ) (s : TimerState) :
    Option TimerState := do
  let s := s.lapicWrite 0x3E0 0x03
  let s := s.lapicWrite 0x380 0xFFFFFFFF
  let s := s.lapicWrite 0x320 (s.lapicRead rate 0x320 &&& ~~~(1#32 <<< 16))
  let s ← sleepMS cycles fuel 10 s.cli
  let s := s.lapicWrite 0x320 (s.lapicRead rate 0x320 ||| 1#32 <<< 16)
  return { s with ticksPerMS := (0xFFFFFFFF - s.lapicRead rate 0x390) / 10 }

def lapicTimer (rate : ℕ) (cycles : ℕ → ℕ) (fuel : ℕ) (vector : BitVec 8)
    (ms : Word) (s : TimerState) : Option TimerState := do
  let s ← if s.ticksPerMS = 0 then lapicTimerCalibrate rate cycles fuel s
    else some s
  let ticks : Word := s.ticksPerMS.setWidth 64 * ms
  let s := s.lapicWrite 0x3E0 0x03
  let value : Word := (s.lapicRead rate 0x320 &&& ~~~(3#32 <<< 17)).setWidth 64
  let value := value ||| 0#64 <<< 17
  let value := value &&& 0xFFFFFF00
  let value := value ||| vector.setWidth 64
  let s := s.lapicWrite 0x320 (value.setWidth 32)
  let s := s.lapicWrite 0x380 ((if ticks ≠ 0 then ticks else 1).setWidth 32)
  return s.lapicWrite 0x320 (s.lapicRead rate 0x320 &&& ~~~(1#32 <<< 16))

/-- The count that `lapicTimer` stores is not zero, and the product if this fits
into the register. -/
def StartsTimer (rate : ℕ) (cycles : ℕ → ℕ) (vector : BitVec 8) (ms : Word)
    (s : TimerState) : Prop :=
  ∃ fuel t, s.lapicTimer rate cycles fuel vector ms = some t ∧
    t.registers 0x380 ≠ 0 ∧
      (s.ticksPerMS.toNat * ms.toNat < 2 ^ 32 →
        (t.registers 0x380).toNat = s.ticksPerMS.toNat * ms.toNat)

/-- `lapicTimerCalibrate` ends and sets a value of at most `2 * rate`. -/
def Calibrates (rate : ℕ) (cycles : ℕ → ℕ) (s : TimerState) : Prop :=
  ∃ fuel t, s.lapicTimerCalibrate rate cycles fuel = some t ∧
    t.ticksPerMS.toNat ≤ 2 * rate

variable {rate : ℕ} {cycles : ℕ → ℕ} {fuel k : ℕ} {vector : BitVec 8} {ms : Word}
  {startTime targetTicks : Word} {s t : TimerState}

@[simp] theorem registers_lapicWrite (s : TimerState) (reg value : BitVec 32) :
    (s.lapicWrite reg value).registers = Function.update s.registers reg value :=
  rfl

def count (ticks : Word) : BitVec 32 :=
  (if ticks ≠ 0 then ticks else 1).setWidth 32

theorem registers_lapicTimer (h : s.ticksPerMS ≠ 0) (rate : ℕ) (cycles : ℕ → ℕ)
    (fuel : ℕ) (vector : BitVec 8) (ms : Word) :
    ∃ t, s.lapicTimer rate cycles fuel vector ms = some t ∧
      t.registers 0x380 = count (s.ticksPerMS.setWidth 64 * ms) := by
  refine ⟨_, by
    rw [lapicTimer, if_neg h]
    rfl, ?_⟩
  rw [registers_lapicWrite, Function.update_of_ne (by decide),
    registers_lapicWrite, Function.update_self]
  rfl

theorem toNat_count_eq_zero_iff (ticks : Word) :
    (count ticks).toNat = 0 ↔ ticks.toNat ≠ 0 ∧ 2 ^ 32 ∣ ticks.toNat := by
  rw [count, Nat.dvd_iff_mod_eq_zero]
  split_ifs with hzero
  · rw [BitVec.toNat_setWidth, and_iff_right]
    exact fun h => hzero (BitVec.eq_of_toNat_eq h)
  · rw [not_not.1 hzero]
    decide

theorem toNat_count_of_lt {ticks : Word} (hpos : 0 < ticks.toNat)
    (hlt : ticks.toNat < 2 ^ 32) : (count ticks).toNat = ticks.toNat := by
  have hne : ticks ≠ 0 := by
    rintro rfl
    exact absurd hpos (by decide)
  rw [count, if_pos hne, BitVec.toNat_setWidth, Nat.mod_eq_of_lt hlt]

/-- `lapicTimer` stores a proper count exactly if the product is no multiple of
2^32, or also one of 2^64. -/
theorem startsTimer_iff (rate : ℕ) (cycles : ℕ → ℕ) (vector : BitVec 8)
    (hticks : 1 ≤ s.ticksPerMS.toNat) (hms : 1 ≤ ms.toNat) :
    s.StartsTimer rate cycles vector ms ↔
      (2 ^ 32 ∣ s.ticksPerMS.toNat * ms.toNat →
        2 ^ 64 ∣ s.ticksPerMS.toNat * ms.toNat) := by
  have hne : s.ticksPerMS ≠ 0 := by
    intro h
    rw [h] at hticks
    exact absurd hticks (by decide)
  have hpos := Nat.mul_pos hticks hms
  have hticks' : (s.ticksPerMS.setWidth 64 * ms).toNat =
      s.ticksPerMS.toNat * ms.toNat % 2 ^ 64 := by
    rw [BitVec.toNat_mul, BitVec.toNat_setWidth_of_le (by decide)]
  have hcount := toNat_count_eq_zero_iff (s.ticksPerMS.setWidth 64 * ms)
  rw [hticks'] at hcount
  constructor
  · rintro ⟨fuel, t, hrun, hzero, -⟩ hdvd
    obtain ⟨t', hrun', hstored⟩ :=
      registers_lapicTimer hne rate cycles fuel vector ms
    obtain rfl := Option.some.inj (hrun'.symm.trans hrun)
    have hnonzero : (count (s.ticksPerMS.setWidth 64 * ms)).toNat ≠ 0 :=
      fun h => hzero (hstored.trans (BitVec.eq_of_toNat_eq h))
    rw [ne_eq, hcount] at hnonzero
    omega
  · intro h
    obtain ⟨t, hrun, hstored⟩ := registers_lapicTimer hne rate cycles 0 vector ms
    refine ⟨0, t, hrun, fun hzero => ?_, fun hlt => ?_⟩
    · have hdvd := hcount.1 (congrArg BitVec.toNat (hstored.symm.trans hzero))
      omega
    · have hmod := Nat.mod_eq_of_lt (hlt.trans (by decide : 2 ^ 32 < 2 ^ 64))
      rw [hmod] at hticks'
      rw [hstored, toNat_count_of_lt (by omega) (by omega), hticks']

/-- The state after the PIT has been programmed, with a rate. -/
def calibrated (ticksPerMS : BitVec 32) : TimerState :=
  pitInit 25 {
    registers := fun _ => 0
    started := 0
    time := 0
    divisor := 0
    interrupts := false
    pitTicks := 0
    ticksPerMS := ticksPerMS }

example : (calibrated 0).divisor = 11931 := by decide

/-- Ten milliseconds. -/
theorem startsTimer_iff_ten :
    (calibrated 1000).StartsTimer 1000 (fun _ => 100) 32 10 :=
  (startsTimer_iff 1000 (fun _ => 100) 32 (by decide) (by decide)).2 (by decide)

/-- A product of 2^32. -/
theorem not_startsTimer_calibrated :
    1 ≤ (calibrated 65536).ticksPerMS.toNat ∧ 1 ≤ (65536 : Word).toNat ∧
      ¬ (calibrated 65536).StartsTimer 65536 (fun _ => 100) 32 65536 := by
  refine ⟨by decide, by decide, ?_⟩
  rintro ⟨fuel, t, hrun, hzero, -⟩
  obtain ⟨t', hrun', hstored⟩ := registers_lapicTimer (s := calibrated 65536)
    (by decide) 65536 (fun _ => 100) fuel 32 65536
  obtain rfl := Option.some.inj (hrun'.symm.trans hrun)
  exact hzero (hstored.trans (by decide))

theorem sleepLoop_spec (h : sleepLoop cycles startTime targetTicks fuel k s = some t) :
    targetTicks ≤ t.pitTicks - startTime := by
  induction fuel generalizing k s with
  | zero => exact absurd h (by simp [sleepLoop])
  | succ fuel ih =>
      rw [sleepLoop] at h
      split_ifs at h with hlt
      · exact ih h
      · obtain rfl := Option.some.inj h
        exact BitVec.not_lt.1 hlt

theorem sleepLoop_of_disabled (hdisabled : s.interrupts = false)
    (h : sleepLoop cycles startTime targetTicks fuel k s = some t) :
    t.pitTicks = s.pitTicks := by
  induction fuel generalizing k s with
  | zero => exact absurd h (by simp [sleepLoop])
  | succ fuel ih =>
      rw [sleepLoop] at h
      split_ifs at h with hlt
      · have hwait : (s.wait (cycles k)).interrupts = false ∧
            (s.wait (cycles k)).pitTicks = s.pitTicks := by
          rw [wait]
          simp only [hdisabled, Bool.false_eq_true, if_false, and_self]
        rw [ih hwait.1 h, hwait.2]
      · exact congrArg pitTicks (Option.some.inj h).symm

theorem sleepMS_of_disabled (hdisabled : s.interrupts = false)
    {milliseconds : BitVec 32}
    (hpos : (0 : Word) < (milliseconds * 10).signExtend 64) :
    sleepMS cycles fuel milliseconds s = none := by
  rw [Option.eq_none_iff_forall_not_mem]
  intro t ht
  have hle := sleepLoop_spec ht
  rw [sleepLoop_of_disabled hdisabled ht, BitVec.sub_self] at hle
  exact absurd hpos (BitVec.not_lt.2 hle)

theorem lapicTimerCalibrate_eq_none (rate : ℕ) (cycles : ℕ → ℕ) (fuel : ℕ)
    (s : TimerState) : s.lapicTimerCalibrate rate cycles fuel = none := by
  rw [lapicTimerCalibrate, sleepMS_of_disabled rfl (by decide)]
  rfl

/-- The calibration never ends, at no rate and from no state. -/
theorem never_calibrates (rate : ℕ) (cycles : ℕ → ℕ) (s : TimerState) :
    ¬ s.Calibrates rate cycles := by
  rintro ⟨fuel, t, h, -⟩
  rw [lapicTimerCalibrate_eq_none] at h
  exact absurd h (by simp)

/-- A timer of 1000 counts in a millisecond. -/
theorem not_calibrates_calibrated :
    ¬ (calibrated 0).Calibrates 1000 fun _ => 100 := by
  rintro ⟨fuel, t, h, -⟩
  rw [lapicTimerCalibrate_eq_none] at h
  exact absurd h (by simp)

end TimerState

end OptimistOS
