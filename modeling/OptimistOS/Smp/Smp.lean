import Mathlib.Data.BitVec
import Mathlib.Data.Fintype.Card
import OptimistOS.Foundation.Run

/-!
# Starting the other processors

`initSMP` and `initOtherCPUs` (`smp.cpp`). The boot processor fills slot 0 of
`cpuInformation` and sends the application processors to `initOtherCPUs`. There
each of them waits until `cpusStarted` has reached its LAPIC ID, takes the value
of `cpusStarted` for its number, stores its record in the slot of this number
and increments `cpusStarted`. These steps of the processors interleave freely.

A processor with ID `n` may go on as soon as `cpusStarted` is at least `n`, so
the IDs 0 and 1 may both go on at the start. These are the only IDs that can
meet: unless both belong to application processors, at most `c` processors have
an ID up to `c`, and when `cpusStarted` is `c` all but one of them have finished
(`insideAtMostOne`).
-/

namespace OptimistOS

open Transition

/-- `cpuInfo`, as far as the start of the processors sets it to a value that is
not zero. -/
structure CpuInfo where
  lapicID : BitVec 32
  cpuNumber : BitVec 32
  deriving DecidableEq, Repr

inductive Phase
  /-- `while (cpusStarted < smpInfo->lapic_id)`. -/
  | waiting
  /-- `cpu->cpuNumber = cpusStarted` comes next. -/
  | released
  /-- `cpuInformation[cpu->cpuNumber] = cpu` comes next. -/
  | numbered (cpuNumber : BitVec 32)
  /-- `cpusStarted++` comes next. -/
  | stored (cpuNumber : BitVec 32)
  /-- The endless loop. -/
  | started (cpuNumber : BitVec 32)
  deriving DecidableEq, Repr

def Phase.cpuNumber : Phase → Option (BitVec 32)
  | .waiting => none
  | .released => none
  | .numbered n => some n
  | .stored n => some n
  | .started n => some n

/-- The shared variables and the phases of the application processors `ι`. The
slots of `cpuInformation` are addressed without a bound. -/
structure SmpState (ι : Type) where
  cpusStarted : BitVec 32
  cpuInformation : BitVec 32 → Option CpuInfo
  phase : ι → Phase

theorem card_lt_of_misses {ι : Type} {lapic : ι → BitVec 32}
    (hinj : Function.Injective lapic) {t : Finset ι} {b m : ℕ} (hm : m < b)
    (h : ∀ i ∈ t, (lapic i).toNat < b ∧ (lapic i).toNat ≠ m) :
    t.card < b := by
  have hle : t.card ≤ ((Finset.range b).erase m).card := by
    refine Finset.card_le_card_of_injOn (fun i => (lapic i).toNat) ?_ ?_
    · intro i hi
      obtain ⟨hb, hne⟩ := h i hi
      exact Finset.mem_erase.2 ⟨hne, Finset.mem_range.2 hb⟩
    · intro i _ j _ hij
      exact hinj (BitVec.eq_of_toNat_eq hij)
  rw [Finset.card_erase_of_mem (Finset.mem_range.2 hm),
    Finset.card_range] at hle
  omega

variable {ι : Type} [DecidableEq ι]

def initSMP : SmpState ι where
  cpusStarted := 1
  cpuInformation := Function.update (fun _ => none) 0 (some ⟨0, 0⟩)
  phase _ := .waiting

/-- The next atomic step of processor `i` in `initOtherCPUs`; `none` in the
endless loop. In the wait loop it tests the condition once. -/
def initOtherCPUs (lapic : ι → BitVec 32) (s : SmpState ι) (i : ι) :
    Option (SmpState ι) :=
  match s.phase i with
  | .waiting =>
      if s.cpusStarted < lapic i then
        some s
      else
        some { s with phase := Function.update s.phase i .released }
  | .released =>
      some { s with
        phase := Function.update s.phase i (.numbered s.cpusStarted) }
  | .numbered n =>
      some { s with
        cpuInformation :=
          Function.update s.cpuInformation n (some ⟨lapic i, n⟩)
        phase := Function.update s.phase i (.stored n) }
  | .stored n =>
      some { s with
        cpusStarted := s.cpusStarted + 1
        phase := Function.update s.phase i (.started n) }
  | .started _ => none

/-- A step of one of the processors. -/
def SmpStep (lapic : ι → BitVec 32) (s : SmpState ι) (i : ι)
    (s' : SmpState ι) : Prop :=
  initOtherCPUs lapic s i = some s'

/-- No two processors have the same number, every record that was stored is
still in its slot, and slot 0 holds the record of the boot processor. -/
structure Exclusive (lapic : ι → BitVec 32) (s : SmpState ι) : Prop where
  number : ∀ i j n, (s.phase i).cpuNumber = some n →
    (s.phase j).cpuNumber = some n → i = j
  slot : ∀ i n, s.phase i = .stored n ∨ s.phase i = .started n →
    s.cpuInformation n = some ⟨lapic i, n⟩
  boot : s.cpuInformation 0 = some ⟨0, 0⟩

section Safety

variable [Fintype ι]

def finished (s : SmpState ι) : Finset ι :=
  Finset.univ.filter fun i => ∃ n, s.phase i = .started n

omit [DecidableEq ι] in
theorem mem_finished {s : SmpState ι} {i : ι} :
    i ∈ finished s ↔ ∃ n, s.phase i = .started n := by
  simp [finished]

/-- The processor has left the wait loop and has not finished. -/
def Phase.Inside : Phase → Prop
  | .waiting => False
  | .started _ => False
  | _ => True

/-- The processors pass one after the other. -/
structure InOrder (lapic : ι → BitVec 32) (s : SmpState ι) : Prop where
  cpusStarted : s.cpusStarted = BitVec.ofNat 32 (1 + (finished s).card)
  below : ∀ i, s.phase i ≠ .waiting →
    (lapic i).toNat ≤ 1 + (finished s).card
  inside : ∀ i n, s.phase i = .numbered n ∨ s.phase i = .stored n →
    n.toNat = 1 + (finished s).card
  done : ∀ i n, s.phase i = .started n →
    1 ≤ n.toNat ∧ n.toNat ≤ (finished s).card
  distinct : ∀ i j n, s.phase i = .started n → s.phase j = .started n → i = j
  slot : ∀ i n, s.phase i = .stored n ∨ s.phase i = .started n →
    s.cpuInformation n = some ⟨lapic i, n⟩
  boot : s.cpuInformation 0 = some ⟨0, 0⟩

variable {lapic : ι → BitVec 32} {s : SmpState ι}

/-- At most one processor is between the wait loop and the endless loop. -/
theorem InOrder.insideAtMostOne (h : InOrder lapic s)
    (hinj : Function.Injective lapic) {m : BitVec 32} (hm : m = 0 ∨ m = 1)
    (hmiss : ∀ i, lapic i ≠ m) {i j : ι} (hi : (s.phase i).Inside)
    (hj : (s.phase j).Inside) : i = j := by
  by_contra hne
  have hnot : ∀ k, (s.phase k).Inside → k ∉ finished s := by
    intro k hk hmem
    obtain ⟨n, hn⟩ := mem_finished.1 hmem
    rw [hn] at hk
    exact hk
  have hcard : (Insert.insert i (Insert.insert j (finished s))).card =
      (finished s).card + 2 := by
    rw [Finset.card_insert_of_notMem, Finset.card_insert_of_notMem (hnot j hj)]
    rw [Finset.mem_insert, not_or]
    exact ⟨hne, hnot i hi⟩
  have hwait : ∀ k ∈ Insert.insert i (Insert.insert j (finished s)),
      s.phase k ≠ .waiting := by
    intro k hk hw
    simp only [Finset.mem_insert] at hk
    rcases hk with rfl | rfl | hk
    · rw [hw] at hi
      exact hi
    · rw [hw] at hj
      exact hj
    · obtain ⟨n, hn⟩ := mem_finished.1 hk
      rw [hw] at hn
      cases hn
  have hlt := card_lt_of_misses hinj (b := (finished s).card + 2)
    (m := m.toNat) (by rcases hm with rfl | rfl <;> simp) fun k hk =>
      ⟨by have := h.below k (hwait k hk); omega,
        fun heq => hmiss k (BitVec.eq_of_toNat_eq heq)⟩
  omega

theorem card_finished_lt (hinj : Function.Injective lapic) {bsp : BitVec 32}
    (hbsp : ∀ i, lapic i ≠ bsp) {i : ι} (hi : i ∉ finished s) :
    1 + (finished s).card < 2 ^ 32 := by
  have hlt := card_lt_of_misses hinj (t := Insert.insert i (finished s))
    (b := 2 ^ 32) (m := bsp.toNat) bsp.isLt fun k _ =>
      ⟨(lapic k).isLt, fun heq => hbsp k (BitVec.eq_of_toNat_eq heq)⟩
  rw [Finset.card_insert_of_notMem hi] at hlt
  omega

theorem finished_update {s : SmpState ι} {i : ι} {p : Phase}
    (hi : i ∉ finished s) (hp : ∀ n, p ≠ .started n) {t : SmpState ι}
    (ht : t.phase = Function.update s.phase i p) : finished t = finished s := by
  ext j
  rw [mem_finished, mem_finished, ht]
  by_cases hj : j = i
  · subst hj
    rw [Function.update_self]
    exact ⟨fun ⟨n, hn⟩ => absurd hn (hp n), fun h => absurd (mem_finished.2 h) hi⟩
  · rw [Function.update_of_ne hj]

theorem finished_start {s : SmpState ι} {i : ι} {n : BitVec 32}
    {t : SmpState ι} (ht : t.phase = Function.update s.phase i (.started n)) :
    finished t = Insert.insert i (finished s) := by
  ext j
  rw [Finset.mem_insert, mem_finished, mem_finished, ht]
  by_cases hj : j = i
  · subst hj
    rw [Function.update_self]
    exact ⟨fun _ => .inl rfl, fun _ => ⟨n, rfl⟩⟩
  · rw [Function.update_of_ne hj]
    exact ⟨.inr, fun h => h.resolve_left hj⟩

omit [DecidableEq ι] in
theorem InOrder.start (lapic : ι → BitVec 32) :
    InOrder lapic (initSMP : SmpState ι) := by
  have hempty : finished (initSMP : SmpState ι) = ∅ := by
    ext i
    rw [mem_finished]
    simp [initSMP]
  refine ⟨by rw [hempty]; rfl, fun i h => absurd rfl h, fun i n h => ?_,
    fun i n h => ?_, fun i j n h => ?_, fun i n h => ?_, rfl⟩
  · exact absurd h (by simp [initSMP])
  · exact absurd h (by simp [initSMP])
  · exact absurd h (by simp [initSMP])
  · exact absurd h (by simp [initSMP])

/-- A step that changes the phase of `i` only. -/
theorem InOrder.move (h : InOrder lapic s) {i : ι} (hi : i ∉ finished s)
    {p : Phase} (hp : ∀ n, p ≠ .started n) {t : SmpState ι}
    (hphase : t.phase = Function.update s.phase i p)
    (hstarted : t.cpusStarted = s.cpusStarted)
    (hinfo : t.cpuInformation = s.cpuInformation)
    (hbelow : p ≠ .waiting → (lapic i).toNat ≤ 1 + (finished s).card)
    (hinside : ∀ n, p = .numbered n ∨ p = .stored n →
      n.toNat = 1 + (finished s).card)
    (hslot : ∀ n, p = .stored n → s.cpuInformation n = some ⟨lapic i, n⟩) :
    InOrder lapic t := by
  have hself : t.phase i = p := by rw [hphase, Function.update_self]
  have hother : ∀ j, j ≠ i → t.phase j = s.phase j := fun j hj => by
    rw [hphase, Function.update_of_ne hj]
  have hfinished := finished_update hi hp hphase
  refine ⟨by rw [hstarted, hfinished, h.cpusStarted], fun j hj => ?_,
    fun j n hn => ?_, fun j n hn => ?_, fun j k n hj hk => ?_,
    fun j n hn => ?_, by rw [hinfo, h.boot]⟩
  · rw [hfinished]
    by_cases hji : j = i
    · subst hji
      exact hbelow (hself ▸ hj)
    · exact h.below j (hother j hji ▸ hj)
  · rw [hfinished]
    by_cases hji : j = i
    · subst hji
      exact hinside n (hself ▸ hn)
    · exact h.inside j n (hother j hji ▸ hn)
  · rw [hfinished]
    by_cases hji : j = i
    · subst hji
      exact absurd (hself ▸ hn) (hp n)
    · exact h.done j n (hother j hji ▸ hn)
  · have hne : ∀ l, t.phase l = .started n → l ≠ i := by
      rintro l hl rfl
      exact hp n (hself ▸ hl)
    exact h.distinct j k n (hother j (hne j hj) ▸ hj) (hother k (hne k hk) ▸ hk)
  · rw [hinfo]
    by_cases hji : j = i
    · subst hji
      exact hslot n ((hself ▸ hn).resolve_right (hp n))
    · exact h.slot j n (hother j hji ▸ hn)

/-- `cpusStarted++` by the only processor inside. -/
theorem InOrder.increment (h : InOrder lapic s)
    (hinj : Function.Injective lapic) {m : BitVec 32} (hm : m = 0 ∨ m = 1)
    (hmiss : ∀ i, lapic i ≠ m) {i : ι} {n : BitVec 32}
    (hphase : s.phase i = .stored n) :
    InOrder lapic { s with
      cpusStarted := s.cpusStarted + 1
      phase := Function.update s.phase i (.started n) } := by
  set t : SmpState ι := { s with
    cpusStarted := s.cpusStarted + 1
    phase := Function.update s.phase i (.started n) }
  have hi : i ∉ finished s := by
    intro hmem
    obtain ⟨k, hk⟩ := mem_finished.1 hmem
    rw [hphase] at hk
    cases hk
  have hn := h.inside i n (.inr hphase)
  have hself : t.phase i = .started n := Function.update_self _ _ _
  have hother : ∀ j, j ≠ i → t.phase j = s.phase j := fun j hj =>
    Function.update_of_ne hj _ _
  have hcard : (finished t).card = (finished s).card + 1 := by
    rw [finished_start (s := s) (i := i) (n := n) rfl,
      Finset.card_insert_of_notMem hi]
  refine ⟨?_, fun j hj => ?_, fun j k hk => ?_, fun j k hk => ?_,
    fun j l k hj hl => ?_, fun j k hk => ?_, h.boot⟩
  · change s.cpusStarted + 1 = _
    rw [h.cpusStarted, hcard, ← Nat.add_assoc, BitVec.ofNat_add _ 1]
    rfl
  · rw [hcard]
    by_cases hji : j = i
    · have hbelow := h.below i (by rw [hphase]; simp)
      rw [hji]
      omega
    · have hbelow := h.below j (hother j hji ▸ hj)
      omega
  · by_cases hji : j = i
    · subst hji
      rw [hself] at hk
      exact absurd hk (by simp)
    · rw [hother j hji] at hk
      refine absurd (h.insideAtMostOne hinj hm hmiss ?_ ?_) hji
      · rcases hk with hk | hk <;> rw [hk] <;> trivial
      · rw [hphase]
        trivial
  · rw [hcard]
    by_cases hji : j = i
    · subst hji
      obtain rfl : n = k := by simpa [hself] using hk
      omega
    · have hdone := h.done j k (hother j hji ▸ hk)
      omega
  · by_cases hji : j = i <;> by_cases hli : l = i
    · rw [hji, hli]
    · subst hji
      obtain rfl : n = k := by simpa [hself] using hj
      have hdone := h.done l n (hother l hli ▸ hl)
      omega
    · subst hli
      obtain rfl : n = k := by simpa [hself] using hl
      have hdone := h.done j n (hother j hji ▸ hj)
      omega
    · exact h.distinct j l k (hother j hji ▸ hj) (hother l hli ▸ hl)
  · by_cases hji : j = i
    · subst hji
      obtain rfl : n = k := by simpa [hself] using hk
      exact h.slot j n (.inl hphase)
    · exact h.slot j k (hother j hji ▸ hk)

/-- Every step keeps the order. -/
theorem InOrder.step (h : InOrder lapic s) (hinj : Function.Injective lapic)
    {bsp : BitVec 32} (hbsp : ∀ i, lapic i ≠ bsp) {m : BitVec 32}
    (hm : m = 0 ∨ m = 1) (hmiss : ∀ i, lapic i ≠ m) {i : ι} {s' : SmpState ι}
    (hstep : SmpStep lapic s i s') : InOrder lapic s' := by
  rw [SmpStep, initOtherCPUs] at hstep
  have hnot : (∀ n, s.phase i ≠ .started n) → i ∉ finished s := fun hp hmem =>
    (mem_finished.1 hmem).elim hp
  cases hphase : s.phase i with
  | waiting =>
      have hi : i ∉ finished s := hnot fun n => by rw [hphase]; simp
      have hlt := card_finished_lt hinj hbsp hi
      rw [hphase] at hstep
      simp only at hstep
      split_ifs at hstep with hwait <;> obtain rfl := Option.some.inj hstep
      · exact h
      · have hbelow : (lapic i).toNat ≤ 1 + (finished s).card := by
          rw [h.cpusStarted, BitVec.not_lt, BitVec.le_def, BitVec.toNat_ofNat,
            Nat.mod_eq_of_lt hlt] at hwait
          exact hwait
        exact h.move hi (by simp) rfl rfl rfl (fun _ => hbelow)
          (fun n hn => by simp at hn) fun n hn => by simp at hn
  | released =>
      have hi : i ∉ finished s := hnot fun n => by rw [hphase]; simp
      have hlt := card_finished_lt hinj hbsp hi
      rw [hphase] at hstep
      obtain rfl := Option.some.inj hstep
      have hbelow := h.below i (by rw [hphase]; simp)
      refine h.move hi (by simp) rfl rfl rfl (fun _ => hbelow)
        (fun n hn => ?_) fun n hn => by simp at hn
      obtain rfl : s.cpusStarted = n := by simpa using hn
      rw [h.cpusStarted, BitVec.toNat_ofNat, Nat.mod_eq_of_lt hlt]
  | numbered n =>
      have hi : i ∉ finished s := hnot fun n => by rw [hphase]; simp
      have hn := h.inside i n (.inl hphase)
      rw [hphase] at hstep
      obtain rfl := Option.some.inj hstep
      -- nobody has stored a record in this slot
      have hfree : ∀ j k, s.phase j = .stored k ∨ s.phase j = .started k →
          k ≠ n := by
        rintro j k (hj | hj) rfl
        · have hji : j = i := h.insideAtMostOne hinj hm hmiss
            (by rw [hj]; trivial) (by rw [hphase]; trivial)
          rw [hji, hphase] at hj
          cases hj
        · have hdone := (h.done j k hj).2
          omega
      have hstore : InOrder lapic { s with
          cpuInformation :=
            Function.update s.cpuInformation n (some ⟨lapic i, n⟩) } := by
        refine ⟨h.cpusStarted, h.below, h.inside, h.done, h.distinct,
          fun j k hj => ?_, ?_⟩
        · exact (Function.update_of_ne (hfree j k hj) _ _).trans (h.slot j k hj)
        · refine (Function.update_of_ne ?_ _ _).trans h.boot
          rintro rfl
          exact absurd hn (by simp; omega)
      refine hstore.move hi (by simp) rfl rfl rfl
        (fun _ => h.below i (by rw [hphase]; simp)) (fun k hk => ?_) fun k hk => ?_
      · obtain rfl : n = k := by simpa using hk
        exact hn
      · obtain rfl : n = k := by simpa using hk
        exact Function.update_self _ _ _
  | stored n =>
      have hi : i ∉ finished s := hnot fun n => by rw [hphase]; simp
      have hn := h.inside i n (.inr hphase)
      have hinside : (s.phase i).Inside := by rw [hphase]; trivial
      rw [hphase] at hstep
      obtain rfl := Option.some.inj hstep
      exact h.increment hinj hm hmiss hphase
  | started n =>
      rw [hphase] at hstep
      exact absurd hstep (by simp)

theorem InOrder.exclusive (h : InOrder lapic s)
    (hinj : Function.Injective lapic) {m : BitVec 32} (hm : m = 0 ∨ m = 1)
    (hmiss : ∀ i, lapic i ≠ m) : Exclusive lapic s := by
  refine ⟨fun i j n hi hj => ?_, h.slot, h.boot⟩
  have hcases : ∀ k, (s.phase k).cpuNumber = some n →
      ((s.phase k).Inside ∧ n.toNat = 1 + (finished s).card) ∨
        s.phase k = .started n := by
    intro k hk
    cases hphase : s.phase k with
    | waiting | released =>
        rw [hphase] at hk
        cases hk
    | numbered l =>
        rw [hphase] at hk
        obtain rfl := Option.some.inj hk
        exact .inl ⟨trivial, h.inside k l (.inl hphase)⟩
    | stored l =>
        rw [hphase] at hk
        obtain rfl := Option.some.inj hk
        exact .inl ⟨trivial, h.inside k l (.inr hphase)⟩
    | started l =>
        rw [hphase] at hk
        obtain rfl := Option.some.inj hk
        exact .inr rfl
  rcases hcases i hi with ⟨hi, hn⟩ | hi <;> rcases hcases j hj with ⟨hj, hn'⟩ | hj
  · exact h.insideAtMostOne hinj hm hmiss hi hj
  · have hdone := (h.done j n hj).2
    omega
  · have hdone := (h.done i n hi).2
    omega
  · exact h.distinct i j n hi hj

end Safety

theorem smpStep_released (lapic : ι → BitVec 32) {s : SmpState ι} {i : ι}
    (h : s.phase i = .waiting) (hwait : ¬ s.cpusStarted < lapic i) :
    SmpStep lapic s i
      { s with phase := Function.update s.phase i .released } := by
  rw [SmpStep, initOtherCPUs, h]
  exact if_neg hwait

theorem smpStep_numbered (lapic : ι → BitVec 32) {s : SmpState ι} {i : ι}
    (h : s.phase i = .released) :
    SmpStep lapic s i { s with
      phase := Function.update s.phase i (.numbered s.cpusStarted) } := by
  rw [SmpStep, initOtherCPUs, h]

/-- The processors with the IDs 0 and 1 leave the wait loop together and take
the same number. -/
theorem not_exclusive_of_zero_one (lapic : ι → BitVec 32) {i j : ι}
    (hi : lapic i = 0) (hj : lapic j = 1) :
    ∃ is s, Run (SmpStep lapic) initSMP is s ∧ ¬ Exclusive lapic s := by
  have hne : j ≠ i := by
    rintro rfl
    rw [hi] at hj
    exact absurd hj (by decide)
  have hzero : ¬ (1 : BitVec 32) < lapic i := by
    rw [hi]
    decide
  have hone : ¬ (1 : BitVec 32) < lapic j := by
    rw [hj]
    decide
  have hrun := Run.single (smpStep_released lapic (s := initSMP) rfl hzero)
  replace hrun := hrun.snoc (smpStep_released lapic
    (Function.update_of_ne hne _ _) hone)
  replace hrun := hrun.snoc (smpStep_numbered lapic (i := i)
    ((Function.update_of_ne hne.symm _ _).trans (Function.update_self _ _ _)))
  replace hrun := hrun.snoc (smpStep_numbered lapic (i := j)
    ((Function.update_of_ne hne _ _).trans (Function.update_self _ _ _)))
  have hnumber : ∀ {p : Phase}, p = .numbered 1 → p.cpuNumber = some 1 := by
    rintro p rfl
    rfl
  refine ⟨_, _, hrun, fun h => hne (h.number j i 1 ?_ ?_)⟩
  · exact hnumber (Function.update_self _ _ _)
  · exact hnumber
      ((Function.update_of_ne hne.symm _ _).trans (Function.update_self _ _ _))

/-- Every interleaving is exclusive exactly when the IDs 0 and 1 do not both
belong to application processors. -/
theorem exclusive_iff [Fintype ι] {lapic : ι → BitVec 32}
    (hinj : Function.Injective lapic) (bsp : BitVec 32)
    (hbsp : ∀ i, lapic i ≠ bsp) :
    (∀ is s, Run (SmpStep lapic) initSMP is s → Exclusive lapic s) ↔
      ¬ ((∃ i, lapic i = 0) ∧ ∃ j, lapic j = 1) := by
  constructor
  · rintro h ⟨⟨i, hi⟩, j, hj⟩
    obtain ⟨is, s, hrun, hnot⟩ := not_exclusive_of_zero_one lapic hi hj
    exact hnot (h is s hrun)
  · intro h is s hrun
    obtain ⟨m, hm, hmiss⟩ : ∃ m : BitVec 32, (m = 0 ∨ m = 1) ∧
        ∀ i, lapic i ≠ m := by
      by_cases hzero : ∃ i, lapic i = 0
      · exact ⟨1, .inr rfl, fun j hj => h ⟨hzero, j, hj⟩⟩
      · exact ⟨0, .inl rfl, fun i hi => hzero ⟨i, hi⟩⟩
    have horder := hrun.invariant (InOrder lapic) (.start lapic)
      fun _ _ _ h hstep => h.step hinj hbsp hm hmiss hstep
    exact horder.exclusive hinj hm hmiss

/-- Two application processors with the IDs 1 and 2 start one after the
other. -/
theorem exclusive_iff_oneTwo :
    (∀ is s, Run (SmpStep (fun i : Bool => if i then 2 else 1)) initSMP is s →
        Exclusive (fun i : Bool => if i then 2 else 1) s) ↔
      ¬ ((∃ i : Bool, (if i then 2 else 1 : BitVec 32) = 0) ∧
        ∃ j : Bool, (if j then 2 else 1 : BitVec 32) = 1) :=
  exclusive_iff (by decide) 0 (by decide)

/-- The boot processor has the ID 2, the application processors have the IDs 0
and 1. -/
theorem exists_lapic_not_exclusive :
    ∃ (lapic : Bool → BitVec 32) (bsp : BitVec 32),
      Function.Injective lapic ∧ (∀ i, lapic i ≠ bsp) ∧
        ¬ ∀ is s, Run (SmpStep lapic) initSMP is s → Exclusive lapic s := by
  refine ⟨fun i => if i then 1 else 0, 2, by decide, by decide, fun h => ?_⟩
  obtain ⟨is, s, hrun, hnot⟩ := not_exclusive_of_zero_one
    (fun i : Bool => if i then 1 else 0) (i := false) (j := true) rfl rfl
  exact hnot (h is s hrun)

end OptimistOS
