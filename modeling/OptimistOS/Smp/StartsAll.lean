import Mathlib.Algebra.Order.BigOperators.Group.Finset
import OptimistOS.Smp.OwnTables
import OptimistOS.Smp.Records

/-!
# When all processors start

Under every fair schedule the boot processor comes out of `initSMP` exactly when
the bootloader lists it first and no LAPIC ID is larger than the number of the
other processors. The boot processor never sends the first entry of the list,
and a processor with a larger ID waits for a value that `cpusStarted` does not
reach.
-/

namespace OptimistOS

open ByteMemory ByteMemory.Code Transition

/-- The steps that a processor still takes behind `initPaging`, apart from those
in which it waits. -/
def stepsLeft : Phase → RequestStage → ℕ
  | .waiting, _ => 7
  | .released, .lock => 6
  | .released, .search => 5
  | .released, .finish _ => 4
  | .released, .served _ => 3
  | .numbered _, _ => 2
  | .stored _, _ => 1
  | .started _, _ => 0

/-- A processor that has started has found `cpusStarted` to be at least its
ID. -/
def Passed {ι : Type} (lapic : ι → BitVec 32) (s : SmpState ι) : Prop :=
  ∀ i n, s.phase i = .started n → (lapic i).toNat ≤ n.toNat

namespace Processors

variable {ι σ τ α : Type} [DecidableEq ι] [Fintype ι]
  {P : Processors ι σ τ α} {J : Set ι → σ → Prop} {b : Addr} {s s' : BringUp ι σ τ α}

/-- What holds in every state that is reached. -/
structure Running (P : Processors ι σ τ α) (J : Set ι → σ → Prop) (b : Addr)
    (s : BringUp ι σ τ α) : Prop where
  order : InOrder P.lapic s.smp
  passed : Passed P.lapic s.smp
  records : TakesRecords b s
  paging : s.paging.Ending P.paging J
  phase : ∀ i, s.paging.place i ≠ .after → s.smp.phase i = .waiting
  place : ∀ i, s.sent i = false → s.paging.place i = .before
  listed : ∀ i, s.sent i = true → some i ∈ P.cpus.tail
  sending : ∀ rest, s.boot = .sending rest →
    rest <:+ P.cpus.tail ∧ ∀ i, some i ∈ P.cpus.tail →
      s.sent i = true ∨ some i ∈ rest
  sent : (∀ rest, s.boot ≠ .sending rest) →
    ∀ i, some i ∈ P.cpus.tail → s.sent i = true
  done : s.boot = .done → ∀ i, ∃ n, s.smp.phase i = .started n

/-- What the results on the whole start are about: the IDs are distinct, they
are not the one of the boot processor, 0 and 1 do not both belong to other
processors, all processors are listed once, and the body of `initPaging` keeps
what its lock guards and ends. -/
structure Fitting (P : Processors ι σ τ α) (J : Set ι → σ → Prop) (b : Addr) : Prop where
  injective : Function.Injective P.lapic
  boot : ∃ bsp, ∀ i, P.lapic i ≠ bsp
  notBoth : ¬ ((∃ i, P.lapic i = 0) ∧ ∃ j, P.lapic j = 1)
  nodup : P.cpus.Nodup
  complete : ∀ c, c ∈ P.cpus
  length : P.cpus.length < 2 ^ 32
  body : ∀ T i v v', i ∈ T → J T v → P.paging.Performs i v v' → J (T \ {i}) v'
  ends : ∀ T i v, i ∈ T → J T v →
    ∃ n, P.paging.EndsIn i n (P.paging.start i, v)
  pointers : PoolPointers b
  fuel : 4 < P.fuel

namespace Fitting

omit [DecidableEq ι] in
theorem exists_miss (h : P.Fitting J b) :
    ∃ m : BitVec 32, (m = 0 ∨ m = 1) ∧ ∀ i, P.lapic i ≠ m := by
  by_cases hzero : ∃ i, P.lapic i = 0
  · exact ⟨1, .inr rfl, fun j hj => h.notBoth ⟨hzero, j, hj⟩⟩
  · exact ⟨0, .inl rfl, fun i hi => hzero ⟨i, hi⟩⟩

theorem length_eq (h : P.Fitting J b) :
    P.cpus.length = Fintype.card ι + 1 := by
  rw [← Fintype.card_option, ← List.toFinset_card_of_nodup h.nodup,
    Finset.eq_univ_of_forall fun c => List.mem_toFinset.2 (h.complete c),
    Finset.card_univ]

theorem toNat_cpuCount (h : P.Fitting J b) :
    P.cpuCount.toNat = Fintype.card ι + 1 := by
  rw [cpuCount, BitVec.toNat_ofNat, Nat.mod_eq_of_lt h.length, h.length_eq]

theorem toNat_cpusStarted (h : P.Fitting J b) {t : SmpState ι}
    (ht : InOrder P.lapic t) :
    t.cpusStarted.toNat = 1 + (finished t).card := by
  have hlt := h.length
  have hlen := h.length_eq
  have hcard := (finished t).card_le_univ
  rw [ht.cpusStarted, BitVec.toNat_ofNat, Nat.mod_eq_of_lt (by omega)]

end Fitting

omit [DecidableEq ι] in
theorem card_finished_eq_iff {t : SmpState ι} :
    (finished t).card = Fintype.card ι ↔ ∀ i, ∃ n, t.phase i = .started n := by
  rw [Finset.card_eq_iff_eq_univ, Finset.eq_univ_iff_forall]
  simp only [mem_finished]

/-- A processor starts with a number that is not below its ID. -/
theorem passed_step {t : SmpState ι} (h : Passed P.lapic s.smp)
    (hord : InOrder P.lapic s.smp) {i : ι}
    (hstep : SmpStep P.lapic s.smp i t) : Passed P.lapic t := by
  intro j n hj
  rw [SmpStep, OptimistOS.initOtherCPUs] at hstep
  cases hphase : s.smp.phase i with
  | waiting =>
      rw [hphase] at hstep
      simp only at hstep
      split_ifs at hstep <;> obtain rfl := Option.some.inj hstep
      · exact h j n hj
      · rcases of_update_eq hj with ⟨-, hp⟩ | ⟨-, hk⟩
        · cases hp
        · exact h j n hk
  | released =>
      rw [hphase] at hstep
      obtain rfl := Option.some.inj hstep
      rcases of_update_eq hj with ⟨-, hp⟩ | ⟨-, hk⟩
      · cases hp
      · exact h j n hk
  | numbered k =>
      rw [hphase] at hstep
      obtain rfl := Option.some.inj hstep
      rcases of_update_eq hj with ⟨-, hp⟩ | ⟨-, hk⟩
      · cases hp
      · exact h j n hk
  | stored k =>
      rw [hphase] at hstep
      obtain rfl := Option.some.inj hstep
      rcases of_update_eq hj with ⟨rfl, hp⟩ | ⟨-, hk⟩
      · obtain rfl := Phase.started.inj hp
        have hbelow := hord.below j (by rw [hphase]; simp)
        rw [hord.inside j k (.inr hphase)]
        exact hbelow
      · exact h j n hk
  | started k =>
      rw [hphase] at hstep
      exact absurd hstep (by simp)

omit [Fintype ι] in
theorem boot_of_step {i : ι} (h : P.Step s (some i) s') :
    s'.boot = s.boot ∧ s'.sent = s.sent := by
  cases step_cases h <;> exact ⟨rfl, rfl⟩

namespace Running

omit [DecidableEq ι] in
theorem start {shared : σ}
    {heap : Machine 64 (HeapGlobals α)} (hshared : J Set.univ shared)
    (hheap : HeapServes heap b 1) :
    P.Running J b (P.start shared heap (requestBlock b recordClass 0)) := by
  have hempty : finished (OptimistOS.initSMP : SmpState ι) = ∅ := by
    ext i
    rw [mem_finished]
    simp [OptimistOS.initSMP]
  refine ⟨.start P.lapic, fun i n h => ?_, ?_, Locked.ending_start hshared,
    fun i _ => rfl, fun i _ => rfl, fun i h => ?_, fun rest h => ?_,
    fun h => ?_, fun h => ?_⟩
  · cases h
  · refine ⟨fun _ => ?_, fun i h => absurd h id, fun i _ => rfl,
      fun i h => absurd rfl h, fun i n h => ?_,
      Function.update_self (0 : BitVec 32) _ (fun _ => (0 : Addr))⟩
    · rw [show (P.start shared heap (requestBlock b recordClass 0)).smp =
        OptimistOS.initSMP from rfl, hempty]
      exact hheap
    · rcases h with h | h <;> cases h
  · cases h
  · obtain rfl := BootStage.sending.inj h
    exact ⟨List.suffix_refl _, fun i hi => .inr hi⟩
  · exact absurd rfl (h P.cpus.tail)
  · cases h

/-- A step of an application processor. -/
theorem step_processor (hfit : P.Fitting J b) (hs : P.Running J b s) {i : ι}
    (hstep : P.Step s (some i) s') (horder : InOrder P.lapic s'.smp)
    (hrecords : TakesRecords b s') : P.Running J b s' := by
  obtain ⟨hboot, hsent⟩ := boot_of_step hstep
  have hrest : (∀ k, s'.sent k = true → some k ∈ P.cpus.tail) ∧
      (∀ rest, s'.boot = .sending rest → rest <:+ P.cpus.tail ∧
        ∀ k, some k ∈ P.cpus.tail → s'.sent k = true ∨ some k ∈ rest) ∧
      ((∀ rest, s'.boot ≠ .sending rest) →
        ∀ k, some k ∈ P.cpus.tail → s'.sent k = true) := by
    rw [hboot, hsent]
    exact ⟨hs.listed, hs.sending, hs.sent⟩
  rcases smp_or_paging hstep with ⟨hsmp, hpaging⟩ |
    ⟨k, hk, hplace, hpaging, hsmp⟩ | ⟨k, hk, hsent', hplace, hsmp, hpaging⟩
  · refine ⟨horder, hsmp ▸ hs.passed, hrecords, hpaging ▸ hs.paging,
      fun j hj => ?_, fun j hj => ?_, hrest.1, hrest.2.1, hrest.2.2,
      fun hdone j => ?_⟩
    · rw [hsmp]
      exact hs.phase j (hpaging ▸ hj)
    · rw [hpaging]
      exact hs.place j (hsent ▸ hj)
    · rw [hsmp]
      exact hs.done (hboot ▸ hdone) j
  · obtain rfl := Option.some.inj hk
    refine ⟨horder, passed_step hs.passed hs.order hsmp, hrecords,
      hpaging ▸ hs.paging, fun j hj => ?_, fun j hj => ?_, hrest.1, hrest.2.1,
      hrest.2.2, fun hdone j => ?_⟩
    · rw [hpaging] at hj
      have hji : j ≠ i := fun heq => hj (heq ▸ hplace)
      rw [phase_of_smpStep hsmp hji]
      exact hs.phase j hj
    · rw [hpaging]
      exact hs.place j (hsent ▸ hj)
    · obtain ⟨n, hn⟩ := hs.done (hboot ▸ hdone) i
      exact absurd hsmp (not_smpStep_of_started hn _)
  · obtain rfl := Option.some.inj hk
    refine ⟨horder, hsmp ▸ hs.passed, hrecords,
      hs.paging.step hfit.body hfit.ends hpaging, fun j hj => ?_,
      fun j hj => ?_, hrest.1, hrest.2.1, hrest.2.2, fun hdone j => ?_⟩
    · rw [hsmp]
      by_cases hji : j = i
      · exact hs.phase j (hji ▸ hplace)
      · rw [Locked.place_of_step hpaging hji] at hj
        exact hs.phase j hj
    · rw [hsent] at hj
      have hji : j ≠ i := by
        rintro rfl
        rw [hj] at hsent'
        cases hsent'
      rw [Locked.place_of_step hpaging hji]
      exact hs.place j hj
    · rw [hsmp]
      exact hs.done (hboot ▸ hdone) j

/-- A step of the boot processor. -/
theorem step_boot (hfit : P.Fitting J b) (hs : P.Running J b s)
    (hstep : P.Step s none s') (horder : InOrder P.lapic s'.smp)
    (hrecords : TakesRecords b s') : P.Running J b s' := by
  cases step_cases hstep with
  | @skip rest hboot =>
      obtain ⟨hsuffix, hrest⟩ := hs.sending _ hboot
      refine ⟨horder, hs.passed, hrecords, hs.paging, hs.phase, hs.place,
        hs.listed, fun rest' h => ?_, fun h => absurd rfl (h rest), nofun⟩
      obtain rfl := BootStage.sending.inj h
      refine ⟨(List.suffix_cons _ _).trans hsuffix, fun i hi => ?_⟩
      exact (hrest i hi).imp id fun hmem => by simpa using hmem
  | @send i rest hboot =>
      obtain ⟨hsuffix, hrest⟩ := hs.sending _ hboot
      have hkeep : ∀ j, s.sent j = true →
          Function.update s.sent i true j = true := by
        intro j hj
        by_cases hji : j = i
        · rw [hji, Function.update_self]
        · rwa [Function.update_of_ne hji]
      refine ⟨horder, hs.passed, hrecords, hs.paging, hs.phase, fun j hj => ?_,
        fun j hj => ?_, fun rest' h => ?_, fun h => absurd rfl (h rest), nofun⟩
      · refine hs.place j ?_
        rcases of_update_eq hj with ⟨-, hp⟩ | ⟨-, hj⟩
        · cases hp
        · exact hj
      · rcases of_update_eq hj with ⟨rfl, -⟩ | ⟨-, hj⟩
        · exact hsuffix.subset List.mem_cons_self
        · exact hs.listed j hj
      · obtain rfl := BootStage.sending.inj h
        refine ⟨(List.suffix_cons _ _).trans hsuffix, fun j hj => ?_⟩
        rcases hrest j hj with hsent | hmem
        · exact .inl (hkeep j hsent)
        · rcases List.mem_cons.1 hmem with heq | hmem
          · refine .inl ?_
            rw [Option.some.inj heq]
            exact Function.update_self _ _ _
          · exact .inr hmem
  | sentAll hboot =>
      obtain ⟨-, hrest⟩ := hs.sending _ hboot
      exact ⟨horder, hs.passed, hrecords, hs.paging, hs.phase, hs.place,
        hs.listed, nofun,
        fun _ i hi => (hrest i hi).resolve_right (by simp), nofun⟩
  | waitAll => exact hs
  | bootDone hboot hle =>
      have hnot : ∀ rest, s.boot ≠ .sending rest := by simp [hboot]
      refine ⟨horder, hs.passed, hrecords, hs.paging, hs.phase, hs.place,
        hs.listed, nofun, fun _ => hs.sent hnot,
        fun _ => card_finished_eq_iff.1 ?_⟩
      rw [BitVec.not_lt, BitVec.le_def, hfit.toNat_cpuCount,
        hfit.toNat_cpusStarted hs.order] at hle
      have hcard := (finished s.smp).card_le_univ
      change (finished s.smp).card = Fintype.card ι
      omega

theorem step (hfit : P.Fitting J b) (hs : P.Running J b s) {c : Option ι}
    (hstep : P.Step s c s') : P.Running J b s' := by
  obtain ⟨bsp, hbsp⟩ := hfit.boot
  obtain ⟨m, hm, hmiss⟩ := hfit.exists_miss
  have horder := inOrder_step hfit.injective hbsp hm hmiss hs.order hstep
  have hrecords := hs.records.step hs.order hfit.injective hbsp hm hmiss
    hfit.pointers hfit.fuel hstep
  cases c with
  | none => exact hs.step_boot hfit hstep horder hrecords
  | some i => exact hs.step_processor hfit hstep horder hrecords

end Running

section Liveness

omit [Fintype ι] in
theorem sent_of_step {c : Option ι} (h : P.Step s c s') {i : ι}
    (hi : s.sent i = true) : s'.sent i = true := by
  cases step_cases h with
  | @send k rest hboot =>
      by_cases hik : i = k
      · rw [hik]
        exact Function.update_self _ _ _
      · exact (Function.update_of_ne hik _ _).trans hi
  | _ => exact hi

/-- The processors that are still to be sent. -/
def BootStage.left : BootStage ι → ℕ
  | .sending rest => rest.length + 1
  | .waiting => 0
  | .done => 0

theorem progress_sending (hfit : P.Fitting J b) :
    Progress P.Step (P.Running J b) (fun s => ∀ rest, s.boot ≠ .sending rest)
      (fun s => BootStage.left s.boot) fun _ c => c = none where
  keeps _ _ _ hs _ hstep := hs.step hfit hstep
  exists_ready _ _ _ := ⟨none, rfl⟩
  enabled s c _ hgoal hc := by
    subst hc
    rw [not_forall] at hgoal
    obtain ⟨rest, hboot⟩ := hgoal
    rw [not_not] at hboot
    match rest, hboot with
    | [], hboot => exact ⟨_, by rw [Step, next, initSMP, hboot]⟩
    | none :: rest, hboot => exact ⟨_, by rw [Step, next, initSMP, hboot]⟩
    | some i :: rest, hboot => exact ⟨_, by rw [Step, next, initSMP, hboot]⟩
  lt s c s' _ hgoal hc hstep := by
    subst hc
    refine .inr ?_
    cases step_cases hstep with
    | skip hboot | send hboot | sentAll hboot =>
        rw [hboot]
        exact Nat.lt_succ_self _
    | waitAll hboot | bootDone hboot => exact absurd (by simp [hboot]) hgoal
  stays s c d s' _ _ hc hd hstep := by
    cases d with
    | none => exact absurd hc.symm hd
    | some i =>
        rw [(boot_of_step hstep).1]
        exact .inr (.inr ⟨le_refl _, hc⟩)

structure AllSent (P : Processors ι σ τ α) (J : Set ι → σ → Prop) (b : Addr)
    (s : BringUp ι σ τ α) : Prop where
  running : P.Running J b s
  sent : ∀ i, s.sent i = true

theorem AllSent.step (hfit : P.Fitting J b) (hs : P.AllSent J b s) {c : Option ι}
    (hstep : P.Step s c s') : P.AllSent J b s' :=
  ⟨hs.running.step hfit hstep, fun i => sent_of_step hstep (hs.sent i)⟩

/-- Under a fair schedule all processors leave `initPaging`. -/
theorem progress_paging (hfit : P.Fitting J b) :
    Progress P.Step (P.AllSent J b) (fun s => ∀ i, s.paging.place i = .after)
      (fun s => Locked.rank P.paging s.paging)
      fun s c => ∃ i, c = some i ∧ Locked.Ready s.paging i := by
  have hlock := Locked.progress (B := P.paging) hfit.body hfit.ends
  have hplace : ∀ {s : BringUp ι σ τ α} {i}, Locked.Ready s.paging i →
      s.paging.place i ≠ .after := by
    rintro s i (⟨t, ht⟩ | ⟨-, ht⟩) <;> rw [ht] <;> simp
  refine ⟨fun s c t hs _ hstep => hs.step hfit hstep, fun s hs hgoal => ?_,
    fun s c hs hgoal hready => ?_, fun s c t hs hgoal hready hstep => ?_,
    fun s c d t hs hgoal hready hd hstep => ?_⟩
  · obtain ⟨i, hi⟩ := hlock.exists_ready _ hs.running.paging hgoal
    exact ⟨some i, i, rfl, hi⟩
  · obtain ⟨i, rfl, hi⟩ := hready
    obtain ⟨t, ht⟩ := hlock.enabled _ _ hs.running.paging hgoal hi
    refine ⟨{ s with paging := t }, ?_⟩
    rw [Step, next, initOtherCPUs, if_pos (hs.sent i)]
    rw [Locked.Step] at ht
    cases hp : s.paging.place i with
    | after => exact absurd hp (hplace hi)
    | before | inside => simp only [ht, Option.map_some]
  · obtain ⟨i, rfl, hi⟩ := hready
    rcases smp_or_paging hstep with ⟨-, hpaging⟩ | ⟨k, hk, hafter, -⟩ |
      ⟨k, hk, -, -, -, hpaging⟩
    · -- a processor that is ready has no step that leaves the lock alone
      cases step_cases hstep with
      | paging _ _ hp => exact hlock.lt _ _ _ hs.running.paging hgoal hi hp
      | smp _ hafter | lockHeap _ hafter | waitHeap _ hafter
      | search _ hafter | finish _ hafter | fill _ hafter | store _ hafter =>
          exact absurd hafter (hplace hi)
    · obtain rfl := Option.some.inj hk
      exact absurd hafter (hplace hi)
    · obtain rfl := Option.some.inj hk
      exact hlock.lt _ _ _ hs.running.paging hgoal hi hpaging
  · obtain ⟨i, rfl, hi⟩ := hready
    rcases smp_or_paging hstep with ⟨-, hpaging⟩ | ⟨k, -, -, hpaging, -⟩ |
      ⟨k, hk, -, -, -, hpaging⟩
    · rw [hpaging]
      exact .inr (.inr ⟨le_refl _, i, rfl, hi⟩)
    · rw [hpaging]
      exact .inr (.inr ⟨le_refl _, i, rfl, hi⟩)
    · have hki : k ≠ i := by
        rintro rfl
        exact hd hk
      rcases hlock.stays _ _ _ _ hs.running.paging hgoal hi hki hpaging with
        hgoal' | hlt | ⟨hle, hi'⟩
      · exact .inl hgoal'
      · exact .inr (.inl hlt)
      · exact .inr (.inr ⟨hle, i, rfl, hi'⟩)

structure AllPaged (P : Processors ι σ τ α) (J : Set ι → σ → Prop) (b : Addr)
    (s : BringUp ι σ τ α) : Prop where
  allSent : P.AllSent J b s
  place : ∀ i, s.paging.place i = .after

theorem AllPaged.step (hfit : P.Fitting J b) (hs : P.AllPaged J b s)
    {c : Option ι} (hstep : P.Step s c s') : P.AllPaged J b s' := by
  refine ⟨hs.allSent.step hfit hstep, fun i => ?_⟩
  rcases smp_or_paging hstep with ⟨-, hpaging⟩ | ⟨k, -, -, hpaging, -⟩ |
    ⟨k, -, -, hplace, -⟩
  · rw [hpaging]
    exact hs.place i
  · rw [hpaging]
    exact hs.place i
  · exact absurd (hs.place k) hplace

def allStepsLeft (s : BringUp ι σ τ α) : ℕ :=
  ∑ i, stepsLeft (s.smp.phase i) (s.request i)

/-- A processor that does not only wait: it is inside, or nobody is and
`cpusStarted` has reached its ID. -/
def CanGo (P : Processors ι σ τ α) (s : BringUp ι σ τ α) (i : ι) : Prop :=
  (s.smp.phase i).Inside ∨ ((∀ j, ¬ (s.smp.phase j).Inside) ∧
    s.smp.phase i = .waiting ∧ ¬ s.smp.cpusStarted < P.lapic i)

theorem allStepsLeft_lt {i : ι}
    (h : stepsLeft (s'.smp.phase i) (s'.request i) <
      stepsLeft (s.smp.phase i) (s.request i))
    (hphase : ∀ j, j ≠ i → s'.smp.phase j = s.smp.phase j)
    (hrequest : ∀ j, j ≠ i → s'.request j = s.request j) :
    allStepsLeft s' < allStepsLeft s := by
  refine Finset.sum_lt_sum (fun j _ => ?_) ⟨i, Finset.mem_univ i, h⟩
  by_cases hj : j = i
  · rw [hj]
    exact h.le
  · rw [hphase j hj, hrequest j hj]

theorem allStepsLeft_lt_of_phase {i : ι} {p : Phase}
    (hphase : s'.smp.phase = Function.update s.smp.phase i p)
    (hrequest : s'.request = s.request)
    (h : stepsLeft p (s.request i) < stepsLeft (s.smp.phase i) (s.request i)) :
    allStepsLeft s' < allStepsLeft s := by
  refine allStepsLeft_lt (i := i) ?_ (fun j hj => ?_)
    fun j _ => congrFun hrequest j
  · rwa [hphase, hrequest, Function.update_self]
  · rw [hphase, Function.update_of_ne hj]

theorem allStepsLeft_lt_of_request {i : ι} {r : RequestStage}
    (hphase : s'.smp.phase = s.smp.phase)
    (hrequest : s'.request = Function.update s.request i r)
    (h : stepsLeft (s.smp.phase i) r < stepsLeft (s.smp.phase i) (s.request i)) :
    allStepsLeft s' < allStepsLeft s := by
  refine allStepsLeft_lt (i := i) ?_ (fun j _ => congrFun hphase j)
    fun j hj => ?_
  · rwa [hphase, hrequest, Function.update_self]
  · rw [hrequest, Function.update_of_ne hj]

/-- Every step lowers the number of steps left, or it is one of the boot
processor or one in which a processor only waits. -/
theorem allStepsLeft_step (hs : P.AllPaged J b s) {c : Option ι}
    (hstep : P.Step s c s') :
    allStepsLeft s' < allStepsLeft s ∨ (s'.smp = s.smp ∧
      s'.request = s.request ∧ ∀ i, c = some i → ¬ P.CanGo s i) := by
  have hwaits : ∀ {i}, s.smp.phase i = .waiting → s.smp.cpusStarted < P.lapic i →
      ¬ P.CanGo s i := by
    rintro i hphase hlt (hinside | ⟨-, -, hnot⟩)
    · rw [hphase] at hinside
      exact hinside
    · exact hnot hlt
  cases step_cases hstep with
  | skip | send | sentAll | waitAll | bootDone =>
      exact .inr ⟨rfl, rfl, fun i hi => nomatch hi⟩
  | paging _ hplace => exact absurd (hs.place _) hplace
  | @smp i t _ _ hphase hsmp =>
      rcases hphase with hphase | ⟨n, hphase⟩ <;>
        rw [SmpStep, OptimistOS.initOtherCPUs, hphase] at hsmp
      · simp only at hsmp
        split_ifs at hsmp with hlt <;> obtain rfl := Option.some.inj hsmp
        · refine .inr ⟨rfl, rfl, fun j hj => ?_⟩
          obtain rfl := Option.some.inj hj
          exact hwaits hphase hlt
        · refine .inl (allStepsLeft_lt_of_phase rfl rfl ?_)
          rw [hphase, hs.allSent.running.records.waiting i hphase]
          decide
      · obtain rfl := Option.some.inj hsmp
        refine .inl (allStepsLeft_lt_of_phase rfl rfl ?_)
        rw [hphase]
        exact Nat.one_pos
  | @lockHeap i _ _ hphase hrequest =>
      refine .inl (allStepsLeft_lt_of_request rfl rfl ?_)
      rw [hphase, hrequest]
      decide
  | @waitHeap i _ _ hphase hrequest hmutex =>
      have hat := hs.allSent.running.records.inside i (by rw [hphase]; trivial)
      rw [hrequest] at hat
      exact absurd hat.mutex hmutex
  | @search i result t _ _ hphase hrequest =>
      refine .inl (allStepsLeft_lt_of_request rfl rfl ?_)
      rw [hphase, hrequest]
      exact Nat.lt_succ_self 4
  | @finish i result block t _ _ hphase hrequest =>
      refine .inl (allStepsLeft_lt_of_request rfl rfl ?_)
      rw [hphase, hrequest]
      exact Nat.lt_succ_self 3
  | @fill i block t _ _ hphase hrequest hsmp =>
      rw [SmpStep, OptimistOS.initOtherCPUs, hphase] at hsmp
      obtain rfl := Option.some.inj hsmp
      refine .inl (allStepsLeft_lt_of_phase rfl rfl ?_)
      rw [hphase, hrequest]
      exact Nat.lt_succ_self 2
  | @store i n t _ _ hphase hsmp =>
      rw [SmpStep, OptimistOS.initOtherCPUs, hphase] at hsmp
      obtain rfl := Option.some.inj hsmp
      refine .inl (allStepsLeft_lt_of_phase rfl rfl ?_)
      rw [hphase]
      exact Nat.lt_succ_self 1

/-- As long as not all have started and nobody is inside, `cpusStarted` has
reached the ID of one that waits: the others have fewer values left than they
are. -/
theorem exists_canGo (hfit : P.Fitting J b)
    (hids : ∀ i, (P.lapic i).toNat ≤ Fintype.card ι)
    (hs : P.AllPaged J b s) (hgoal : ¬ ∀ i, ∃ n, s.smp.phase i = .started n) :
    ∃ i, P.CanGo s i := by
  by_cases hinside : ∃ i, (s.smp.phase i).Inside
  · obtain ⟨i, hi⟩ := hinside
    exact ⟨i, .inl hi⟩
  · have hnone : ∀ j, ¬ (s.smp.phase j).Inside := fun j hj => hinside ⟨j, hj⟩
    have horder := hs.allSent.running.order
    have hnat := hfit.toNat_cpusStarted horder
    have hwaiting : ∀ i, i ∉ finished s.smp → s.smp.phase i = .waiting := by
      intro i hi
      have hout := hnone i
      rw [mem_finished] at hi
      cases hphase : s.smp.phase i with
      | waiting => rfl
      | released | numbered | stored =>
          rw [hphase] at hout
          exact absurd trivial hout
      | started n => exact absurd ⟨n, hphase⟩ hi
    by_contra hstuck
    have hlt : ∀ i ∈ (finished s.smp)ᶜ,
        1 + (finished s.smp).card < (P.lapic i).toNat := by
      intro i hi
      have hphase := hwaiting i (Finset.mem_compl.1 hi)
      by_contra hle
      refine hstuck ⟨i, .inr ⟨hnone, hphase, ?_⟩⟩
      rw [BitVec.lt_def, hnat]
      exact hle
    have hcard : (finished s.smp)ᶜ.card ≤
        (Finset.Ioc (1 + (finished s.smp).card) (Fintype.card ι)).card := by
      refine Finset.card_le_card_of_injOn (fun i => (P.lapic i).toNat) ?_ ?_
      · intro i hi
        exact Finset.mem_coe.2 (Finset.mem_Ioc.2 ⟨hlt i hi, hids i⟩)
      · intro i _ j _ hij
        exact hfit.injective (BitVec.eq_of_toNat_eq hij)
    rw [Finset.card_compl, Nat.card_Ioc] at hcard
    have hne : (finished s.smp).card ≠ Fintype.card ι := fun heq =>
      hgoal (card_finished_eq_iff.1 heq)
    have hle := (finished s.smp).card_le_univ
    omega

omit [Fintype ι] in
/-- Until its block is served, the request of the processor that is inside has a
next step. -/
theorem takeBlock_isSome (hptr : PoolPointers b) (hfuel : 4 < P.fuel) {i : ι} {n : ℕ}
    (hat : RequestAt s.heap b n (s.request i))
    (hserved : ∀ block, s.request i ≠ .served block) :
    (P.takeBlock s i).isSome := by
  rw [takeBlock]
  cases hrequest : s.request i with
  | lock =>
      rw [hrequest] at hat
      rw [if_pos hat.mutex, Option.isSome_some]
  | search =>
      rw [hrequest] at hat
      obtain ⟨t, ht, -⟩ := hat.search (A := P.frames) hptr hfuel
      simp only [ht, Option.isSome_some]
  | finish result =>
      rw [hrequest] at hat
      obtain rfl := hat.1
      obtain ⟨t, ht, -⟩ := RequestAt.finish hat
      simp only [ht, Option.isSome_some]
  | served block => exact absurd hrequest (hserved block)

theorem CanGo.waitAndStore_isSome (hrecords : TakesRecords b s) (hptr : PoolPointers b)
    (hfuel : 4 < P.fuel) {i : ι} (h : P.CanGo s i) : (P.waitAndStore s i).isSome := by
  have hat := hrecords.inside i
  rw [waitAndStore]
  cases hphase : s.smp.phase i with
  | waiting =>
      rw [CanGo, hphase] at h
      obtain ⟨-, -, hle⟩ := h.resolve_left id
      simp only [OptimistOS.initOtherCPUs, hphase, if_neg hle, Option.map_some,
        Option.isSome_some]
  | released =>
      have hat := hat (by rw [hphase]; trivial)
      cases hrequest : s.request i with
      | served block =>
          simp only [OptimistOS.initOtherCPUs, hphase, Option.map_some,
            Option.isSome_some]
      | lock | search | finish result =>
          exact takeBlock_isSome hptr hfuel hat (by simp [hrequest])
  | numbered n | stored n =>
      simp only [OptimistOS.initOtherCPUs, hphase, Option.map_some,
        Option.isSome_some]
  | started n =>
      rw [CanGo, hphase] at h
      rcases h with h | ⟨-, h, -⟩
      · exact absurd h id
      · cases h

theorem CanGo.enabled (hfit : P.Fitting J b) (hs : P.AllPaged J b s) {i : ι}
    (h : P.CanGo s i) : ∃ s', P.Step s (some i) s' := by
  obtain ⟨t, ht⟩ := Option.isSome_iff_exists.1
    (h.waitAndStore_isSome hs.allSent.running.records hfit.pointers hfit.fuel)
  refine ⟨t, ?_⟩
  rw [Step, next, initOtherCPUs, if_pos (hs.allSent.sent i), hs.place i]
  exact ht

theorem progress_starting (hfit : P.Fitting J b)
    (hids : ∀ i, (P.lapic i).toNat ≤ Fintype.card ι) :
    Progress P.Step (P.AllPaged J b)
      (fun s => ∀ i, ∃ n, s.smp.phase i = .started n)
      allStepsLeft fun s c => ∃ i, c = some i ∧ P.CanGo s i where
  keeps _ _ _ hs _ hstep := hs.step hfit hstep
  exists_ready s hs hgoal := by
    obtain ⟨i, hi⟩ := exists_canGo hfit hids hs hgoal
    exact ⟨some i, i, rfl, hi⟩
  enabled s c hs _ hready := by
    obtain ⟨i, rfl, hi⟩ := hready
    exact hi.enabled hfit hs
  lt s c t hs _ hready hstep := by
    obtain ⟨i, rfl, hi⟩ := hready
    rcases allStepsLeft_step hs hstep with hlt | ⟨-, -, hnot⟩
    · exact .inr hlt
    · exact absurd hi (hnot i rfl)
  stays s c d t hs _ hready _ hstep := by
    obtain ⟨i, rfl, hi⟩ := hready
    rcases allStepsLeft_step hs hstep with hlt | ⟨hsmp, hrequest, -⟩
    · exact .inr (.inl hlt)
    · refine .inr (.inr ⟨?_, i, rfl, ?_⟩)
      · rw [allStepsLeft, hsmp, hrequest, allStepsLeft]
      · rwa [CanGo, hsmp]

structure AllStarted (P : Processors ι σ τ α) (J : Set ι → σ → Prop) (b : Addr)
    (s : BringUp ι σ τ α) : Prop where
  allPaged : P.AllPaged J b s
  started : ∀ i, ∃ n, s.smp.phase i = .started n
  boot : ∀ rest, s.boot ≠ .sending rest

theorem AllStarted.step (hfit : P.Fitting J b) (hs : P.AllStarted J b s)
    {c : Option ι} (hstep : P.Step s c s') : P.AllStarted J b s' := by
  have hsmp : s'.smp = s.smp := by
    rcases smp_or_paging hstep with ⟨hsmp, -⟩ | ⟨k, -, -, -, hsmp⟩ |
      ⟨k, -, -, -, hsmp, -⟩
    · exact hsmp
    · obtain ⟨n, hn⟩ := hs.started k
      exact absurd hsmp (not_smpStep_of_started hn _)
    · exact hsmp
  refine ⟨hs.allPaged.step hfit hstep, fun i => hsmp ▸ hs.started i,
    fun rest => ?_⟩
  cases c with
  | none =>
      cases step_cases hstep with
      | skip hboot | send hboot | sentAll hboot =>
          exact absurd hboot (hs.boot _)
      | waitAll => exact hs.boot rest
      | bootDone => exact nofun
  | some i =>
      rw [(boot_of_step hstep).1]
      exact hs.boot rest

theorem progress_done (hfit : P.Fitting J b) :
    Progress P.Step (P.AllStarted J b) (fun s => s.boot = .done)
      (fun _ => 0) fun _ c => c = none := by
  have hwaiting : ∀ {s : BringUp ι σ τ α}, P.AllStarted J b s →
      s.boot ≠ .done → s.boot = .waiting := by
    intro s hs hgoal
    cases hboot : s.boot with
    | sending rest => exact absurd hboot (hs.boot rest)
    | waiting => rfl
    | done => exact absurd hboot hgoal
  have hle : ∀ {s : BringUp ι σ τ α}, P.AllStarted J b s →
      ¬ s.smp.cpusStarted < P.cpuCount := by
    intro s hs
    have horder := hs.allPaged.allSent.running.order
    rw [BitVec.lt_def, hfit.toNat_cpuCount, hfit.toNat_cpusStarted horder,
      card_finished_eq_iff.2 hs.started]
    omega
  refine ⟨fun s c t hs _ hstep => hs.step hfit hstep,
    fun s hs hgoal => ⟨none, rfl⟩, fun s c hs hgoal hc => ?_,
    fun s c t hs hgoal hc hstep => ?_, fun s c d t hs hgoal hc hd hstep => ?_⟩
  · subst hc
    exact ⟨_, by rw [Step, next, initSMP, hwaiting hs hgoal, if_neg (hle hs)]⟩
  · subst hc
    cases step_cases hstep with
    | skip hboot | send hboot | sentAll hboot =>
        exact absurd hboot (hs.boot _)
    | waitAll _ hlt => exact absurd hlt (hle hs)
    | bootDone => exact .inl rfl
  · exact .inr (.inr ⟨le_refl _, hc⟩)

end Liveness

/-- Under a fair schedule the boot processor comes out of `initSMP` when it is
listed first and the IDs are not too large. -/
theorem exists_done (hfit : P.Fitting J b) (hhead : P.cpus.head? = some none)
    (hids : ∀ i, (P.lapic i).toNat ≤ Fintype.card ι) {who : ℕ → Option ι}
    {s : ℕ → BringUp ι σ τ α} (hexec : Executes P.Step who s) (hfair : Fair who)
    (hstart : P.Running J b (s 0)) :
    ∃ n, P.AllStarted J b (s n) ∧ (s n).boot = .done := by
  obtain ⟨n₁, -, hboot⟩ := (progress_sending hfit).reaches hexec hfair hstart
  have hrunning := hexec.invariant (P.Running J b)
    (fun _ _ _ hs hstep => hs.step hfit hstep) hstart (Nat.zero_le n₁)
  have hsent : P.AllSent J b (s n₁) := ⟨hrunning, fun i => by
    refine hrunning.sent hboot i ?_
    have hi := hfit.complete (some i)
    cases hcpus : P.cpus with
    | nil =>
        rw [hcpus] at hi
        cases hi
    | cons c rest =>
        rw [hcpus] at hi hhead
        obtain rfl := Option.some.inj hhead
        simpa using hi⟩
  obtain ⟨n₂, hn₂, hplace⟩ := (progress_paging hfit).reaches hexec hfair hsent
  have hsent₂ := hexec.invariant (P.AllSent J b)
    (fun _ _ _ hs hstep => hs.step hfit hstep) hsent hn₂
  have hpaged : P.AllPaged J b (s n₂) := ⟨hsent₂, hplace⟩
  obtain ⟨n₃, hn₃, hall⟩ :=
    (progress_starting hfit hids).reaches hexec hfair hpaged
  have hpaged₃ := hexec.invariant (P.AllPaged J b)
    (fun _ _ _ hs hstep => hs.step hfit hstep) hpaged hn₃
  have hboot₃ := hexec.invariant (fun s => ∀ rest, s.boot ≠ .sending rest)
    (fun t c t' ht hstep => by
      cases c with
      | none =>
          cases step_cases hstep with
          | skip h | send h | sentAll h => exact absurd h (ht _)
          | waitAll => exact ht
          | bootDone => exact nofun
      | some i =>
          rw [(boot_of_step hstep).1]
          exact ht) hboot (hn₂.trans hn₃)
  have hstarted : P.AllStarted J b (s n₃) := ⟨hpaged₃, hall, hboot₃⟩
  obtain ⟨n₄, hn₄, hdone⟩ := (progress_done hfit).reaches hexec hfair hstarted
  exact ⟨n₄, hexec.invariant (P.AllStarted J b)
    (fun _ _ _ hs hstep => hs.step hfit hstep) hstarted hn₄, hdone⟩

omit [DecidableEq ι] in
/-- The boot processor comes out of `initSMP` only with the right list. -/
theorem fits_of_done (hfit : P.Fitting J b) (hs : P.Running J b s)
    (hdone : s.boot = .done) :
    P.cpus.head? = some none ∧ ∀ i, (P.lapic i).toNat ≤ Fintype.card ι := by
  have hall := hs.done hdone
  refine ⟨?_, fun i => ?_⟩
  · have hnodup := hfit.nodup
    have hnone := hfit.complete none
    cases hcpus : P.cpus with
    | nil =>
        rw [hcpus] at hnone
        cases hnone
    | cons c rest =>
        cases c with
        | none => rfl
        | some i =>
            -- the first one is never sent, so it has not started
            have hnot : s.sent i = false := by
              by_contra hsent
              have hmem := hs.listed i (by simpa using hsent)
              rw [hcpus] at hmem hnodup
              exact (List.nodup_cons.1 hnodup).1 hmem
            have hwaiting := hs.phase i (by rw [hs.place i hnot]; simp)
            obtain ⟨n, hn⟩ := hall i
            rw [hwaiting] at hn
            cases hn
  · obtain ⟨n, hn⟩ := hall i
    have hpassed := hs.passed i n hn
    have hle := (hs.order.done i n hn).2
    have hcard := (finished s.smp).card_le_univ
    omega

end Processors

section

variable {ι σ τ T : Type} [DecidableEq ι] [Fintype ι] {S : SizeTable T}
  {P : Processors ι σ τ (PagingGlobals (FrameGlobals T))} {J : Set ι → σ → Prop}
  {R : UsableRegion} {used fuel : ℕ} {shared : σ} {block : Addr}
  {heap : Machine 64 (KernelGlobals T)}

/-- The boot processor comes out of `initSMP`, under every fair schedule, exactly
when it is listed first and the IDs of the others are at most their number. -/
theorem initSMP_done_iff (hfit : P.Fitting J (R.addr used)) (hshared : J Set.univ shared)
    (hcpu0 : Cpu0Placed S fuel P.fuel R used block heap) {who : ℕ → Option ι}
    {s : ℕ → BringUp ι σ τ (PagingGlobals (FrameGlobals T))}
    (hexec : Executes P.Step who s) (hfair : Fair who)
    (hstart : s 0 = P.start shared heap block) :
    (∃ n, (s n).boot = .done) ↔
      P.cpus.head? = some none ∧
        ∀ i, (P.lapic i).toNat ≤ Fintype.card ι := by
  obtain ⟨rfl, hserves, -⟩ := hcpu0.serves
  have hrunning : P.Running J (R.addr used) (s 0) := by
    rw [hstart]
    exact .start hshared hserves
  constructor
  · rintro ⟨n, hdone⟩
    exact Processors.fits_of_done hfit (hexec.invariant (P.Running J (R.addr used))
      (fun _ _ _ hs hstep => hs.step hfit hstep) hrunning (Nat.zero_le n)) hdone
  · rintro ⟨hhead, hids⟩
    obtain ⟨n, -, hdone⟩ := Processors.exists_done hfit hhead hids hexec hfair
      hrunning
    exact ⟨n, hdone⟩

end

def twoProcessors : Processors Unit
    (PagedProcessors Unit (FrameGlobals HashTable)) PagingPoint
      (PagingGlobals (FrameGlobals HashTable)) where
  cpus := [none, some ()]
  lapic _ := 1
  paging := initPagingBody (kernelAllocator addressSizeTable 0) 2048
    processorResponses
  frames := heapAllocator addressSizeTable 0
  fuel := 6

def TreeLeft (T : Set Unit)
    (v : PagedProcessors Unit (FrameGlobals HashTable)) : Prop :=
  () ∈ T → ∃ frames, processorSource.Ready 12304
    ⟨v.machine.mem, v.machine.globals.frames⟩ frames

theorem fitting_twoProcessors {b : Addr} (h : PoolPointers b) :
    twoProcessors.Fitting TreeLeft b where
  injective _ _ _ := rfl
  boot := ⟨0, by decide⟩
  notBoth := by decide
  nodup := by decide
  complete := by decide
  length := by decide
  body _ _ _ _ _ _ _ hmem := absurd rfl hmem.2
  ends T i v hmem hv := by
    obtain ⟨frames, hready⟩ := hv hmem
    obtain ⟨t, hrun, ht⟩ := exists_run_processorTables (s := v.machine) hready
      le_rfl
    obtain ⟨n, point, hsteps, hended⟩ := performs_of_run (i := i) (v := v) hrun
      (root_ne_zero_of_bootTables ht)
    exact ⟨n, _, hsteps, hended⟩
  pointers := h
  fuel := by decide

def turns (n : ℕ) : Option Unit := if n % 2 = 0 then none else some ()

theorem fair_turns : Fair turns := by
  rintro (_ | _) n
  · exact ⟨2 * n, by omega, if_pos (by omega)⟩
  · exact ⟨2 * n + 1, by omega, if_neg (by omega)⟩

/-- Their start, when the boot processor has been through `initPaging`, from the
heap of an untouched kernel. -/
theorem exists_start_twoProcessors :
    ∃ s₁ block heap s, (initPaging (kernelAllocator addressSizeTable 0) 2048
        processorResponses).run processorKernel = .ok () s₁ ∧
      TreeLeft Set.univ (sentToPaging s₁).shared ∧
      Cpu0Placed addressSizeTable 0 6 largeRegion 0 block heap ∧
      PoolPointers (largeRegion.addr 0) ∧ Executes twoProcessors.Step turns s ∧
      s 0 = twoProcessors.start (sentToPaging s₁).shared heap block := by
  have hheap : HeapUntouched freshKernel.globals.memory := ⟨rfl, rfl⟩
  have hs : AllocState largeRegion (fun _ => 0) HashTable.zero
      (frameMachine ⟨freshKernel.mem, freshKernel.globals.memory⟩) 0 :=
    Or.inl ⟨rfl, rfl⟩
  obtain ⟨s₁, frames, hboot, hready⟩ := exists_run_bootProcessor
  obtain ⟨heap, hrun, -, hptr⟩ := run_initCpu0 addressSizeTable 0 hheap
    hs rfl (by decide) (by decide : 4 < 6)
  obtain ⟨s, hstart, hexec⟩ := exists_executes twoProcessors.next turns
    (twoProcessors.start (sentToPaging s₁).shared heap
      (requestBlock (largeRegion.addr 0) recordClass 0))
  exact ⟨s₁, _, heap, s, hboot,
    fun _ => ⟨frames, processorSource.mono _ _ _ _ hready (by decide)⟩,
    ⟨⟨_, _, _, hheap, hs, hrun⟩, rfl, by decide, by decide⟩, hptr, hexec, hstart⟩

/-- Two processors that take turns come up. -/
theorem initSMP_done_twoProcessors :
    ∃ s₁ block heap s, Executes twoProcessors.Step turns s ∧
      s 0 = twoProcessors.start (sentToPaging s₁).shared heap block ∧
      ∃ n, (s n).boot = .done := by
  obtain ⟨s₁, block, heap, s, -, htree, hcpu0, hptr, hexec, hstart⟩ :=
    exists_start_twoProcessors
  exact ⟨s₁, block, heap, s, hexec, hstart,
    (initSMP_done_iff (fitting_twoProcessors hptr) htree hcpu0 hexec fair_turns
      hstart).2 ⟨rfl, by decide⟩⟩

section

variable {ι σ τ T : Type} [DecidableEq ι] [Fintype ι] {S : SizeTable T}
  {P : Processors ι σ τ (PagingGlobals (FrameGlobals T))} {J : Set ι → σ → Prop}
  {R : UsableRegion} {used fuel : ℕ} {shared : σ} {block : Addr}
  {heap : Machine 64 (KernelGlobals T)}

omit [DecidableEq ι] in
theorem exists_number {lapic : ι → BitVec 32} {t : SmpState ι}
    (h : InOrder lapic t) (hall : ∀ i, ∃ n, t.phase i = .started n)
    {n : BitVec 32} (hpos : 1 ≤ n.toNat) (hle : n.toNat ≤ Fintype.card ι) :
    ∃ i, t.phase i = .started n := by
  choose number hnumber using hall
  have hinj : Set.InjOn (fun i => (number i).toNat)
      ((Finset.univ : Finset ι) : Set ι) := by
    intro i _ j _ hij
    have heq : number i = number j := BitVec.eq_of_toNat_eq hij
    exact h.distinct i j (number i) (hnumber i) (heq ▸ hnumber j)
  have himage : Finset.univ.image (fun i => (number i).toNat) =
      Finset.Icc 1 (Fintype.card ι) := by
    refine Finset.eq_of_subset_of_card_le (fun k hk => ?_) ?_
    · obtain ⟨i, -, rfl⟩ := Finset.mem_image.1 hk
      have hdone := h.done i (number i) (hnumber i)
      exact Finset.mem_Icc.2 ⟨hdone.1,
        hdone.2.trans (finished t).card_le_univ⟩
    · rw [Finset.card_image_of_injOn hinj, Nat.card_Icc, Finset.card_univ]
      omega
  obtain ⟨i, -, hi⟩ := Finset.mem_image.1
    (himage ▸ Finset.mem_Icc.2 ⟨hpos, hle⟩ :
      n.toNat ∈ Finset.univ.image fun i => (number i).toNat)
  exact ⟨i, BitVec.eq_of_toNat_eq hi ▸ hnumber i⟩

/-- When all processors have started, in whatever order, `getCPUInfo` finds the
record of the processor `n` at the block of the `n`-th request, so the records
are apart exactly when there are at most two application processors. -/
theorem getCPUInfo_apart_iff (hfit : P.Fitting J (R.addr used))
    (hshared : J Set.univ shared)
    (hcpu0 : Cpu0Placed S fuel P.fuel R used block heap) {cs : List (Option ι)}
    {s : BringUp ι σ τ (PagingGlobals (FrameGlobals T))}
    (hrun : Run P.Step (P.start shared heap block) cs s)
    (hall : ∀ i, ∃ n, s.smp.phase i = .started n) :
    (∀ n : BitVec 32, n.toNat ≤ Fintype.card ι → s.getCPUInfo n =
        requestBlock (R.addr used) recordClass n.toNat) ∧
      ((∀ m n : BitVec 32, m.toNat ≤ Fintype.card ι →
          n.toNat ≤ Fintype.card ι → s.getCPUInfo m = s.getCPUInfo n → m = n) ↔
        Fintype.card ι ≤ 2) := by
  obtain ⟨rfl, hserves, -⟩ := hcpu0.serves
  have hrunning : P.Running J (R.addr used) s := hrun.invariant
    (P.Running J (R.addr used)) (.start hshared hserves)
    fun _ _ _ hs hstep => hs.step hfit hstep
  have hstarted := hfit.toNat_cpusStarted hrunning.order
  rw [Processors.card_finished_eq_iff.2 hall] at hstarted
  have hrecord : ∀ n : BitVec 32, n.toNat ≤ Fintype.card ι → s.getCPUInfo n =
      requestBlock (R.addr used) recordClass n.toNat := by
    intro n hn
    have hle : ¬ s.smp.cpusStarted < n := by
      rw [BitVec.lt_def, hstarted]
      omega
    rw [BringUp.getCPUInfo, if_neg hle]
    rcases Nat.eq_zero_or_pos n.toNat with hzero | hpos
    · obtain rfl : n = 0 := BitVec.eq_of_toNat_eq hzero
      exact hrunning.records.boot
    · obtain ⟨i, hi⟩ := exists_number hrunning.order hall hpos hn
      exact hrunning.records.record i n (.inr hi)
  refine ⟨hrecord, fun h => ?_, fun hcard m n hm hn heq => ?_⟩
  · by_contra hcard
    -- the blocks of the third and of the fourth request
    have heq := h 2 3 (by simp; omega) (by simp; omega) (by
      rw [hrecord 2 (by simp; omega), hrecord 3 (by simp; omega),
        requestBlock_inj]
      rfl)
    exact absurd heq (by decide)
  · rw [hrecord m hm, hrecord n hn, requestBlock_inj] at heq
    simp only [requestOffset, recordClass_ne, false_or] at heq
    refine BitVec.eq_of_toNat_eq ?_
    split_ifs at heq <;> omega

end

/-- The records of two processors are apart. -/
theorem getCPUInfo_apart_twoProcessors :
    ∃ s₁ block heap cs s, Run twoProcessors.Step
        (twoProcessors.start (sentToPaging s₁).shared heap block) cs s ∧
      ∀ m n : BitVec 32, m.toNat ≤ 1 → n.toNat ≤ 1 →
        s.getCPUInfo m = s.getCPUInfo n → m = n := by
  obtain ⟨s₁, block, heap, s, -, htree, hcpu0, hptr, hexec, hstart⟩ :=
    exists_start_twoProcessors
  have hfit := fitting_twoProcessors hptr
  obtain ⟨rfl, hserves, -⟩ := hcpu0.serves
  have hrunning : twoProcessors.Running TreeLeft (largeRegion.addr 0) (s 0) := by
    rw [hstart]
    exact .start htree hserves
  obtain ⟨n, hstarted, -⟩ := Processors.exists_done hfit rfl (by decide) hexec
    fair_turns hrunning
  obtain ⟨cs, hrun⟩ := hexec.exists_run n
  rw [hstart] at hrun
  exact ⟨s₁, _, heap, cs, s n, hrun, (getCPUInfo_apart_iff hfit htree hcpu0 hrun
    hstarted.started).2.2 (by decide)⟩

end OptimistOS
