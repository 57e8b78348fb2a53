import Mathlib.Algebra.Order.BigOperators.Group.Finset
import Mathlib.Data.Fintype.Card
import Mathlib.Data.Prod.Lex
import Mathlib.Order.Lattice.Nat
import OptimistOS.Foundation.Fairness

/-!
# Critical sections behind a spin lock

Processors `ι` share a value `σ` and a lock word. Each of them runs one critical
section: it sets the word when it finds it 0, takes the steps of its body on the
shared value one at a time, and sets the word to 0. How finely a body is cut
into steps does not matter:

* at most one processor is inside, and the word is set exactly when there is one
  (`Exclusion`);
* what the steps of every body keep, and the whole body restores, holds of the
  shared value in every interleaving (`Locked.Holds.step`);
* if every body ends, all processors leave their sections under a fair schedule
  (`Locked.progress`).
-/

namespace Transition

theorem of_update_eq {ι κ : Type*} [DecidableEq ι] {f : ι → κ} {i j : ι}
    {p q : κ} (h : Function.update f i p j = q) :
    (j = i ∧ p = q) ∨ (j ≠ i ∧ f j = q) := by
  by_cases hj : j = i
  · rw [hj, Function.update_self] at h
    exact .inl ⟨hj, h⟩
  · rw [Function.update_of_ne hj] at h
    exact .inr ⟨hj, h⟩

/-- The critical sections: where a processor starts, its steps, and where its
body is over. A body without a next step that is not over has stopped for
good. -/
structure Bodies (ι σ τ : Type*) where
  start : ι → τ
  step : ι → τ → σ → Option (τ × σ)
  ended : τ → Bool

/-- Where a processor is. -/
inductive Place (τ : Type*)
  | before
  | inside (t : τ)
  | after

/-- How many of the two steps into the section and out of it are still to be
taken. -/
def Place.crossings : Place τ → ℕ
  | .before => 2
  | .inside _ => 1
  | .after => 0

/-- The lock word, the shared value and the places of the processors. -/
structure Locked (ι σ τ : Type*) where
  word : BitVec 32
  shared : σ
  place : ι → Place τ

namespace Locked

variable {ι σ τ : Type*} [DecidableEq ι] (B : Bodies ι σ τ)

/-- The next step of processor `i`. Outside it tests the word and sets it in one
step, and it spins as long as it finds the word set. -/
def next (s : Locked ι σ τ) (i : ι) : Option (Locked ι σ τ) :=
  match s.place i with
  | .before =>
      if s.word = 0 then
        some { s with
          word := 1
          place := Function.update s.place i (.inside (B.start i)) }
      else
        some s
  | .inside t =>
      if B.ended t then
        some { s with
          word := 0
          place := Function.update s.place i .after }
      else
        (B.step i t s.shared).map fun x =>
          { s with
            shared := x.2
            place := Function.update s.place i (.inside x.1) }
  | .after => none

/-- A step of one of the processors. -/
def Step (s : Locked ι σ τ) (i : ι) (s' : Locked ι σ τ) : Prop :=
  next B s i = some s'

end Locked

namespace Bodies

variable {ι σ τ : Type*} (B : Bodies ι σ τ)

/-- `n` steps of the body of `i` lead from one local and shared state to
another. -/
inductive Steps (i : ι) : ℕ → τ × σ → τ × σ → Prop
  | refl (x : τ × σ) : Steps i 0 x x
  | snoc {n : ℕ} {x y z : τ × σ} (h : Steps i n x y) (hended : B.ended y.1 = false)
      (hstep : B.step i y.1 y.2 = some z) : Steps i (n + 1) x z

variable {B}

theorem Steps.trans {i : ι} {k n : ℕ} {x y z : τ × σ} (h : B.Steps i k x y)
    (h' : B.Steps i n y z) : B.Steps i (k + n) x z := by
  induction h' with
  | refl => exact h
  | snoc _ hended hstep ih => exact .snoc (ih h) hended hstep

theorem Steps.uncons {i : ι} {n : ℕ} {x z : τ × σ} (h : B.Steps i (n + 1) x z) :
    B.ended x.1 = false ∧
      ∃ y, B.step i x.1 x.2 = some y ∧ B.Steps i n y z := by
  induction n generalizing z with
  | zero =>
      cases h with
      | snoc h hended hstep =>
          cases h
          exact ⟨hended, z, hstep, .refl z⟩
  | succ n ih =>
      cases h with
      | snoc h hended hstep =>
          obtain ⟨hended', y, hy, hrest⟩ := ih h
          exact ⟨hended', y, hy, hrest.snoc hended hstep⟩

variable (B)

def Performs (i : ι) (s s' : σ) : Prop :=
  ∃ n t, B.Steps i n (B.start i, s) (t, s') ∧ B.ended t = true

def EndsIn (i : ι) (n : ℕ) (x : τ × σ) : Prop :=
  ∃ y, B.Steps i n x y ∧ B.ended y.1 = true

def Reaches (J : σ → Prop) (i : ι) (x : τ × σ) : Prop :=
  ∃ v n, J v ∧ B.Steps i n (B.start i, v) x

variable {B}

theorem EndsIn.zero {i : ι} {x : τ × σ} (h : B.EndsIn i 0 x) :
    B.ended x.1 = true := by
  obtain ⟨y, hy, hended⟩ := h
  cases hy
  exact hended

theorem EndsIn.succ {i : ι} {n : ℕ} {x : τ × σ} (h : B.EndsIn i (n + 1) x) :
    B.ended x.1 = false ∧
      ∃ y, B.step i x.1 x.2 = some y ∧ B.EndsIn i n y := by
  obtain ⟨z, hz, hended⟩ := h
  obtain ⟨hnot, y, hstep, hrest⟩ := hz.uncons
  exact ⟨hnot, y, hstep, z, hrest, hended⟩

end Bodies

namespace Locked

variable {ι σ τ : Type*} [DecidableEq ι] {B : Bodies ι σ τ}
  {s s' : Locked ι σ τ} {i : ι}

inductive StepCases (B : Bodies ι σ τ) (s : Locked ι σ τ) (i : ι) :
    Locked ι σ τ → Prop
  | spin (hplace : s.place i = .before) (hword : s.word ≠ 0) : StepCases B s i s
  | enter (hplace : s.place i = .before) (hword : s.word = 0) :
      StepCases B s i
        ⟨1, s.shared, Function.update s.place i (.inside (B.start i))⟩
  | body {t : τ} {x : τ × σ} (hplace : s.place i = .inside t)
      (hended : B.ended t = false) (hstep : B.step i t s.shared = some x) :
      StepCases B s i
        ⟨s.word, x.2, Function.update s.place i (.inside x.1)⟩
  | leave {t : τ} (hplace : s.place i = .inside t) (hended : B.ended t = true) :
      StepCases B s i ⟨0, s.shared, Function.update s.place i .after⟩

theorem step_iff : Step B s i s' ↔ StepCases B s i s' := by
  constructor
  · intro h
    rw [Step, next] at h
    cases hplace : s.place i with
    | before =>
        rw [hplace] at h
        simp only at h
        split_ifs at h with hword <;> obtain rfl := Option.some.inj h
        · exact .enter hplace hword
        · exact .spin hplace hword
    | inside t =>
        rw [hplace] at h
        simp only at h
        split_ifs at h with hended
        · obtain rfl := Option.some.inj h
          exact .leave hplace hended
        · obtain ⟨x, hx, rfl⟩ := Option.map_eq_some_iff.1 h
          exact .body hplace (by simpa using hended) hx
    | after =>
        rw [hplace] at h
        exact absurd h (by simp)
  · rintro (⟨hplace, hword⟩ | ⟨hplace, hword⟩ | ⟨hplace, hended, hstep⟩ |
      ⟨hplace, hended⟩)
    · rw [Step, next, hplace]
      exact if_neg hword
    · rw [Step, next, hplace]
      exact if_pos hword
    · rw [Step, next, hplace]
      simp [hended, hstep]
    · rw [Step, next, hplace]
      simp [hended]

theorem place_of_step (h : Step B s i s') {j : ι} (hj : j ≠ i) :
    s'.place j = s.place j := by
  cases step_iff.1 h with
  | spin => rfl
  | enter | body | leave => exact Function.update_of_ne hj _ _

theorem exists_run_of_steps {w : BitVec 32} {place : ι → Place τ} {n : ℕ}
    {x y : τ × σ} {is : List ι} (h : B.Steps i n x y)
    (hrun : Run (Step B) s is
      ⟨w, x.2, Function.update place i (.inside x.1)⟩) :
    ∃ is, Run (Step B) s is
      ⟨w, y.2, Function.update place i (.inside y.1)⟩ := by
  induction h with
  | refl => exact ⟨is, hrun⟩
  | @snoc _ _ y z _ hended hstep ih =>
      obtain ⟨is', hrun'⟩ := ih hrun
      have hnext := StepCases.body (s := (⟨w, y.2, Function.update place i
        (.inside y.1)⟩ : Locked ι σ τ)) (Function.update_self i _ place) hended
        hstep
      rw [Function.update_idem] at hnext
      exact ⟨_, hrun'.snoc (step_iff.2 hnext)⟩

theorem exists_run_of_performs {v' : σ} (hword : s.word = 0)
    (hplace : s.place i = .before) (h : B.Performs i s.shared v') :
    ∃ is, Run (Step B) s is ⟨0, v', Function.update s.place i .after⟩ := by
  obtain ⟨n, t, hsteps, hended⟩ := h
  obtain ⟨is, hrun⟩ := exists_run_of_steps hsteps
    (Run.single (step_iff.2 (.enter hplace hword)))
  have hleave := StepCases.leave (B := B) (s := ⟨1, v',
    Function.update s.place i (.inside t)⟩) (Function.update_self i _ s.place)
    hended
  rw [Function.update_idem] at hleave
  exact ⟨_, hrun.snoc (step_iff.2 hleave)⟩

def Inside (place : ι → Place τ) (i : ι) : Prop := ∃ t, place i = .inside t

theorem inside_update {place : ι → Place τ} {i j : ι} {p : Place τ} :
    Inside (Function.update place i p) j ↔
      if j = i then ∃ t, p = .inside t else Inside place j := by
  rw [Inside]
  split_ifs with hj
  · rw [hj, Function.update_self]
  · rw [Function.update_of_ne hj, Inside]

theorem not_inside_update {place : ι → Place τ} {i : ι}
    (h : ∀ j, Inside place j → j = i) (j : ι) :
    ¬ Inside (Function.update place i .after) j := by
  rw [inside_update]
  split_ifs with hj
  · rintro ⟨t, ht⟩
    cases ht
  · exact fun hinside => hj (h j hinside)

theorem eq_of_inside_update {place : ι → Place τ} {i j : ι} {t u : τ}
    (h : ∀ k, Inside place k → k = i)
    (hj : Function.update place i (.inside t) j = .inside u) : j = i ∧ u = t := by
  rcases of_update_eq hj with ⟨hji, hp⟩ | ⟨hji, hj⟩
  · exact ⟨hji, (Place.inside.inj hp).symm⟩
  · exact absurd (h j ⟨u, hj⟩) hji

/-- At most one processor is inside, and the word tells whether there is one. -/
structure Exclusion (s : Locked ι σ τ) : Prop where
  unique : ∀ i j, Inside s.place i → Inside s.place j → i = j
  word : s.word ≠ 0 ↔ ∃ i, Inside s.place i

/-- Every step keeps the exclusion. -/
theorem Exclusion.step (h : s.Exclusion) (hstep : Step B s i s') :
    s'.Exclusion := by
  cases step_iff.1 hstep with
  | spin => exact h
  | enter hplace hword =>
      have hnone : ∀ j, ¬ Inside s.place j := fun j hj => h.word.2 ⟨j, hj⟩ hword
      refine ⟨fun j k hj hk => ?_, fun _ => ⟨i, ?_⟩, fun _ => by simp⟩
      · rw [inside_update] at hj hk
        split_ifs at hj hk with hji hki
        · rw [hji, hki]
        · exact absurd hk (hnone k)
        · exact absurd hj (hnone j)
        · exact absurd hj (hnone j)
      · rw [inside_update, if_pos rfl]
        exact ⟨_, rfl⟩
  | @body t x hplace =>
      have hiff : ∀ j, Inside (Function.update s.place i (.inside x.1)) j ↔
          Inside s.place j := by
        intro j
        rw [inside_update]
        split_ifs with hj
        · exact ⟨fun _ => hj ▸ ⟨_, hplace⟩, fun _ => ⟨_, rfl⟩⟩
        · rfl
      refine ⟨fun j k hj hk => h.unique j k ((hiff j).1 hj) ((hiff k).1 hk), ?_⟩
      exact h.word.trans (exists_congr fun j => (hiff j).symm)
  | leave hplace =>
      have hnone : ∀ j, ¬ Inside (Function.update s.place i .after) j :=
        not_inside_update fun j hj => h.unique j i hj ⟨_, hplace⟩
      exact ⟨fun j k hj => absurd hj (hnone j),
        fun hword => absurd rfl hword, fun ⟨j, hj⟩ => absurd hj (hnone j)⟩

/-- When nobody is inside, `J` holds of the shared value; inside, the processor
has `K` of where it is and of the shared value. -/
structure Holds (J : σ → Prop) (K : ι → τ → σ → Prop) (s : Locked ι σ τ) :
    Prop where
  exclusion : s.Exclusion
  free : s.word = 0 → J s.shared
  held : ∀ i t, s.place i = .inside t → K i t s.shared

/-- Every step keeps what the lock guards: whoever enters gets `K` from `J`, the
steps of the body keep `K`, and whoever leaves restores `J`. -/
theorem Holds.step {J : σ → Prop} {K : ι → τ → σ → Prop} (h : s.Holds J K)
    (henter : ∀ i v, J v → K i (B.start i) v)
    (hbody : ∀ i t v x, K i t v → B.ended t = false →
      B.step i t v = some x → K i x.1 x.2)
    (hleave : ∀ i t v, K i t v → B.ended t = true → J v)
    (hstep : Step B s i s') : s'.Holds J K := by
  refine ⟨h.exclusion.step hstep, ?_, ?_⟩
  · intro hword
    cases step_iff.1 hstep with
    | spin => exact h.free hword
    | enter => exact absurd hword (by simp)
    | body hplace => exact absurd hword (h.exclusion.word.2 ⟨i, _, hplace⟩)
    | leave hplace hended => exact hleave i _ _ (h.held i _ hplace) hended
  · intro j t hj
    cases step_iff.1 hstep with
    | spin => exact h.held j t hj
    | enter hplace hword =>
        rcases of_update_eq hj with ⟨rfl, hp⟩ | ⟨-, hj⟩
        · obtain rfl := Place.inside.inj hp
          exact henter j _ (h.free hword)
        · exact absurd hword (h.exclusion.word.2 ⟨j, t, hj⟩)
    | body hplace hended hbodyStep =>
        rcases of_update_eq hj with ⟨rfl, hp⟩ | ⟨hji, hj⟩
        · obtain rfl := Place.inside.inj hp
          exact hbody j _ _ _ (h.held j _ hplace) hended hbodyStep
        · exact absurd (h.exclusion.unique j i ⟨t, hj⟩ ⟨_, hplace⟩) hji
    | leave hplace =>
        rcases of_update_eq hj with ⟨-, hp⟩ | ⟨hji, hj⟩
        · cases hp
        · exact absurd (h.exclusion.unique j i ⟨t, hj⟩ ⟨_, hplace⟩) hji

omit [DecidableEq ι] in
theorem exclusion_start (v : σ) :
    (⟨0, v, fun _ => .before⟩ : Locked ι σ τ).Exclusion := by
  have hnone : ∀ i, ¬ Inside (fun _ : ι => (.before : Place τ)) i := by
    rintro i ⟨t, ht⟩
    cases ht
  exact ⟨fun i j hi => absurd hi (hnone i), fun h => absurd rfl h,
    fun ⟨i, hi⟩ => absurd hi (hnone i)⟩

omit [DecidableEq ι] in
theorem holds_start {J : σ → Prop} {K : ι → τ → σ → Prop} {v : σ} (hv : J v) :
    (⟨0, v, fun _ => .before⟩ : Locked ι σ τ).Holds J K := by
  refine ⟨exclusion_start v, fun _ => hv, fun i t ht => ?_⟩
  cases ht

section Liveness

variable {J : Set ι → σ → Prop}

/-- The processors that have not left their sections. -/
def todo (s : Locked ι σ τ) : Set ι := {i | s.place i ≠ .after}

omit [DecidableEq ι] in
theorem mem_todo {p : Place τ} (h : s.place i = p) (hp : p ≠ .after) : i ∈ s.todo :=
  fun hafter => hp (h.symm.trans hafter)

theorem todo_update {w : BitVec 32} {v : σ} {p : Place τ}
    (hi : s.place i ≠ .after) (hp : p ≠ .after) :
    todo ⟨w, v, Function.update s.place i p⟩ = s.todo := by
  ext j
  change Function.update s.place i p j ≠ .after ↔ s.place j ≠ .after
  by_cases hj : j = i
  · rw [hj, Function.update_self]
    exact iff_of_true hp hi
  · rw [Function.update_of_ne hj]

theorem todo_leave (w : BitVec 32) (v : σ) :
    todo ⟨w, v, Function.update s.place i .after⟩ = s.todo \ {i} := by
  ext j
  change Function.update s.place i .after j ≠ .after ↔
    s.place j ≠ .after ∧ j ≠ i
  by_cases hj : j = i
  · rw [hj, Function.update_self]
    exact iff_of_false (fun h => h rfl) fun h => h.2 rfl
  · rw [Function.update_of_ne hj]
    exact (and_iff_left hj).symm

/-- The lock guards `J` of those who have not left, and the processor inside has
come from there by the steps of its body, which ends. -/
structure Ending (B : Bodies ι σ τ) (J : Set ι → σ → Prop)
    (s : Locked ι σ τ) : Prop where
  exclusion : s.Exclusion
  free : s.word = 0 → J s.todo s.shared
  held : ∀ i t, s.place i = .inside t → B.Reaches (J s.todo) i (t, s.shared)
  ends : ∀ i t, s.place i = .inside t → ∃ n, B.EndsIn i n (t, s.shared)

omit [DecidableEq ι] in
theorem ending_start {v : σ} (hv : J Set.univ v) :
    (⟨0, v, fun _ => .before⟩ : Locked ι σ τ).Ending B J := by
  have htodo : todo (⟨0, v, fun _ => .before⟩ : Locked ι σ τ) = Set.univ :=
    Set.eq_univ_of_forall fun i h => by cases h
  refine ⟨exclusion_start v, fun _ => htodo.symm ▸ hv, fun i t ht => ?_,
    fun i t ht => ?_⟩ <;> cases ht

/-- Every step keeps what the lock guards if every whole body does. -/
theorem Ending.step (h : s.Ending B J)
    (hbody : ∀ T i v v', i ∈ T → J T v → B.Performs i v v' → J (T \ {i}) v')
    (hends : ∀ T i v, i ∈ T → J T v → ∃ n, B.EndsIn i n (B.start i, v))
    (hstep : Step B s i s') : s'.Ending B J := by
  have hexclusion := h.exclusion.step hstep
  cases step_iff.1 hstep with
  | spin => exact h
  | enter hplace hword =>
      have hmem := mem_todo hplace (by simp)
      have htodo := todo_update (w := 1) (v := s.shared)
        (p := .inside (B.start i)) hmem (by simp)
      have hnone : ∀ k, Inside s.place k → k = i := fun k hk =>
        absurd hword (h.exclusion.word.2 ⟨k, hk⟩)
      refine ⟨hexclusion, fun hzero => absurd hzero (by simp), fun j t hj => ?_,
        fun j t hj => ?_⟩
      · obtain ⟨rfl, rfl⟩ := eq_of_inside_update hnone hj
        rw [htodo]
        exact ⟨s.shared, 0, h.free hword, .refl _⟩
      · obtain ⟨rfl, rfl⟩ := eq_of_inside_update hnone hj
        exact hends s.todo j s.shared hmem (h.free hword)
  | @body t x hplace hended hbodyStep =>
      have hmem := mem_todo hplace (by simp)
      have htodo := todo_update (w := s.word) (v := x.2) (p := .inside x.1) hmem
        (by simp)
      have hone : ∀ k, Inside s.place k → k = i := fun k hk =>
        h.exclusion.unique k i hk ⟨_, hplace⟩
      refine ⟨hexclusion, fun hzero => ?_, fun j u hj => ?_, fun j u hj => ?_⟩
      · exact absurd hzero (h.exclusion.word.2 ⟨i, _, hplace⟩)
      · obtain ⟨rfl, rfl⟩ := eq_of_inside_update hone hj
        obtain ⟨v, n, hv, hsteps⟩ := h.held j t hplace
        rw [htodo]
        exact ⟨v, n + 1, hv, hsteps.snoc hended hbodyStep⟩
      · obtain ⟨rfl, rfl⟩ := eq_of_inside_update hone hj
        obtain ⟨k, hk⟩ := h.ends j t hplace
        cases k with
        | zero => exact absurd hk.zero (by simp [hended])
        | succ k =>
            obtain ⟨-, y, hy, hrest⟩ := hk.succ
            rw [hbodyStep] at hy
            obtain rfl := Option.some.inj hy
            exact ⟨k, hrest⟩
  | @leave t hplace hended =>
      have hmem := mem_todo hplace (by simp)
      have hnone := not_inside_update fun k hk =>
        h.exclusion.unique k i hk ⟨_, hplace⟩
      obtain ⟨v, n, hv, hsteps⟩ := h.held i t hplace
      refine ⟨hexclusion, fun _ => ?_, fun j u hj => absurd ⟨u, hj⟩ (hnone j),
        fun j u hj => absurd ⟨u, hj⟩ (hnone j)⟩
      rw [todo_leave]
      exact hbody s.todo i v s.shared hmem hv ⟨n, t, hsteps, hended⟩

/-- The processor inside, or one that finds the word 0. -/
def Ready (s : Locked ι σ τ) (i : ι) : Prop :=
  Inside s.place i ∨ (s.word = 0 ∧ s.place i = .before)

/-- The steps that the body of the processor inside still takes. -/
noncomputable def remaining (B : Bodies ι σ τ) (s : Locked ι σ τ) : ℕ :=
  sInf {n | ∃ i t, s.place i = .inside t ∧ B.EndsIn i n (t, s.shared)}

variable [Fintype ι]

/-- The crossings of all processors, then what is left of the body. -/
noncomputable def rank (B : Bodies ι σ τ) (s : Locked ι σ τ) : ℕ ×ₗ ℕ :=
  toLex (∑ i, (s.place i).crossings, remaining B s)

theorem crossings_update {place : ι → Place τ} {i : ι} {p : Place τ}
    (h : p.crossings < (place i).crossings) :
    ∑ j, (Function.update place i p j).crossings < ∑ j, (place j).crossings := by
  refine Finset.sum_lt_sum (fun j _ => ?_) ⟨i, Finset.mem_univ i, ?_⟩
  · by_cases hj : j = i
    · rw [hj, Function.update_self]
      exact h.le
    · rw [Function.update_of_ne hj]
  · rwa [Function.update_self]

theorem rank_lt_of_crossings {w : BitVec 32} {v : σ} {p : Place τ}
    (h : p.crossings < (s.place i).crossings) :
    rank B ⟨w, v, Function.update s.place i p⟩ < rank B s :=
  Prod.Lex.toLex_lt_toLex.2 (.inl (crossings_update h))

/-- A step of the body. -/
theorem Ending.rank_body (h : s.Ending B J) {t : τ} {x : τ × σ}
    (hplace : s.place i = .inside t) (hended : B.ended t = false)
    (hstep : B.step i t s.shared = some x) :
    rank B ⟨s.word, x.2, Function.update s.place i (.inside x.1)⟩ <
      rank B s := by
  refine Prod.Lex.toLex_lt_toLex.2 (.inr ⟨?_, ?_⟩)
  · change ∑ j, (Function.update s.place i (.inside x.1) j).crossings = _
    refine Finset.sum_congr rfl fun j _ => ?_
    by_cases hj : j = i
    · rw [hj, Function.update_self, hplace]
      rfl
    · rw [Function.update_of_ne hj]
  · obtain ⟨n, hn⟩ := h.ends i t hplace
    obtain ⟨j, u, hj, hends⟩ := Nat.sInf_mem (s := {n | ∃ i t,
      s.place i = .inside t ∧ B.EndsIn i n (t, s.shared)}) ⟨n, i, t, hplace, hn⟩
    obtain rfl := h.exclusion.unique j i ⟨u, hj⟩ ⟨t, hplace⟩
    rw [hplace] at hj
    obtain rfl := Place.inside.inj hj
    change sInf _ < remaining B s
    rw [remaining] at *
    generalize sInf {n | ∃ i t, s.place i = .inside t ∧
      B.EndsIn i n (t, s.shared)} = k at hends ⊢
    cases k with
    | zero => exact absurd hends.zero (by simp [hended])
    | succ k =>
        obtain ⟨-, y, hy, hrest⟩ := hends.succ
        rw [hstep] at hy
        obtain rfl := Option.some.inj hy
        refine Nat.lt_succ_of_le (Nat.sInf_le ⟨j, x.1, ?_, hrest⟩)
        exact Function.update_self _ _ _

/-- The rank argument for the lock. -/
theorem progress
    (hbody : ∀ T i v v', i ∈ T → J T v → B.Performs i v v' → J (T \ {i}) v')
    (hends : ∀ T i v, i ∈ T → J T v → ∃ n, B.EndsIn i n (B.start i, v)) :
    Progress (Step B) (Ending B J) (fun s => ∀ i, s.place i = .after)
      (rank B) Ready where
  keeps _ _ _ h _ hstep := h.step hbody hends hstep
  exists_ready s h hgoal := by
    obtain ⟨i, hi⟩ := not_forall.1 hgoal
    by_cases hword : s.word = 0
    · cases hplace : s.place i with
      | before => exact ⟨i, .inr ⟨hword, hplace⟩⟩
      | inside t => exact ⟨i, .inl ⟨t, hplace⟩⟩
      | after => exact absurd hplace hi
    · obtain ⟨j, hj⟩ := h.exclusion.word.1 hword
      exact ⟨j, .inl hj⟩
  enabled s i h _ hready := by
    rcases hready with ⟨t, ht⟩ | ⟨hword, hplace⟩
    · obtain ⟨n, hn⟩ := h.ends i t ht
      cases n with
      | zero => exact ⟨_, step_iff.2 (.leave ht hn.zero)⟩
      | succ n =>
          obtain ⟨hended, y, hy, -⟩ := hn.succ
          exact ⟨_, step_iff.2 (.body ht hended hy)⟩
    · exact ⟨_, step_iff.2 (.enter hplace hword)⟩
  lt s i s' h _ hready hstep := by
    refine .inr ?_
    cases step_iff.1 hstep with
    | spin hplace hword =>
        rcases hready with ⟨t, ht⟩ | ⟨hzero, -⟩
        · rw [hplace] at ht
          cases ht
        · exact absurd hzero hword
    | enter hplace =>
        exact rank_lt_of_crossings (by rw [hplace]; exact Nat.lt_succ_self 1)
    | body hplace hended hbodyStep => exact h.rank_body hplace hended hbodyStep
    | leave hplace =>
        exact rank_lt_of_crossings (by rw [hplace]; exact Nat.one_pos)
  stays s i j s' h _ hready hj hstep := by
    refine .inr ?_
    have hout : ∀ t, s.place j = .inside t →
        rank B s' < rank B s ∨ rank B s' ≤ rank B s ∧ Ready s' i := by
      intro t ht
      rcases hready with hi | ⟨hword, -⟩
      · exact absurd (h.exclusion.unique j i ⟨t, ht⟩ hi) hj
      · exact absurd hword (h.exclusion.word.2 ⟨j, t, ht⟩)
    cases step_iff.1 hstep with
    | spin => exact .inr ⟨le_refl _, hready⟩
    | enter hplace =>
        exact .inl (rank_lt_of_crossings (by
          rw [hplace]
          exact Nat.lt_succ_self 1))
    | body hplace => exact hout _ hplace
    | leave hplace => exact hout _ hplace

end Liveness

end Locked

end Transition
