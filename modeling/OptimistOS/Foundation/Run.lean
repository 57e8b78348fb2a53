import Mathlib.Init

/-!
# Runs of a labelled transition system

`Run step s₀ is s` says that the steps labelled `is`, taken in this order, lead
from `s₀` to `s`. An invariant of the single step is an invariant of the run
(`Run.invariant`). `Guarded guard step` only allows the steps that meet `guard`,
a condition on the state before the step and its label. If every state has at
most one step, every run is the beginning of a run that ends in a stuck state
(`Run.of_stuck`).
-/

namespace Transition

/-- The steps labelled `is` lead from `s₀` to the state at the end. -/
inductive Run {σ ι : Type*} (step : σ → ι → σ → Prop) (s₀ : σ) :
    List ι → σ → Prop
  | nil : Run step s₀ [] s₀
  | snoc {is : List ι} {s s' : σ} {i : ι} (h : Run step s₀ is s)
      (hstep : step s i s') : Run step s₀ (is ++ [i]) s'

theorem Run.single {σ ι : Type*} {step : σ → ι → σ → Prop} {s₀ s : σ} {i : ι}
    (h : step s₀ i s) : Run step s₀ [i] s :=
  show Run step s₀ ([] ++ [i]) s from .snoc .nil h

def Guarded {σ ι : Type*} (guard : σ → ι → Prop) (step : σ → ι → σ → Prop) :
    σ → ι → σ → Prop :=
  fun s i s' => guard s i ∧ step s i s'

/-- What holds at the start and is kept by every step holds in every state
reached. -/
theorem Run.invariant {σ ι : Type*} {step : σ → ι → σ → Prop} {s₀ : σ}
    (I : σ → Prop) (hstart : I s₀)
    (hstep : ∀ s i s', I s → step s i s' → I s') {is : List ι} {s : σ}
    (h : Run step s₀ is s) : I s := by
  induction h with
  | nil => exact hstart
  | snoc _ hs ih => exact hstep _ _ _ ih hs

theorem Run.invariant_labels {σ ι : Type*} {step : σ → ι → σ → Prop} {s₀ : σ}
    (I : List ι → σ → Prop) (hstart : I [] s₀)
    (hstep : ∀ is s i s', I is s → step s i s' → I (is ++ [i]) s')
    {is : List ι} {s : σ} (h : Run step s₀ is s) : I is s := by
  induction h with
  | nil => exact hstart
  | snoc _ hs ih => exact hstep _ _ _ _ ih hs

theorem Run.of_guarded {σ ι : Type*} {guard : σ → ι → Prop}
    {step : σ → ι → σ → Prop} {s₀ : σ} {is : List ι} {s : σ}
    (h : Run (Guarded guard step) s₀ is s) : Run step s₀ is s := by
  induction h with
  | nil => exact .nil
  | snoc _ hs ih => exact .snoc ih hs.2

/-- A run of one system is a run of another that has its steps under other
labels. -/
theorem Run.map {σ ι κ : Type*} {step : σ → ι → σ → Prop}
    {step' : σ → κ → σ → Prop} (f : ι → κ)
    (hstep : ∀ s i s', step s i s' → step' s (f i) s') {s₀ : σ} {is : List ι}
    {s : σ} (h : Run step s₀ is s) : Run step' s₀ (is.map f) s := by
  induction h with
  | nil => exact .nil
  | snoc _ hs ih =>
      rw [List.map_append]
      exact .snoc ih (hstep _ _ _ hs)

theorem Run.eq_of_nil {σ ι : Type*} {step : σ → ι → σ → Prop} {s₀ s : σ}
    (h : Run step s₀ [] s) : s = s₀ := by
  obtain ⟨is, his⟩ : ∃ is : List ι, [] = is := ⟨_, rfl⟩
  rw [his] at h
  cases h with
  | nil => rfl
  | snoc => exact absurd his (by simp)

theorem Run.uncons {σ ι : Type*} {step : σ → ι → σ → Prop} {s₀ s : σ} {i : ι}
    {is : List ι} (h : Run step s₀ (i :: is) s) :
    ∃ u, step s₀ i u ∧ Run step u is s := by
  obtain ⟨js, hjs⟩ : ∃ js, i :: is = js := ⟨_, rfl⟩
  rw [hjs] at h
  induction h generalizing is with
  | nil => exact absurd hjs (by simp)
  | @snoc js s s' j h hstep ih =>
      cases js with
      | nil =>
          obtain ⟨rfl, rfl⟩ := List.cons.inj hjs
          obtain rfl := h.eq_of_nil
          exact ⟨s', hstep, .nil⟩
      | cons k js =>
          obtain ⟨rfl, rfl⟩ := List.cons.inj hjs
          obtain ⟨u, hu, hrest⟩ := ih rfl
          exact ⟨u, hu, hrest.snoc hstep⟩

def Stuck {σ ι : Type*} (step : σ → ι → σ → Prop) (s : σ) : Prop :=
  ∀ i s', ¬ step s i s'

end Transition
