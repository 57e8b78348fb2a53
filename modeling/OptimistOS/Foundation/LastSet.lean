import OptimistOS.Foundation.Run
import Mathlib.Data.List.Basic

/-!
# What was set last

Some labels of a run set values under keys: `sets i k` is the value that a step
labelled `i` puts under `k`, if it puts one there. If every step leaves all other
values alone, then every run leaves under each key what was set last, or else what
was there at the start (`Run.lastSet`).
-/

namespace Transition

variable {σ ι κ ν μ : Type*} {sets : ι → κ → Option ν} {is : List ι} {k : κ}

def lastSet (sets : ι → κ → Option ν) (is : List ι) (k : κ) : Option ν :=
  (is.filterMap fun i => sets i k).getLast?

theorem lastSet_snoc (i : ι) :
    lastSet sets (is ++ [i]) k = (sets i k).or (lastSet sets is k) := by
  rw [lastSet, lastSet, List.filterMap_append]
  cases h : sets i k with
  | none => simp [h]
  | some v => simp [h]

theorem exists_lastSet (sets : ι → κ → Option ν) (k : κ) {i : ι} {v : ν}
    (hi : i ∈ is) (hv : sets i k = some v) :
    ∃ u, lastSet sets is k = some u ∧ ∃ j ∈ is, sets j k = some u := by
  have hmem : v ∈ is.filterMap fun i => sets i k := List.mem_filterMap.2 ⟨i, hi, hv⟩
  have hlast := List.getLast?_eq_getLast_of_ne_nil (List.ne_nil_of_mem hmem)
  exact ⟨_, hlast, List.mem_filterMap.1 (List.mem_of_getLast? hlast)⟩

theorem lastSet_map (f : ν → μ) :
    lastSet (fun i k => (sets i k).map f) is k = (lastSet sets is k).map f := by
  rw [lastSet, lastSet, ← List.map_filterMap, List.getLast?_map]

/-- A run leaves under the keys of `K` what was set last, if every step sets
what its label says. `obs s k` is what is under `k` in the state `s`. -/
theorem Run.lastSet {step : σ → ι → σ → Prop} {s₀ s : σ} (K : Set κ)
    (sets : ι → κ → Option ν) (obs : σ → κ → ν) (I : σ → Prop) (hstart : I s₀)
    (hstep : ∀ s i s', I s → step s i s' →
      I s' ∧ ∀ k ∈ K, obs s' k = (sets i k).getD (obs s k))
    (h : Run step s₀ is s) :
    I s ∧ ∀ k ∈ K, obs s k = (lastSet sets is k).getD (obs s₀ k) := by
  induction h with
  | nil => exact ⟨hstart, fun k _ => rfl⟩
  | snoc _ hs ih =>
      obtain ⟨hI, hobs⟩ := ih
      obtain ⟨hI', hobs'⟩ := hstep _ _ _ hI hs
      refine ⟨hI', fun k hk => ?_⟩
      rw [hobs' k hk, hobs k hk, lastSet_snoc]
      cases sets _ k <;> rfl

end Transition
