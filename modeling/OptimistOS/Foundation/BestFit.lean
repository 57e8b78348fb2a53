import Mathlib.Order.Lattice
import Mathlib.Data.List.Basic
import Mathlib.Data.List.Induction

/-!
# The smallest that fits

A scan over a list that keeps the smallest of the elements that fit, the first
one of several (`better`, `bestOf`).
-/

namespace BestFit

variable {α β : Type*} [LinearOrder β] (fits : α → Prop) [DecidablePred fits]
  (size : α → β)

/-- The candidate after `a` was looked at. -/
def better (selected : Option α) (a : α) : Option α :=
  match selected with
  | none => if fits a then some a else none
  | some b => if fits a ∧ size a < size b then some a else some b

/-- The candidate at the end of the scan. -/
def bestOf (l : List α) : Option α :=
  l.foldl (better fits size) none

theorem better_mem {selected : Option α} {a b : α}
    (h : b ∈ better fits size selected a) : b = a ∨ b ∈ selected := by
  cases selected with
  | none =>
      simp only [better] at h
      split_ifs at h
      · exact Or.inl (Option.mem_some_iff.1 h).symm
      · exact Or.inr h
  | some c =>
      simp only [better] at h
      split_ifs at h
      · exact Or.inl (Option.mem_some_iff.1 h).symm
      · exact Or.inr h

theorem bestOf_snoc (l : List α) (a : α) :
    bestOf fits size (l ++ [a]) = better fits size (bestOf fits size l) a :=
  List.foldl_concat ..

/-- What the scan has found: nothing fits, or the smallest that fits. -/
theorem bestOf_spec (l : List α) :
    (bestOf fits size l = none ∧ ∀ a ∈ l, ¬ fits a) ∨
      ∃ b, bestOf fits size l = some b ∧ b ∈ l ∧ fits b ∧
        ∀ a ∈ l, fits a → size b ≤ size a := by
  induction l using List.reverseRecOn with
  | nil => exact Or.inl ⟨rfl, by simp⟩
  | append_singleton l a ih =>
      rw [bestOf_snoc]
      rcases ih with ⟨hnone, hall⟩ | ⟨b, hb, hmem, hfits, hmin⟩
      · rw [hnone, better]
        by_cases ha : fits a
        · refine Or.inr ⟨a, if_pos ha, by simp, ha, fun c hc hc' => ?_⟩
          rcases List.mem_append.1 hc with hc | hc
          · exact absurd hc' (hall c hc)
          · rw [List.mem_singleton.1 hc]
        · refine Or.inl ⟨if_neg ha, fun c hc => ?_⟩
          rcases List.mem_append.1 hc with hc | hc
          · exact hall c hc
          · rwa [List.mem_singleton.1 hc]
      · rw [hb, better]
        right
        by_cases ha : fits a ∧ size a < size b
        · refine ⟨a, if_pos ha, by simp, ha.1, fun c hc hc' => ?_⟩
          rcases List.mem_append.1 hc with hc | hc
          · exact ha.2.le.trans (hmin c hc hc')
          · rw [List.mem_singleton.1 hc]
        · refine ⟨b, if_neg ha, List.mem_append_left _ hmem, hfits,
            fun c hc hc' => ?_⟩
          rcases List.mem_append.1 hc with hc | hc
          · exact hmin c hc hc'
          · obtain rfl := List.mem_singleton.1 hc
            exact not_lt.1 fun hlt => ha ⟨hc', hlt⟩

end BestFit
