import Mathlib.Data.List.Basic

/-!
# Values kept for the next taker

A run in which values are put away under keys and taken out again, seen as the
list of its accesses. A value is pending when it was put away and nothing was
taken from its key since. The accesses keep the relation `R` when every value
taken is related by `R` to all the values that are pending under its key.

An invariant that speaks about the pending values decides this one access at a
time (`Keeps.snoc`, `pending_snoc`).
-/

namespace Transition

inductive Access (κ ν μ : Type*)
  | put (k : κ) (v : ν)
  | take (k : κ) (u : μ)
  | silent

variable {κ ν μ : Type*}

def Pending (es : List (Access κ ν μ)) (k : κ) (v : ν) : Prop :=
  ∃ es₁ es₂, es = es₁ ++ .put k v :: es₂ ∧ ∀ u, .take k u ∉ es₂

/-- For every value put away, the next value taken from its key is related to
it, whatever lies in between. -/
def Keeps (R : ν → μ → Prop) (es : List (Access κ ν μ)) : Prop :=
  ∀ es₁ es₂ es₃ k v u, es = (es₁ ++ .put k v :: es₂) ++ .take k u :: es₃ →
    (∀ u', .take k u' ∉ es₂) → R v u

theorem not_pending_nil (k : κ) (v : ν) :
    ¬ Pending ([] : List (Access κ ν μ)) k v := by
  rintro ⟨es₁, es₂, h, -⟩
  exact absurd h (by simp)

theorem pending_snoc {es : List (Access κ ν μ)} {e : Access κ ν μ} {k : κ}
    {v : ν} :
    Pending (es ++ [e]) k v ↔
      e = .put k v ∨ (Pending es k v ∧ ∀ u, e ≠ .take k u) := by
  constructor
  · rintro ⟨es₁, es₂, h, htake⟩
    rcases List.eq_nil_or_concat es₂ with rfl | ⟨es₂, e', rfl⟩
    · exact .inl (List.append_inj_right' h rfl |> List.singleton_injective)
    · rw [List.concat_eq_append, ← List.cons_append, ← List.append_assoc] at h
      obtain ⟨hes, he⟩ := List.append_inj' h rfl
      obtain rfl := List.singleton_injective he
      refine .inr ⟨⟨es₁, es₂, hes, fun u hu => htake u ?_⟩, fun u hu =>
        htake u ?_⟩
      · simp [hu]
      · simp [hu]
  · rintro (rfl | ⟨⟨es₁, es₂, rfl, htake⟩, he⟩)
    · exact ⟨es, [], rfl, by simp⟩
    · refine ⟨es₁, es₂ ++ [e], by simp, fun u hu => ?_⟩
      rcases List.mem_append.1 hu with hu | hu
      · exact htake u hu
      · exact he u (List.mem_singleton.1 hu).symm

theorem pending_snoc_silent {es : List (Access κ ν μ)} {k : κ} {v : ν} :
    Pending (es ++ [.silent]) k v ↔ Pending es k v := by
  simp [pending_snoc]

theorem pending_snoc_put {es : List (Access κ ν μ)} {j k : κ} {w v : ν} :
    Pending (es ++ [.put j w]) k v ↔ (j = k ∧ w = v) ∨ Pending es k v := by
  simp [pending_snoc]

theorem pending_snoc_take {es : List (Access κ ν μ)} {j k : κ} {u : μ}
    {v : ν} :
    Pending (es ++ [.take j u]) k v ↔ Pending es k v ∧ j ≠ k := by
  simp [pending_snoc]

theorem Keeps.nil (R : ν → μ → Prop) :
    Keeps R ([] : List (Access κ ν μ)) := by
  intro es₁ es₂ es₃ k v u h
  exact absurd h (by simp)

/-- One more access keeps the relation when a value it takes is related to all
the values pending there. -/
theorem Keeps.snoc {R : ν → μ → Prop} {es : List (Access κ ν μ)}
    (h : Keeps R es) {e : Access κ ν μ}
    (he : ∀ k u, e = .take k u → ∀ v, Pending es k v → R v u) :
    Keeps R (es ++ [e]) := by
  intro es₁ es₂ es₃ k v u hes htake
  rcases List.eq_nil_or_concat es₃ with rfl | ⟨es₃, e', rfl⟩
  · obtain ⟨hes, he'⟩ := List.append_inj' hes rfl
    exact he k u (List.singleton_injective he') v ⟨es₁, es₂, hes, htake⟩
  · rw [List.concat_eq_append, ← List.cons_append, ← List.append_assoc] at hes
    exact h es₁ es₂ es₃ k v u (List.append_inj' hes rfl).1 htake

end Transition
