import Mathlib.Order.WellFounded
import OptimistOS.Foundation.Run

/-!
# Executions under a fair schedule

An execution is an infinite sequence of states with a schedule that says who
takes the step at each time. Who has no step lets the time pass. A schedule is
fair when everybody's turn comes again and again.

`Progress` is the rank argument for such executions. As long as the goal is not
reached somebody is ready: their step lowers the rank, and the steps of the
others either lower the rank or leave it no larger and them ready. Then every
fair execution reaches the goal (`Progress.reaches`).
-/

namespace Transition

variable {σ ι ρ : Type*} {step : σ → ι → σ → Prop}

/-- At every time the one whose turn it is takes a step, or has none and the
state stays. -/
def Executes (step : σ → ι → σ → Prop) (who : ℕ → ι) (s : ℕ → σ) : Prop :=
  ∀ n, step (s n) (who n) (s (n + 1)) ∨
    (∀ t, ¬ step (s n) (who n) t) ∧ s (n + 1) = s n

/-- Everybody's turn comes again and again. -/
def Fair (who : ℕ → ι) : Prop := ∀ i n, ∃ k, n ≤ k ∧ who k = i

theorem Executes.invariant {who : ℕ → ι} {s : ℕ → σ} (h : Executes step who s)
    (I : σ → Prop) (hstep : ∀ s i t, I s → step s i t → I t) {n : ℕ}
    (hn : I (s n)) {k : ℕ} (hk : n ≤ k) : I (s k) := by
  induction k, hk using Nat.le_induction with
  | base => exact hn
  | succ k _ ih =>
      rcases h k with h | ⟨-, h⟩
      · exact hstep _ _ _ ih h
      · rwa [h]

theorem Executes.exists_run {who : ℕ → ι} {s : ℕ → σ}
    (h : Executes step who s) (n : ℕ) : ∃ is, Run step (s 0) is (s n) := by
  induction n with
  | zero => exact ⟨[], .nil⟩
  | succ n ih =>
      obtain ⟨is, hrun⟩ := ih
      rcases h n with h | ⟨-, h⟩
      · exact ⟨is ++ [who n], hrun.snoc h⟩
      · exact ⟨is, h ▸ hrun⟩

theorem exists_executes (next : σ → ι → Option σ) (who : ℕ → ι) (s₀ : σ) :
    ∃ s : ℕ → σ, s 0 = s₀ ∧ Executes (fun s i s' => next s i = some s') who s := by
  let s : ℕ → σ := Nat.rec s₀ fun n t => (next t (who n)).getD t
  refine ⟨s, rfl, fun n => ?_⟩
  have hs : s (n + 1) = (next (s n) (who n)).getD (s n) := rfl
  cases h : next (s n) (who n) with
  | none => exact .inr ⟨by simp [h], by rw [hs, h, Option.getD_none]⟩
  | some t =>
      rw [hs, h, Option.getD_some]
      exact .inl h

/-- The rank argument. The invariant `I` may fail once the goal is reached. -/
structure Progress [Preorder ρ] (step : σ → ι → σ → Prop)
    (I goal : σ → Prop) (rank : σ → ρ) (ready : σ → ι → Prop) : Prop where
  keeps : ∀ s i t, I s → ¬ goal s → step s i t → I t
  exists_ready : ∀ s, I s → ¬ goal s → ∃ i, ready s i
  enabled : ∀ s i, I s → ¬ goal s → ready s i → ∃ t, step s i t
  lt : ∀ s i t, I s → ¬ goal s → ready s i → step s i t →
    goal t ∨ rank t < rank s
  stays : ∀ s i j t, I s → ¬ goal s → ready s i → j ≠ i → step s j t →
    goal t ∨ rank t < rank s ∨ (rank t ≤ rank s ∧ ready t i)

namespace Progress

variable [Preorder ρ] {I goal : σ → Prop} {rank : σ → ρ}
  {ready : σ → ι → Prop} {who : ℕ → ι} {s : ℕ → σ}

/-- At the next turn of one who is ready the goal is reached or the rank has
gone down, if not before. -/
theorem exists_lt (h : Progress step I goal rank ready)
    (hexec : Executes step who s) {i : ι} {k : ℕ} (hwho : who k = i) :
    ∀ d n, n + d = k → I (s n) → ¬ goal (s n) → ready (s n) i →
      ∃ m, n < m ∧ (goal (s m) ∨ I (s m) ∧ rank (s m) < rank (s n)) := by
  intro d
  induction d with
  | zero =>
      rintro n rfl hI hgoal hready
      obtain ⟨t, ht⟩ := h.enabled _ _ hI hgoal hready
      rw [Nat.add_zero] at hwho
      rcases hexec n with hstep | ⟨hnone, -⟩
      · rw [hwho] at hstep
        refine ⟨n + 1, Nat.lt_succ_self n, ?_⟩
        exact (h.lt _ _ _ hI hgoal hready hstep).imp id fun hlt =>
          ⟨h.keeps _ _ _ hI hgoal hstep, hlt⟩
      · rw [hwho] at hnone
        exact absurd ht (hnone t)
  | succ d ih =>
      intro n hk hI hgoal hready
      -- what the step at time `n` leaves, before the turn of `i` comes
      have hnext : goal (s (n + 1)) ∨ I (s (n + 1)) ∧
          (rank (s (n + 1)) < rank (s n) ∨
            rank (s (n + 1)) ≤ rank (s n) ∧ ready (s (n + 1)) i) := by
        rcases hexec n with hstep | ⟨-, heq⟩
        · have hkeeps := h.keeps _ _ _ hI hgoal hstep
          by_cases hw : who n = i
          · rw [hw] at hstep
            exact (h.lt _ _ _ hI hgoal hready hstep).imp id fun hlt =>
              ⟨hkeeps, .inl hlt⟩
          · exact (h.stays _ _ _ _ hI hgoal hready hw hstep).imp id fun hor =>
              ⟨hkeeps, hor⟩
        · rw [heq]
          exact .inr ⟨hI, .inr ⟨le_refl _, hready⟩⟩
      rcases hnext with hgoal' | ⟨hI', hlt | ⟨hle, hready'⟩⟩
      · exact ⟨n + 1, Nat.lt_succ_self n, .inl hgoal'⟩
      · exact ⟨n + 1, Nat.lt_succ_self n, .inr ⟨hI', hlt⟩⟩
      · by_cases hgoal' : goal (s (n + 1))
        · exact ⟨n + 1, Nat.lt_succ_self n, .inl hgoal'⟩
        · obtain ⟨m, hm, hor⟩ := ih (n + 1) (by omega) hI' hgoal' hready'
          refine ⟨m, by omega, hor.imp id fun hand => ⟨hand.1, ?_⟩⟩
          exact lt_of_lt_of_le hand.2 hle

theorem reaches [WellFoundedLT ρ] (h : Progress step I goal rank ready)
    (hexec : Executes step who s) (hfair : Fair who) {n : ℕ} (hI : I (s n)) :
    ∃ m, n ≤ m ∧ goal (s m) := by
  obtain ⟨r, hr⟩ : ∃ r, rank (s n) = r := ⟨_, rfl⟩
  induction r using WellFoundedLT.induction generalizing n with
  | ind r ih =>
      subst hr
      by_cases hgoal : goal (s n)
      · exact ⟨n, le_refl n, hgoal⟩
      · obtain ⟨i, hi⟩ := h.exists_ready _ hI hgoal
        obtain ⟨k, hk, hwho⟩ := hfair i n
        obtain ⟨m, hm, hgoal' | ⟨hI', hlt⟩⟩ :=
          h.exists_lt hexec hwho (k - n) n (by omega) hI hgoal hi
        · exact ⟨m, hm.le, hgoal'⟩
        · obtain ⟨m', hm', hgoal'⟩ := ih _ hlt hI' rfl
          exact ⟨m', by omega, hgoal'⟩

end Progress

end Transition
