import Mathlib.Algebra.Order.Ring.Int
import Mathlib.Data.List.GetD
import Mathlib.Logic.Function.Basic

/-!
# Strings that end with a NUL

An array is a function of the index, which may be negative: nothing stops a
pointer from leaving its array. `StringAt p i s` says that the characters of `s`
are in `p` from `i` on, that none of them is a NUL, and that a NUL follows.
-/

namespace CString

variable {α : Type} [Zero α] {p q : ℤ → α} {i : ℤ} {c : α} {s : List α}

def StringAt (p : ℤ → α) : ℤ → List α → Prop
  | i, [] => p i = 0
  | i, c :: s => p i = c ∧ c ≠ 0 ∧ StringAt p (i + 1) s

theorem stringAt_nil : StringAt p i [] ↔ p i = 0 :=
  Iff.rfl

namespace StringAt

theorem congr (h : StringAt p i s) (hpq : ∀ j, i ≤ j → q j = p j) :
    StringAt q i s := by
  induction s generalizing i with
  | nil => exact (hpq i le_rfl).trans h
  | cons c s ih =>
      obtain ⟨hc, hne, htail⟩ := h
      exact ⟨(hpq i le_rfl).trans hc, hne,
        ih htail fun j hj => hpq j (by omega)⟩

theorem update (h : StringAt p (i + 1) s) (hc : c ≠ 0) :
    StringAt (Function.update p i c) i (c :: s) :=
  ⟨Function.update_self i c p, hc, h.congr fun _ hj =>
    Function.update_of_ne (by omega) _ _⟩

theorem apply_getElem (h : StringAt p i s) {k : ℕ} (hk : k < s.length) :
    p (i + k) = s[k] := by
  induction s generalizing i k with
  | nil => exact absurd hk (Nat.not_lt_zero k)
  | cons c s ih =>
      cases k with
      | zero => rw [Nat.cast_zero, add_zero, h.1, List.getElem_cons_zero]
      | succ k =>
          have hk' : k < s.length := Nat.lt_of_succ_lt_succ hk
          rw [List.getElem_cons_succ, ← ih h.2.2 hk', Nat.cast_succ,
            add_assoc, add_comm (1 : ℤ)]

end StringAt

def literal (s : List α) (j : ℤ) : α :=
  if j < 0 then 0 else s.getD j.toNat 0

theorem stringAt_literal_drop (hs : ∀ c ∈ s, c ≠ 0) (n : ℕ) :
    StringAt (literal s) n (s.drop n) := by
  induction hr : s.drop n generalizing n with
  | nil =>
      have hle := List.drop_eq_nil_iff.1 hr
      simp only [StringAt, literal, Int.toNat_natCast]
      rw [if_neg (by omega), List.getD_eq_default _ _ hle]
  | cons c r ih =>
      have hlt : n < s.length := by
        by_contra hge
        rw [List.drop_eq_nil_of_le (by omega)] at hr
        exact absurd hr (by simp)
      rw [List.drop_eq_getElem_cons hlt] at hr
      obtain ⟨rfl, htail⟩ := List.cons.inj hr
      refine ⟨?_, hs _ (List.getElem_mem hlt), ih (n + 1) htail⟩
      rw [literal, if_neg (by omega), Int.toNat_natCast,
        List.getD_eq_getElem _ _ hlt]

theorem stringAt_literal (hs : ∀ c ∈ s, c ≠ 0) :
    StringAt (literal s) 0 s :=
  stringAt_literal_drop hs 0

end CString
