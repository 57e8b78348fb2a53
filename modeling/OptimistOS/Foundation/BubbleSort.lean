import Mathlib.Data.List.Perm.Basic
import Mathlib.Order.Lattice

/-!
# Bubble sort

Sorting a list by a key in a linear order, with the greatest keys first.
`pass key a l` carries the element `a` along the list `l`: it exchanges places
with a greater element, and stays behind at one that is not greater, which is
then carried on. The pass also tells whether it has exchanged any elements.

Every exchange takes away an inversion of the list, so the passes come to an end
(`exists_sortPasses`). They keep the elements with the same key in their order,
and a pass without an exchange has seen a sorted list.
-/

namespace BubbleSort

variable {α β : Type*} [LinearOrder β] (key : α → β)

def pass : α → List α → List α × Bool
  | a, [] => ([a], false)
  | a, b :: l =>
      if key a < key b then (b :: (pass a l).1, true)
      else (a :: (pass b l).1, (pass b l).2)

def sortPasses : ℕ → List α → Option (List α)
  | 0, _ => none
  | _ + 1, [] => some []
  | n + 1, a :: l =>
      if (pass key a l).2 then sortPasses n (pass key a l).1
      else some (pass key a l).1

/-- The number of pairs in the wrong order. -/
def inversions : List α → ℕ
  | [] => 0
  | a :: l => l.countP (fun b => key a < key b) + inversions l

/-- The list `l'` is `l`, sorted with the greatest keys first, and with the
elements of every key in their old order. -/
structure IsStableSort (l l' : List α) : Prop where
  perm : l'.Perm l
  sorted : l'.Pairwise fun a b => key b ≤ key a
  stable : ∀ c, l'.filter (fun a => key a = c) = l.filter fun a => key a = c

variable {key}

theorem pass_of_lt {a b : α} (h : key a < key b) (l : List α) :
    pass key a (b :: l) = (b :: (pass key a l).1, true) := by
  rw [pass, if_pos h]

theorem pass_of_not_lt {a b : α} (h : ¬ key a < key b) (l : List α) :
    pass key a (b :: l) = (a :: (pass key b l).1, (pass key b l).2) := by
  rw [pass, if_neg h]

theorem pass_perm (a : α) (l : List α) : (pass key a l).1.Perm (a :: l) := by
  induction l generalizing a with
  | nil => exact List.Perm.refl _
  | cons b l ih =>
      by_cases h : key a < key b
      · rw [pass_of_lt h]
        exact ((ih a).cons b).trans (List.Perm.swap a b l)
      · rw [pass_of_not_lt h]
        exact (ih b).cons a

theorem filter_pass (a : α) (l : List α) (c : β) :
    (pass key a l).1.filter (fun x => key x = c) =
      (a :: l).filter fun x => key x = c := by
  induction l generalizing a with
  | nil => rfl
  | cons b l ih =>
      by_cases h : key a < key b
      · rw [pass_of_lt h, List.filter_cons, ih]
        by_cases ha : key a = c
        · have hb : key b ≠ c := fun hb => by
            rw [ha, hb] at h
            exact lt_irrefl c h
          simp [ha, hb]
        · simp [List.filter_cons, ha]
      · by_cases ha : key a = c <;> simp [pass_of_not_lt h, ih, ha]

theorem inversions_pass (a : α) (l : List α) :
    inversions key (pass key a l).1 + (pass key a l).2.toNat ≤
      inversions key (a :: l) := by
  induction l generalizing a with
  | nil => exact Nat.le_refl _
  | cons b l ih =>
      by_cases h : key a < key b
      · have hcount : (pass key a l).1.countP (fun x => key b < key x) =
            l.countP fun x => key b < key x := by
          rw [(pass_perm a l).countP_eq, List.countP_cons_of_neg]
          simpa using h.le
        have hrest := ih a
        simp only [pass_of_lt h, inversions, hcount, List.countP_cons_of_pos,
          h, decide_true, Bool.toNat_true] at hrest ⊢
        omega
      · have hcount : (pass key b l).1.countP (fun x => key a < key x) =
            (b :: l).countP fun x => key a < key x :=
          (pass_perm b l).countP_eq _
        have hrest := ih b
        simp only [pass_of_not_lt h, inversions, hcount] at hrest ⊢
        omega

theorem sorted_of_pass {a : α} {l : List α} (h : (pass key a l).2 = false) :
    (pass key a l).1 = a :: l ∧
      (a :: l).Pairwise fun x y => key y ≤ key x := by
  induction l generalizing a with
  | nil => exact ⟨rfl, List.pairwise_singleton _ a⟩
  | cons b l ih =>
      by_cases hlt : key a < key b
      · rw [pass_of_lt hlt] at h
        exact absurd h (by simp)
      · rw [pass_of_not_lt hlt] at h ⊢
        obtain ⟨hsame, hsorted⟩ := ih h
        refine ⟨by rw [hsame], List.pairwise_cons.2 ⟨fun x hx => ?_, hsorted⟩⟩
        have hba := not_lt.1 hlt
        rcases List.mem_cons.1 hx with rfl | hx
        · exact hba
        · exact ((List.pairwise_cons.1 hsorted).1 x hx).trans hba

theorem exists_sortPasses {n : ℕ} {l : List α} (h : inversions key l < n) :
    ∃ l', sortPasses key n l = some l' ∧ IsStableSort key l l' := by
  induction n generalizing l with
  | zero => exact absurd h (Nat.not_lt_zero _)
  | succ n ih =>
      cases l with
      | nil =>
          exact ⟨[], rfl, List.Perm.refl _, List.Pairwise.nil, fun _ => rfl⟩
      | cons a l =>
          have hinv : inversions key (pass key a l).1 +
              (pass key a l).2.toNat ≤ inversions key (a :: l) :=
            inversions_pass a l
          cases hswap : (pass key a l).2 with
          | false =>
              obtain ⟨hsame, hsorted⟩ := sorted_of_pass hswap
              refine ⟨(pass key a l).1, ?_, pass_perm a l, hsame ▸ hsorted,
                filter_pass a l⟩
              rw [sortPasses, hswap]
              rfl
          | true =>
              rw [hswap, Bool.toNat_true] at hinv
              obtain ⟨l', hl', hsort⟩ := ih (l := (pass key a l).1) (by omega)
              refine ⟨l', ?_, hsort.perm.trans (pass_perm a l), hsort.sorted,
                fun c => (hsort.stable c).trans (filter_pass a l c)⟩
              rw [sortPasses, if_pos hswap]
              exact hl'

end BubbleSort
