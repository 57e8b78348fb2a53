import Mathlib.Data.List.Basic

/-!
# Neighbours on a list

`neighbours l` are the pairs of elements that follow each other on `l`, in
order.
-/

namespace List

variable {α : Type*}

/-- The pairs of an element and the one right behind it. -/
def neighbours : List α → List (α × α)
  | a :: b :: l => (a, b) :: neighbours (b :: l)
  | _ => []

@[simp] theorem neighbours_nil : neighbours ([] : List α) = [] := rfl

@[simp] theorem neighbours_singleton (a : α) : neighbours [a] = [] := rfl

@[simp] theorem neighbours_cons_cons (a b : α) (l : List α) :
    neighbours (a :: b :: l) = (a, b) :: neighbours (b :: l) := rfl

theorem map_snd_neighbours (l : List α) :
    l.neighbours.map Prod.snd = l.tail := by
  induction l with
  | nil => rfl
  | cons a l ih =>
      cases l with
      | nil => rfl
      | cons b l => rw [neighbours_cons_cons, map_cons, ih]; rfl

theorem neighbours_dropLast (l : List α) :
    l.dropLast.neighbours = l.neighbours.dropLast := by
  induction l with
  | nil => rfl
  | cons a l ih =>
      match l, ih with
      | [], _ => rfl
      | [b], _ => rfl
      | b :: c :: l, ih =>
          rw [dropLast_cons_cons, dropLast_cons_cons, neighbours_cons_cons,
            neighbours_cons_cons, neighbours_cons_cons, dropLast_cons_cons,
            ← dropLast_cons_cons, ih, neighbours_cons_cons]

theorem mem_of_mem_neighbours {l : List α} {q : α × α} (h : q ∈ l.neighbours) :
    q.1 ∈ l ∧ q.2 ∈ l := by
  induction l with
  | nil => exact absurd h (by simp)
  | cons a l ih =>
      cases l with
      | nil => exact absurd h (by simp)
      | cons b l =>
          rcases mem_cons.1 h with rfl | h
          · simp
          · exact ⟨mem_cons_of_mem _ (ih h).1, mem_cons_of_mem _ (ih h).2⟩

theorem Pairwise.neighbours {R : α → α → Prop} {l : List α} (h : l.Pairwise R)
    {q : α × α} (hq : q ∈ l.neighbours) : R q.1 q.2 := by
  induction l with
  | nil => exact absurd hq (by simp)
  | cons a l ih =>
      cases l with
      | nil => exact absurd hq (by simp)
      | cons b l =>
          rcases mem_cons.1 hq with rfl | hq
          · exact (pairwise_cons.1 h).1 b mem_cons_self
          · exact ih (pairwise_cons.1 h).2 hq

end List
