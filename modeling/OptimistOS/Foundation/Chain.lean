import Mathlib.Data.BitVec
import Mathlib.Data.List.Nodup
import Mathlib.Logic.Function.Basic

/-!
# Linked lists

A node of a linked list is a value of any type `α`; `next` gives the node that
follows it and `null` marks the end. `Chain null next p qs` says that the nodes
reached from `p` are `qs`, in this order, up to the null node. A chain is
determined by its first node and never comes back to a node, so it has no
repetitions. `lastNode` is the loop that walks to the last node, and `snoc`
describes the list after a node was linked behind it.
-/

namespace LinkedList

variable {α : Type*}

def Chain (null : α) (next : α → α) : α → List α → Prop
  | p, [] => p = null
  | p, q :: qs => p = q ∧ q ≠ null ∧ Chain null next (next q) qs

def lastNode [DecidableEq α] (null : α) (next : α → α) : ℕ → α → Option α
  | 0, _ => none
  | fuel + 1, p =>
      if next p = null then some p else lastNode null next fuel (next p)

variable {null : α} {next next' : α → α}

theorem Chain.ne_null {p : α} {qs : List α} (h : Chain null next p qs) {q : α}
    (hq : q ∈ qs) : q ≠ null := by
  induction qs generalizing p with
  | nil => exact absurd hq (by simp)
  | cons r qs ih =>
      rcases List.mem_cons.1 hq with rfl | hq
      · exact h.2.1
      · exact ih h.2.2 hq

theorem Chain.congr {p : α} {qs : List α} (h : Chain null next p qs)
    (hnext : ∀ q ∈ qs, next' q = next q) : Chain null next' p qs := by
  induction qs generalizing p with
  | nil => exact h
  | cons q qs ih =>
      refine ⟨h.1, h.2.1, ?_⟩
      rw [hnext q (by simp)]
      exact ih h.2.2 fun r hr => hnext r (List.mem_cons_of_mem _ hr)

theorem Chain.unique {p : α} {qs rs : List α} (hq : Chain null next p qs)
    (hr : Chain null next p rs) : qs = rs := by
  induction qs generalizing p rs with
  | nil =>
      cases rs with
      | nil => rfl
      | cons r rs => exact absurd (hr.1.symm.trans hq) hr.2.1
  | cons q qs ih =>
      cases rs with
      | nil => exact absurd (hq.1.symm.trans hr) hq.2.1
      | cons r rs =>
          obtain rfl : q = r := hq.1.symm.trans hr.1
          rw [ih hq.2.2 hr.2.2]

theorem Chain.drop {p q : α} {qs rs : List α}
    (h : Chain null next p (qs ++ q :: rs)) : Chain null next q (q :: rs) := by
  induction qs generalizing p with
  | nil =>
      obtain ⟨rfl, h⟩ := h
      exact ⟨rfl, h⟩
  | cons r qs ih => exact ih h.2.2

theorem Chain.nodup {p : α} {qs : List α} (h : Chain null next p qs) :
    qs.Nodup := by
  induction qs generalizing p with
  | nil => exact List.nodup_nil
  | cons q qs ih =>
      refine List.nodup_cons.2 ⟨fun hmem => ?_, ih h.2.2⟩
      obtain ⟨rs, ts, hsplit⟩ := List.append_of_mem hmem
      have htail := h.2.2
      rw [hsplit] at htail
      have hsame := congrArg List.length (Chain.unique htail.drop
        (show Chain null next q (q :: qs) from ⟨rfl, h.2⟩))
      rw [hsplit] at hsame
      simp only [List.length_cons, List.length_append] at hsame
      omega

/-- A node taken out of the chain: the node before it is linked to the one
behind it. -/
theorem Chain.unlink {p q r : α} {qs rs : List α}
    (h : Chain null next p (qs ++ q :: r :: rs)) (hq : next' q = next r)
    (hother : ∀ t, t ≠ q → next' t = next t) :
    Chain null next' p (qs ++ q :: rs) := by
  have hnodup := h.nodup
  induction qs generalizing p with
  | nil =>
      obtain ⟨rfl, hne, -, -, hrest⟩ := h
      refine ⟨rfl, hne, ?_⟩
      rw [hq]
      refine hrest.congr fun t ht => hother t ?_
      rintro rfl
      exact (List.nodup_cons.1 hnodup).1 (List.mem_cons_of_mem _ ht)
  | cons t qs ih =>
      obtain ⟨rfl, hne, hrest⟩ := h
      refine ⟨rfl, hne, ?_⟩
      rw [hother p]
      · exact ih hrest (List.nodup_cons.1 hnodup).2
      · rintro rfl
        exact (List.nodup_cons.1 hnodup).1 (by simp)

theorem Chain.length_lt {w : ℕ} {next : BitVec w → BitVec w} {p : BitVec w}
    {qs : List (BitVec w)} (h : Chain 0 next p qs) : qs.length < 2 ^ w := by
  have hnodup : ((0 :: qs).map BitVec.toNat).Nodup :=
    (List.nodup_cons.2 ⟨fun h0 => h.ne_null h0 rfl, h.nodup⟩).map
      fun _ _ hab => BitVec.eq_of_toNat_eq hab
  have hsub : (0 :: qs).map BitVec.toNat ⊆ List.range (2 ^ w) := by
    intro n hn
    obtain ⟨q, -, rfl⟩ := List.mem_map.1 hn
    exact List.mem_range.2 q.isLt
  have hlen := List.Nodup.length_le_of_subset hnodup hsub
  rw [List.length_map, List.length_cons, List.length_range] at hlen
  omega

theorem Chain.lastNode_eq [DecidableEq α] {p l : α} {qs : List α}
    (h : Chain null next p (qs ++ [l])) {fuel : ℕ} (hfuel : qs.length < fuel) :
    lastNode null next fuel p = some l := by
  induction qs generalizing p fuel with
  | nil =>
      obtain ⟨fuel, rfl⟩ := Nat.exists_eq_add_of_lt hfuel
      obtain ⟨rfl, -, hend⟩ := h
      exact if_pos hend
  | cons q qs ih =>
      obtain ⟨fuel, rfl⟩ : ∃ n, fuel = n + 1 :=
        ⟨fuel - 1, by rw [List.length_cons] at hfuel; omega⟩
      obtain ⟨rfl, hne, hrest⟩ := h
      have hnext : next p ≠ null := by
        cases qs with
        | nil => exact hrest.1 ▸ hrest.2.1
        | cons r qs => exact hrest.1 ▸ hrest.2.1
      rw [lastNode, if_neg hnext]
      exact ih hrest (by rw [List.length_cons] at hfuel; omega)

theorem next_of_lastNode [DecidableEq α] {p l : α} {fuel : ℕ}
    (h : lastNode null next fuel p = some l) : next l = null := by
  induction fuel generalizing p with
  | zero => exact absurd h (by simp [lastNode])
  | succ fuel ih =>
      by_cases hp : next p = null
      · rw [lastNode, if_pos hp] at h
        exact Option.some.inj h ▸ hp
      · rw [lastNode, if_neg hp] at h
        exact ih h

theorem Chain.snoc [DecidableEq α] {p l n : α} {qs : List α}
    (h : Chain null next p (qs ++ [l])) (hn : n ≠ null)
    (hnew : n ∉ qs ++ [l])
    (hlast : next' l = n) (hend : next' n = null)
    (hother : ∀ q ∈ qs, next' q = next q) :
    Chain null next' p (qs ++ [l] ++ [n]) := by
  induction qs generalizing p with
  | nil =>
      obtain ⟨rfl, hne, -⟩ := h
      exact ⟨rfl, hne, hlast, hn, hend⟩
  | cons q qs ih =>
      obtain ⟨rfl, hne, hrest⟩ := h
      refine ⟨rfl, hne, ?_⟩
      rw [hother p (by simp)]
      exact ih hrest (fun hmem => hnew (List.mem_cons_of_mem _ hmem))
        fun r hr => hother r (List.mem_cons_of_mem _ hr)

end LinkedList
