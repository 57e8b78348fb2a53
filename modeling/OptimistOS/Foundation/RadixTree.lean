import Mathlib.Logic.Function.Basic
import Mathlib.Data.List.Infix

/-!
# Radix trees in a store of tables

A store `E : F → ι → ε` gives the entries of every table; `child` says which
entries lead to another table. `follow` walks from table to table and `resolve`
reads the entry where the walk along a list of indices ends, with the indices
that were not used.

The tables of one tree are kept apart by an `owner`, which names for every table
of the tree the one path on which it may be reached. As long as every child of
an owned table is owned by the path through its slot (`Unshared`), an update of
one slot can only be seen along the paths through that slot
(`resolve_of_agreeOff`), and a fresh table can be linked in (`Unshared.link`).
-/

namespace RadixTree

section

variable {F ι ε : Type*} (child : ε → Option F)

/-- The table that the indices lead to from the table `t`. -/
def follow (E : F → ι → ε) : F → List ι → Option F
  | t, [] => some t
  | t, i :: p => (child (E t i)).bind fun u => follow E u p

/-- The entry where the walk from `t` along the indices ends: the first one that
leads to no table, or the one of the last index. -/
def resolve (E : F → ι → ε) : F → List ι → Option (ε × List ι)
  | _, [] => none
  | t, [i] => some (E t i, [])
  | t, i :: j :: p =>
      match child (E t i) with
      | none => some (E t i, j :: p)
      | some u => resolve E u (j :: p)

/-- `owner` names the path of every table of the tree under `root`, down to the
tables at the end of `depth` indices. -/
structure Unshared (E : F → ι → ε) (root : F) (depth : ℕ)
    (owner : F → Option (List ι)) : Prop where
  root : owner root = some []
  child : ∀ t p i u, owner t = some p → p.length < depth →
    child (E t i) = some u → owner u = some (p ++ [i])

/-- The stores agree on the owned tables, except in the slot `i` of the table
`t`. -/
def AgreeOffSlot (owner : F → Option (List ι)) (t : F) (i : ι)
    (E E' : F → ι → ε) : Prop :=
  ∀ u p j, owner u = some p → ¬ (u = t ∧ j = i) → E' u j = E u j

variable {child} {E E' : F → ι → ε} {root t u : F} {depth : ℕ}
  {owner : F → Option (List ι)} {p q s : List ι} {i : ι}

theorem follow_append (E : F → ι → ε) (t : F) (p q : List ι) :
    follow child E t (p ++ q) =
      (follow child E t p).bind fun u => follow child E u q := by
  induction p generalizing t with
  | nil => rfl
  | cons i p ih =>
      rw [List.cons_append, follow, follow]
      cases child (E t i) with
      | none => rfl
      | some u => exact ih u

theorem follow_snoc (ht : follow child E root p = some t) :
    follow child E root (p ++ [i]) = child (E t i) := by
  rw [follow_append, ht, Option.bind_some, follow]
  cases child (E t i) <;> rfl

theorem resolve_append (ht : follow child E root p = some t) (hq : q ≠ []) :
    resolve child E root (p ++ q) = resolve child E t q := by
  induction p generalizing root with
  | nil => rw [List.nil_append, Option.some.inj ht]
  | cons i p ih =>
      rw [follow] at ht
      cases hc : child (E root i) with
      | none =>
          rw [hc] at ht
          exact absurd ht (by simp)
      | some u =>
          rw [hc, Option.bind_some] at ht
          obtain ⟨j, r, hr⟩ : ∃ j r, p ++ q = j :: r :=
            List.exists_cons_of_ne_nil (by simp [hq])
          rw [List.cons_append, hr, resolve, hc, ← hr]
          exact ih ht

theorem Unshared.follow_owner (h : Unshared child E root depth owner)
    (ht : owner t = some p) (hu : follow child E t q = some u)
    (hlen : p.length + q.length ≤ depth) : owner u = some (p ++ q) := by
  induction q generalizing t p with
  | nil => rw [List.append_nil, ← Option.some.inj hu, ht]
  | cons i q ih =>
      rw [List.length_cons] at hlen
      rw [follow] at hu
      cases hc : child (E t i) with
      | none =>
          rw [hc] at hu
          exact absurd hu (by simp)
      | some v =>
          rw [hc, Option.bind_some] at hu
          have hv := h.child t p i v ht (by omega) hc
          have hlen' : (p ++ [i]).length + q.length ≤ depth := by
            rw [List.length_append, List.length_singleton]
            omega
          rw [ih hv hu hlen', List.append_assoc, List.singleton_append]

/-- Walks that do not pass the slot at the end of the path `s` end at the same
entry. -/
theorem resolve_of_agreeOff (h : Unshared child E root depth owner)
    (hE : AgreeOffSlot owner t i E E') (ht : owner t = some s)
    (hu : owner u = some p) (hlen : p.length + q.length ≤ depth + 1)
    (hs : ¬ s ++ [i] <+: p ++ q) :
    resolve child E' u q = resolve child E u q := by
  induction q generalizing u p with
  | nil => rfl
  | cons j q ih =>
      have hj : E' u j = E u j := by
        refine hE u p j hu ?_
        rintro ⟨rfl, rfl⟩
        rw [hu] at ht
        exact hs ⟨q, by
          rw [← Option.some.inj ht, List.append_assoc, List.singleton_append]⟩
      cases q with
      | nil => rw [resolve, resolve, hj]
      | cons k q =>
          rw [List.length_cons, List.length_cons] at hlen
          rw [resolve, resolve, hj]
          cases hc : child (E u j) with
          | none => rfl
          | some v =>
              have hv := h.child u p j v hu (by omega) hc
              refine ih hv ?_ ?_
              · rw [List.length_append, List.length_singleton, List.length_cons]
                omega
              · rwa [List.append_assoc, List.singleton_append]

theorem resolve_congr_of_follow (hE : ∀ p t, p.length < q.length →
      follow child E u p = some t → ∀ i, E' t i = E t i) :
    resolve child E' u q = resolve child E u q := by
  induction q generalizing u with
  | nil => rfl
  | cons j q ih =>
      have hj : E' u j = E u j := hE [] u (by simp) rfl j
      cases q with
      | nil => rw [resolve, resolve, hj]
      | cons k q =>
          rw [resolve, resolve, hj]
          cases hc : child (E u j) with
          | none => rfl
          | some v =>
              refine ih fun p t hlen ht => hE (j :: p) t ?_ ?_
              · rw [List.length_cons, List.length_cons]
                omega
              · rw [follow, hc]
                exact ht

theorem resolve_congr (h : Unshared child E root depth owner)
    (hE : ∀ t p j, owner t = some p → E' t j = E t j) (hu : owner u = some p)
    (hlen : p.length + q.length ≤ depth + 1) :
    resolve child E' u q = resolve child E u q :=
  resolve_congr_of_follow fun r t hr ht i =>
    hE t (p ++ r) i (h.follow_owner hu ht (by omega))

theorem follow_of_agreeOff (h : Unshared child E root depth owner)
    (hE : AgreeOffSlot owner t i E E') (ht : owner t = some s)
    (hu : owner u = some p) (hlen : p.length + q.length ≤ depth)
    (hs : ¬ s ++ [i] <+: p ++ q) :
    follow child E' u q = follow child E u q := by
  induction q generalizing u p with
  | nil => rfl
  | cons j q ih =>
      rw [List.length_cons] at hlen
      have hj : E' u j = E u j := by
        refine hE u p j hu ?_
        rintro ⟨rfl, rfl⟩
        rw [hu] at ht
        exact hs ⟨q, by
          rw [← Option.some.inj ht, List.append_assoc, List.singleton_append]⟩
      rw [follow, follow, hj]
      cases hc : child (E u j) with
      | none => rfl
      | some v =>
          have hv := h.child u p j v hu (by omega) hc
          refine ih hv ?_ ?_
          · rw [List.length_append, List.length_singleton]
            omega
          · rwa [List.append_assoc, List.singleton_append]

theorem follow_of_slot (h : Unshared child E root depth owner)
    (hE : AgreeOffSlot owner t i E E')
    (ht : follow child E root p = some t) (hlen : p.length ≤ depth) :
    follow child E' root p = some t := by
  have howner := h.follow_owner h.root ht (by simpa using hlen)
  rw [← ht]
  refine follow_of_agreeOff h hE howner h.root (by simpa using hlen) ?_
  intro hpre
  have hle := hpre.length_le
  simp only [List.length_append, List.length_singleton, List.length_nil,
    Nat.zero_add] at hle
  omega

/-- An update of a slot that leads to no table keeps every walk between
tables. -/
theorem follow_of_child_eq_none (h : Unshared child E root depth owner)
    (hE : AgreeOffSlot owner t i E E') (ht : owner t = some p)
    (hp : follow child E root p = some t) (hi : child (E t i) = none)
    (hu : follow child E root q = some u) (hlen : q.length ≤ depth) :
    follow child E' root q = some u := by
  rw [← hu]
  refine follow_of_agreeOff h hE ht h.root (by simpa using hlen) fun hpre => ?_
  obtain ⟨r, rfl⟩ := hpre
  rw [follow_append, follow_snoc hp, hi] at hu
  exact absurd hu (by simp)

theorem resolve_of_slot (h : Unshared child E root depth owner)
    (hE : AgreeOffSlot owner t i E E')
    (ht : follow child E root p = some t) (hlen : p.length ≤ depth)
    (r : List ι) :
    resolve child E' root (p ++ [i] ++ r) = resolve child E' t (i :: r) := by
  rw [List.append_assoc, List.singleton_append]
  exact resolve_append (follow_of_slot h hE ht hlen) (by simp)

theorem resolve_of_child_eq_none (hc : child (E t i) = none) (r : List ι) :
    resolve child E t (i :: r) = some (E t i, r) := by
  cases r with
  | nil => rfl
  | cons j r => rw [resolve, hc]

/-- An update keeps the tables apart when the new entry leads to no table, or
lies too deep to lead to one. -/
theorem Unshared.set (h : Unshared child E root depth owner)
    (hE : AgreeOffSlot owner t i E E') (ht : owner t = some p)
    (hi : p.length < depth → child (E' t i) = none) :
    Unshared child E' root depth owner := by
  refine ⟨h.root, fun u q j v hu hlen hc => ?_⟩
  by_cases hslot : u = t ∧ j = i
  · obtain ⟨rfl, rfl⟩ := hslot
    rw [hu] at ht
    obtain rfl := Option.some.inj ht
    rw [hi hlen] at hc
    exact absurd hc (by simp)
  · rw [hE u q j hu hslot] at hc
    exact h.child u q j v hu hlen hc

theorem Unshared.link [DecidableEq F] (h : Unshared child E root depth owner)
    (hE : AgreeOffSlot owner t i E E') (ht : owner t = some p)
    (hu : owner u = none) (hi : child (E' t i) = some u)
    (hnew : ∀ j, child (E' u j) = none) :
    Unshared child E' root depth
      (Function.update owner u (some (p ++ [i]))) := by
  have hold : ∀ v q, owner v = some q →
      Function.update owner u (some (p ++ [i])) v = some q := by
    intro v q hv
    rw [Function.update_of_ne (by rintro rfl; simp [hu] at hv)]
    exact hv
  refine ⟨hold _ _ h.root, fun v q j w hv hlen hc => ?_⟩
  by_cases hnewv : v = u
  · rw [hnewv, hnew j] at hc
    exact absurd hc (by simp)
  rw [Function.update_of_ne hnewv] at hv
  by_cases hslot : v = t ∧ j = i
  · obtain ⟨rfl, rfl⟩ := hslot
    rw [hv] at ht
    obtain rfl := Option.some.inj ht
    rw [hi] at hc
    rw [← Option.some.inj hc, Function.update_self]
  · rw [hE v q j hv hslot] at hc
    exact hold _ _ (h.child v q j w hv hlen hc)

/-- Linking in a table of blank entries is not seen by readers who take every
blank entry for the same. -/
theorem resolve_link (h : Unshared child E root depth owner)
    (hE : AgreeOffSlot owner t i E E')
    (ht : follow child E root p = some t) (hlen : p.length < depth)
    {α : Type*} (read : Option (ε × List ι) → α) (blank : ε) (a : α)
    (hread : ∀ r, read (some (blank, r)) = a) (hblank : child blank = none)
    (hold : E t i = blank) (hi : child (E' t i) = some u)
    (hnew : ∀ j, E' u j = blank) (hq : q.length = depth + 1) :
    read (resolve child E' root q) = read (resolve child E root q) := by
  have howner := h.follow_owner h.root ht (by simpa using hlen.le)
  by_cases hpre : p ++ [i] <+: q
  · obtain ⟨r, rfl⟩ := hpre
    have hr : r ≠ [] := by
      rintro rfl
      simp only [List.append_nil, List.length_append,
        List.length_singleton] at hq
      omega
    obtain ⟨j, r, rfl⟩ := List.exists_cons_of_ne_nil hr
    have hbefore : resolve child E root (p ++ [i] ++ j :: r) =
        some (blank, j :: r) := by
      rw [List.append_assoc, resolve_append ht (by simp),
        List.singleton_append, resolve, hold, hblank]
    have hafter : resolve child E' root (p ++ [i] ++ j :: r) =
        some (blank, r) := by
      have hend := resolve_of_child_eq_none
        (show child (E' u j) = none by rw [hnew j, hblank]) r
      rw [resolve_of_slot h hE ht hlen.le, resolve, hi]
      rwa [hnew j] at hend
    rw [hbefore, hafter, hread, hread]
  · rw [resolve_of_agreeOff h hE howner h.root (by simpa using hq.le)
      (by simpa)]

end

end RadixTree
