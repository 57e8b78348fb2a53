import OptimistOS.Printutils.E9Print

/-!
# The end of a file name

`checkStringEndsWith` compares two strings backwards from their last characters,
and looks after each step whether a pointer is at the first character. That
character is then not compared any more, and a pointer that starts there leaves
its string. `checksEnd_iff` says for which strings this does not matter.
-/

namespace OptimistOS

open CString

/-- What `checkStringEndsWith` returns, and the places of `str` and of `end` that
it has read. -/
structure EndCheck where
  result : Bool
  strReads : List ℤ
  endReads : List ℤ

def EndCheck.read (i j : ℤ) (r : EndCheck) : EndCheck :=
  { r with strReads := i :: r.strReads, endReads := j :: r.endReads }

/-- The loop that moves a pointer to the NUL, with the places that it reads. -/
def seekNul (p : ℤ → Byte) : ℕ → ℤ → Option (ℤ × List ℤ)
  | 0, _ => none
  | fuel + 1, i =>
      if p i ≠ 0 then (seekNul p fuel (i + 1)).map fun r => (r.1, i :: r.2)
      else some (i, [i])

def compareEnds (str tail : ℤ → Byte) : ℕ → ℤ → ℤ → Option EndCheck
  | 0, _, _ => none
  | fuel + 1, i, j =>
      if str i ≠ tail j then some ⟨false, [i], [j]⟩
      else if j - 1 = 0 ∨ i - 1 = 0 ∧ j - 1 = 0 then some ⟨true, [i], [j]⟩
      else if i - 1 = 0 then some ⟨false, [i], [j]⟩
      else (compareEnds str tail fuel (i - 1) (j - 1)).map (EndCheck.read i j)

def checkStringEndsWith (str tail : ℤ → Byte) (fuel : ℕ) : Option EndCheck := do
  let (i, strReads) ← seekNul str fuel 0
  let (j, endReads) ← seekNul tail fuel 0
  let r ← compareEnds str tail fuel (i - 1) (j - 1)
  return ⟨r.result, strReads ++ r.strReads, endReads ++ r.endReads⟩

/-- `checkStringEndsWith` ends, says whether `e` is at the end of `s`, and reads
nothing in front of a string. -/
def ChecksEnd (str tail : ℤ → Byte) (s e : List Byte) : Prop :=
  ∃ fuel r, checkStringEndsWith str tail fuel = some r ∧
    (r.result = true ↔ e <:+ s) ∧
    (∀ i ∈ r.strReads, 0 ≤ i) ∧ ∀ j ∈ r.endReads, 0 ≤ j

variable {str tail p : ℤ → Byte} {fuel : ℕ} {i j : ℤ} {s e : List Byte} {a b : Byte}
  {r : EndCheck}

theorem EndCheck.mem_read : i ∈ (r.read i j).strReads ∧ j ∈ (r.read i j).endReads :=
  ⟨List.mem_cons_self, List.mem_cons_self⟩

theorem seekNul_spec (h : StringAt p i s) {x : ℤ × List ℤ}
    (hrun : seekNul p fuel i = some x) :
    x.1 = i + s.length ∧ ∀ j ∈ x.2, i ≤ j := by
  induction s generalizing i fuel x with
  | nil =>
      cases fuel with
      | zero => exact absurd hrun (by simp [seekNul])
      | succ fuel =>
          rw [seekNul, if_neg (not_not.2 (stringAt_nil.1 h))] at hrun
          obtain rfl := Option.some.inj hrun
          exact ⟨by simp, by simp⟩
  | cons c s ih =>
      obtain ⟨rfl, hne, htail⟩ := h
      cases fuel with
      | zero => exact absurd hrun (by simp [seekNul])
      | succ fuel =>
          rw [seekNul, if_pos hne] at hrun
          obtain ⟨y, hy, rfl⟩ := Option.map_eq_some_iff.1 hrun
          obtain ⟨hend, hreads⟩ := ih htail hy
          refine ⟨?_, ?_⟩
          · rw [hend, List.length_cons]
            omega
          · rintro j (_ | ⟨_, hj⟩)
            · exact le_rfl
            · have hj' := hreads j hj
              omega

theorem seekNul_ends (h : StringAt p i s) (hfuel : s.length < fuel) :
    ∃ x, seekNul p fuel i = some x := by
  induction s generalizing i fuel with
  | nil =>
      obtain ⟨fuel, rfl⟩ : ∃ m, fuel = m + 1 := ⟨fuel - 1, by omega⟩
      exact ⟨_, if_neg (not_not.2 (stringAt_nil.1 h))⟩
  | cons c s ih =>
      obtain ⟨fuel, rfl⟩ : ∃ m, fuel = m + 1 := ⟨fuel - 1, by omega⟩
      obtain ⟨rfl, hne, htail⟩ := h
      obtain ⟨x, hx⟩ := ih htail (Nat.lt_of_succ_lt_succ hfuel)
      exact ⟨_, by rw [seekNul, if_pos hne, hx, Option.map_some]⟩

theorem mem_reads_compareEnds (h : compareEnds str tail fuel i j = some r) :
    i ∈ r.strReads ∧ j ∈ r.endReads := by
  cases fuel with
  | zero => exact absurd h (by simp [compareEnds])
  | succ fuel =>
      rw [compareEnds] at h
      split_ifs at h
      · obtain rfl := Option.some.inj h
        exact ⟨List.mem_singleton_self i, List.mem_singleton_self j⟩
      · obtain rfl := Option.some.inj h
        exact ⟨List.mem_singleton_self i, List.mem_singleton_self j⟩
      · obtain rfl := Option.some.inj h
        exact ⟨List.mem_singleton_self i, List.mem_singleton_self j⟩
      · obtain ⟨_, -, rfl⟩ := Option.map_eq_some_iff.1 h
        exact EndCheck.mem_read

theorem compareEnds_ends {n : ℕ} (hn : 0 < n) (hfuel : n ≤ fuel) (i : ℤ) :
    ∃ r, compareEnds str tail fuel i n = some r := by
  induction n generalizing i fuel with
  | zero => omega
  | succ n ih =>
      obtain ⟨fuel, rfl⟩ : ∃ m, fuel = m + 1 := ⟨fuel - 1, by omega⟩
      rw [compareEnds]
      split_ifs with hne hend hstart
      · exact ⟨_, rfl⟩
      · exact ⟨_, rfl⟩
      · exact ⟨_, rfl⟩
      · have hpos : 0 < n := by omega
        obtain ⟨r, hr⟩ := ih hpos (show n ≤ fuel by omega) (i - 1)
        rw [show ((n + 1 : ℕ) : ℤ) - 1 = n by omega, hr]
        exact ⟨_, rfl⟩

def Spells (p : ℤ → Byte) (s : List Byte) : Prop :=
  ∀ k (h : k < s.length), p (k + 1) = s[k]

theorem spells_of_stringAt (h : StringAt p 1 s) : Spells p s := by
  intro k hk
  rw [add_comm]
  exact h.apply_getElem hk

theorem Spells.of_concat (h : Spells p (s ++ [a])) :
    Spells p s ∧ p (s.length + 1) = a := by
  refine ⟨fun k hk => ?_, ?_⟩
  · rw [h k (by rw [List.length_append]; omega), List.getElem_append_left hk]
  · rw [h s.length (by simp), List.getElem_concat_length rfl]

theorem length_concat (s : List Byte) (a : Byte) :
    ((s ++ [a]).length : ℤ) = s.length + 1 := by
  rw [List.length_append, List.length_singleton, Nat.cast_add, Nat.cast_one]

theorem concat_suffix_concat :
    e ++ [b] <:+ s ++ [a] ↔ b = a ∧ e <:+ s := by
  rw [List.suffix_concat_iff]
  constructor
  · rintro (h | ⟨t, h, hsuffix⟩)
    · exact absurd h (by simp)
    · obtain ⟨rfl, hb⟩ := List.append_inj' h rfl
      exact ⟨List.singleton_inj.1 hb, hsuffix⟩
  · rintro ⟨rfl, hsuffix⟩
    exact Or.inr ⟨e, rfl, hsuffix⟩

/-- Behind the first characters the comparison is right. -/
theorem compareEnds_spec (hs : Spells str s) (he : Spells tail e)
    (hs0 : s ≠ []) (he0 : e ≠ [])
    (h : compareEnds str tail fuel s.length e.length = some r) :
    (r.result = true ↔ e <:+ s) ∧
      (∀ i ∈ r.strReads, 0 ≤ i) ∧ ∀ j ∈ r.endReads, 0 ≤ j := by
  induction fuel generalizing s e r with
  | zero => exact absurd h (by simp [compareEnds])
  | succ fuel ih =>
      obtain rfl | ⟨s, a, rfl⟩ := List.eq_nil_or_concat' s
      · exact absurd rfl hs0
      obtain rfl | ⟨e, b, rfl⟩ := List.eq_nil_or_concat' e
      · exact absurd rfl he0
      obtain ⟨hs, ha⟩ := hs.of_concat
      obtain ⟨he, hb⟩ := he.of_concat
      have hread : ∀ n : ℕ, ∀ i ∈ [((n : ℤ) + 1)], 0 ≤ i := by
        intro n i hi
        rw [List.mem_singleton.1 hi]
        omega
      rw [length_concat, length_concat, compareEnds, ha, hb,
        add_sub_cancel_right, add_sub_cancel_right] at h
      rw [concat_suffix_concat]
      split_ifs at h with hne hend hstart
      · obtain rfl := Option.some.inj h
        exact ⟨iff_of_false Bool.false_ne_true fun h => hne h.1.symm, hread _,
          hread _⟩
      · obtain rfl := Option.some.inj h
        obtain rfl : e = [] := List.eq_nil_of_length_eq_zero (by omega)
        exact ⟨iff_of_true rfl ⟨(not_not.1 hne).symm, List.nil_suffix⟩, hread _,
          hread _⟩
      · obtain rfl := Option.some.inj h
        obtain rfl : s = [] := List.eq_nil_of_length_eq_zero (by omega)
        refine ⟨iff_of_false Bool.false_ne_true fun h => hend (Or.inl ?_),
          hread _, hread _⟩
        rw [List.suffix_nil.1 h.2]
        rfl
      · obtain ⟨r', hr', rfl⟩ := Option.map_eq_some_iff.1 h
        have hs0' : s ≠ [] := by
          rintro rfl
          exact hstart rfl
        have he0' : e ≠ [] := by
          rintro rfl
          exact hend (Or.inl rfl)
        obtain ⟨hresult, hstr, htail⟩ := ih hs he hs0' he0' hr'
        refine ⟨hresult.trans (iff_and_self.2 fun _ => (not_not.1 hne).symm), ?_,
          ?_⟩
        · rintro i (_ | ⟨_, hi⟩)
          · omega
          · exact hstr i hi
        · rintro j (_ | ⟨_, hj⟩)
          · omega
          · exact htail j hj

theorem compareEnds_of_check (hs : StringAt str 0 (a :: s))
    (he : StringAt tail 0 (b :: e))
    (h : checkStringEndsWith str tail fuel = some r) :
    ∃ r', compareEnds str tail fuel s.length e.length = some r' ∧
      r.result = r'.result ∧
      ((∀ i ∈ r.strReads, 0 ≤ i) ↔ ∀ i ∈ r'.strReads, 0 ≤ i) ∧
      ((∀ j ∈ r.endReads, 0 ≤ j) ↔ ∀ j ∈ r'.endReads, 0 ≤ j) := by
  rw [checkStringEndsWith] at h
  simp only [Option.bind_eq_bind, Option.bind_eq_some_iff] at h
  obtain ⟨x, hx, y, hy, r', hr', hr⟩ := h
  obtain rfl := Option.some.inj hr
  obtain ⟨hi, hstr⟩ := seekNul_spec hs hx
  obtain ⟨hj, htail⟩ := seekNul_spec he hy
  rw [hi, hj, List.length_cons, List.length_cons, zero_add, zero_add,
    Nat.cast_succ, Nat.cast_succ, add_sub_cancel_right,
    add_sub_cancel_right] at hr'
  refine ⟨r', hr', rfl, ?_, ?_⟩
  · simp only [List.forall_mem_append]
    exact and_iff_right hstr
  · simp only [List.forall_mem_append]
    exact and_iff_right htail

theorem check_of_compareEnds (hs : StringAt str 0 (a :: s))
    (he : StringAt tail 0 (b :: e)) (hsf : (a :: s).length < fuel)
    (hef : (b :: e).length < fuel)
    (h : compareEnds str tail fuel s.length e.length = some r) :
    ∃ r', checkStringEndsWith str tail fuel = some r' := by
  obtain ⟨x, hx⟩ := seekNul_ends hs hsf
  obtain ⟨y, hy⟩ := seekNul_ends he hef
  have hi := (seekNul_spec hs hx).1
  have hj := (seekNul_spec he hy).1
  refine ⟨⟨r.result, x.2 ++ r.strReads, y.2 ++ r.endReads⟩, ?_⟩
  rw [checkStringEndsWith]
  simp only [Option.bind_eq_bind]
  rw [hx, hy, Option.bind_some, Option.bind_some, hi, hj, List.length_cons,
    List.length_cons, zero_add, zero_add, Nat.cast_succ, Nat.cast_succ,
    add_sub_cancel_right, add_sub_cancel_right, h, Option.bind_some]
  rfl

/-- The last characters differ, or both strings have more than one character and
their first characters do not matter. -/
def EndsCompared (s e : List Byte) : Prop :=
  s.getLast? ≠ e.getLast? ∨
    2 ≤ s.length ∧ 2 ≤ e.length ∧ (e.tail <:+ s.tail → e <:+ s)

theorem getLast?_eq (h : StringAt p 0 (a :: s)) :
    (a :: s).getLast? = some (p s.length) := by
  have hlast := h.apply_getElem (show s.length < (a :: s).length by simp)
  rw [zero_add] at hlast
  rw [List.getLast?_eq_getElem?, List.length_cons, Nat.add_sub_cancel,
    List.getElem?_eq_getElem (by simp), hlast]

theorem getLast?_of_suffix (he : e ≠ []) (h : e <:+ s) :
    s.getLast? = e.getLast? := by
  obtain ⟨t, rfl⟩ := h
  rw [List.getLast?_append, List.getLast?_eq_some_getLast he, Option.some_or]

theorem suffix_of_cons_suffix_cons (h : b :: e <:+ a :: s) : e <:+ s := by
  rcases List.suffix_cons_iff.1 h with heq | h
  · rw [(List.cons.inj heq).2]
  · exact (List.suffix_cons b e).trans h

section

variable (hs : StringAt str 0 (a :: s)) (he : StringAt tail 0 (b :: e))

include hs he

theorem ChecksEnd.of_compareEnds {n : ℕ}
    (hends : ∀ fuel, n ≤ fuel →
      ∃ r, compareEnds str tail fuel s.length e.length = some r)
    (hright : ∀ fuel r, compareEnds str tail fuel s.length e.length = some r →
      (r.result = true ↔ b :: e <:+ a :: s) ∧
        (∀ i ∈ r.strReads, 0 ≤ i) ∧ ∀ j ∈ r.endReads, 0 ≤ j) :
    ChecksEnd str tail (a :: s) (b :: e) := by
  obtain ⟨r, hr⟩ := hends
    (max n (max ((a :: s).length + 1) ((b :: e).length + 1))) (by omega)
  obtain ⟨r', hr'⟩ := check_of_compareEnds hs he (by omega) (by omega) hr
  obtain ⟨r₁, hr₁, hresult, hstr, htail⟩ := compareEnds_of_check hs he hr'
  obtain ⟨hiff, hstr₁, htail₁⟩ := hright _ _ hr₁
  exact ⟨_, r', hr', hresult ▸ hiff, hstr.2 hstr₁, htail.2 htail₁⟩

theorem checksEnd_iff_of_ne_nil (hs0 : s ≠ []) (he0 : e ≠ []) :
    ChecksEnd str tail (a :: s) (b :: e) ↔ (e <:+ s → b :: e <:+ a :: s) := by
  have hspec : ∀ {fuel r},
      compareEnds str tail fuel s.length e.length = some r → _ :=
    fun h => compareEnds_spec (spells_of_stringAt hs.2.2)
      (spells_of_stringAt he.2.2) hs0 he0 h
  constructor
  · rintro ⟨fuel, r, hrun, hresult, -⟩ hsuffix
    obtain ⟨r', hr', heq, -⟩ := compareEnds_of_check hs he hrun
    exact hresult.1 (heq ▸ (hspec hr').1.2 hsuffix)
  · intro h
    refine ChecksEnd.of_compareEnds hs he (fun fuel hfuel => compareEnds_ends
      (List.length_pos_iff.2 he0) hfuel _) fun fuel r hr => ?_
    exact ⟨(hspec hr).1.trans ⟨h, suffix_of_cons_suffix_cons⟩, (hspec hr).2⟩

theorem checksEnd_of_getLast?_ne
    (hne : (a :: s).getLast? ≠ (b :: e).getLast?) :
    ChecksEnd str tail (a :: s) (b :: e) := by
  have hlast : str s.length ≠ tail e.length := by
    rwa [getLast?_eq hs, getLast?_eq he, ne_eq, Option.some_inj] at hne
  refine ChecksEnd.of_compareEnds hs he (n := 1) (fun fuel hfuel => ?_)
    fun fuel r hr => ?_
  · obtain ⟨fuel, rfl⟩ : ∃ m, fuel = m + 1 := ⟨fuel - 1, by omega⟩
    exact ⟨_, if_pos hlast⟩
  · cases fuel with
    | zero => exact absurd hr (by simp [compareEnds])
    | succ fuel =>
        rw [compareEnds, if_pos hlast] at hr
        obtain rfl := Option.some.inj hr
        refine ⟨iff_of_false Bool.false_ne_true fun h =>
          hne (getLast?_of_suffix (List.cons_ne_nil b e) h), by simp, by simp⟩

/-- A string of one character, which is also the last one of the other. -/
theorem not_checksEnd (heq : (a :: s).getLast? = (b :: e).getLast?)
    (hone : s = [] ∨ e = []) : ¬ ChecksEnd str tail (a :: s) (b :: e) := by
  have hlast : str s.length = tail e.length := by
    rwa [getLast?_eq hs, getLast?_eq he, Option.some_inj] at heq
  rintro ⟨fuel, r, hrun, hresult, hstr, htail⟩
  obtain ⟨r', hr', hsame, hstr', htail'⟩ := compareEnds_of_check hs he hrun
  rw [hsame] at hresult
  have hstr := hstr'.1 hstr
  have htail := htail'.1 htail
  cases fuel with
  | zero => exact absurd hr' (by simp [compareEnds])
  | succ fuel =>
      rw [compareEnds, if_neg (not_not.2 hlast)] at hr'
      split_ifs at hr' with hend hstart
      · -- `end` has two characters and `str` has one
        obtain rfl := Option.some.inj hr'
        have hlength : e.length = 1 := by omega
        obtain rfl := hone.resolve_right (by
          rintro rfl
          exact absurd hlength (by simp))
        have hle := (hresult.1 rfl).length_le
        simp only [List.length_cons, List.length_nil] at hle
        omega
      · -- `str` has two characters and `end` has one
        obtain rfl := Option.some.inj hr'
        have hlength : s.length = 1 := by omega
        obtain rfl := hone.resolve_left (by
          rintro rfl
          exact absurd hlength (by simp))
        obtain ⟨t, ht⟩ := List.getLast?_eq_some_iff.1 heq
        exact Bool.false_ne_true (hresult.2 ⟨t, ht.symm⟩)
      · obtain ⟨r₁, hr₁, rfl⟩ := Option.map_eq_some_iff.1 hr'
        obtain ⟨hi, hj⟩ := mem_reads_compareEnds hr₁
        have hi' := hstr _ (.tail _ hi)
        have hj' := htail _ (.tail _ hj)
        rcases hone with rfl | rfl
        · simp only [List.length_nil] at hi'
          omega
        · simp only [List.length_nil] at hj'
          omega

end

/-- `checkStringEndsWith` is right exactly if the last characters of its strings
differ, or both have more than one and the first ones do not matter. -/
theorem checksEnd_iff (hs : StringAt str 0 s) (he : StringAt tail 0 e)
    (hs0 : s ≠ []) (he0 : e ≠ []) :
    ChecksEnd str tail s e ↔ EndsCompared s e := by
  obtain ⟨a, s, rfl⟩ := List.exists_cons_of_ne_nil hs0
  obtain ⟨b, e, rfl⟩ := List.exists_cons_of_ne_nil he0
  by_cases heq : (a :: s).getLast? = (b :: e).getLast?
  · rw [EndsCompared, or_iff_right (not_not.2 heq)]
    by_cases hone : s = [] ∨ e = []
    · refine iff_of_false (not_checksEnd hs he heq hone) ?_
      rintro ⟨hs2, he2, -⟩
      rcases hone with rfl | rfl
      · exact absurd hs2 (by simp)
      · exact absurd he2 (by simp)
    · obtain ⟨hs1, he1⟩ := not_or.1 hone
      have hspos := List.length_pos_iff.2 hs1
      have hepos := List.length_pos_iff.2 he1
      rw [checksEnd_iff_of_ne_nil hs he hs1 he1, List.tail_cons, List.tail_cons,
        List.length_cons, List.length_cons, and_iff_right (by omega),
        and_iff_right (by omega)]
  · exact iff_of_true (checksEnd_of_getLast?_ne hs he heq) (Or.inl heq)

/-- A font file by its name. -/
theorem checksEnd_iff_font :
    ChecksEnd (literal ("/zap.psf".toList.map ascii))
      (literal (".psf".toList.map ascii)) ("/zap.psf".toList.map ascii)
      (".psf".toList.map ascii) :=
  (checksEnd_iff (stringAt_literal (by decide)) (stringAt_literal (by decide))
    (by decide) (by decide)).2 (Or.inr (by decide))

/-- `xpsf` passes for `.psf`. -/
theorem exists_not_checksEnd :
    ∃ (str tail : ℤ → Byte) (s e : List Byte), StringAt str 0 s ∧
      StringAt tail 0 e ∧ s ≠ [] ∧ e ≠ [] ∧ ¬ ChecksEnd str tail s e := by
  have hs : StringAt (literal ("xpsf".toList.map ascii)) 0
      ("xpsf".toList.map ascii) := stringAt_literal (by decide)
  have he : StringAt (literal (".psf".toList.map ascii)) 0
      (".psf".toList.map ascii) := stringAt_literal (by decide)
  refine ⟨_, _, _, _, hs, he, by decide, by decide, fun h => ?_⟩
  have hsuffix := (checksEnd_iff_of_ne_nil hs he (List.cons_ne_nil _ _)
    (List.cons_ne_nil _ _)).1 h List.suffix_rfl
  revert hsuffix
  decide

end OptimistOS
