import OptimistOS.Printutils.E9Print

/-!
# Formatted printing

`e9_printf` steps over the character behind a `%` without a look at what it is.
A `%` at the end of the format makes it step over the NUL, and go on with what is
behind the format. All other formats are printed as they should
(`printsFormat_iff`).
-/

namespace OptimistOS

open CString

inductive Argument
  | num (n : Word)
  | str (msg : ℤ → Byte)

/-- The character `c` behind a `%`. It takes its argument with `va_arg`, for
which there is no result without an argument of the right kind. -/
def conversion (stack : ℤ → Byte) (fuel : ℕ) (c : Byte) (args : List Argument)
    (k : Console) : Option (List Argument × Console) :=
  if c = ascii 'x' then
    match args with
    | .num n :: args => (e9Printhex stack fuel n k).map fun r => (args, r.1)
    | _ => none
  else if c = ascii 'd' then
    match args with
    | .num n :: args => (e9Printdec stack fuel n k).map fun r => (args, r.1)
    | _ => none
  else if c = ascii 's' then
    match args with
    | .str msg :: args => (e9Print msg fuel 0 k).map fun k => (args, k)
    | _ => none
  else some (args, k)

/-- `e9_printf`, from the place `i` of the format on, with the places of the
format that are read. `stack i` is what a call that is made there finds on the
stack. -/
def e9Printf (stack : ℤ → ℤ → Byte) (format : ℤ → Byte) :
    ℕ → ℤ → List Argument → Console → Option (Console × List ℤ)
  | 0, _, _, _ => none
  | fuel + 1, i, args, k =>
      if format i = 0 then some (k, [i])
      else if format i = ascii '%' then do
        let (args, k) ← conversion (stack i) fuel (format (i + 1)) args k
        let r ← e9Printf stack format fuel (i + 2) args k
        return (r.1, i :: (i + 1) :: r.2)
      else do
        let r ← e9Printf stack format fuel (i + 1) args (e9Putc (format i) k)
        return (r.1, i :: r.2)

inductive Converts : Byte → List Argument → List Byte → List Argument → Prop
  | hex (n : Word) (args : List Argument) :
      Converts (ascii 'x') (.num n :: args)
        ("0x".toList.map ascii ++ numeral 16 n.toNat) args
  | dec (n : Word) (args : List Argument) :
      Converts (ascii 'd') (.num n :: args) (numeral 10 n.toNat) args
  | str {msg : ℤ → Byte} {s : List Byte} (hs : StringAt msg 0 s)
      (args : List Argument) : Converts (ascii 's') (.str msg :: args) s args
  | other {c : Byte} (hx : c ≠ ascii 'x') (hd : c ≠ ascii 'd')
      (hs : c ≠ ascii 's') (args : List Argument) : Converts c args [] args

/-- What a format stands for. There may be more arguments than conversions. A `%`
at the end is none. -/
inductive Formats : List Byte → List Argument → List Byte → Prop
  | nil (args : List Argument) : Formats [] args []
  | percent (args : List Argument) : Formats [ascii '%'] args [ascii '%']
  | char {c : Byte} {text out : List Byte} {args : List Argument}
      (hc : c ≠ ascii '%') (htext : Formats text args out) :
      Formats (c :: text) args (c :: out)
  | conversion {c : Byte} {text out rest : List Byte} {args args' : List Argument}
      (hc : Converts c args out args') (htext : Formats text args' rest) :
      Formats (ascii '%' :: c :: text) args (out ++ rest)

/-- No `%` is left over at the end of a format. -/
def Complete : List Byte → Prop
  | [] => True
  | [c] => c ≠ ascii '%'
  | c :: d :: text => if c = ascii '%' then Complete text else Complete (d :: text)

instance decidableComplete : (text : List Byte) → Decidable (Complete text)
  | [] => inferInstanceAs (Decidable True)
  | [c] => inferInstanceAs (Decidable (c ≠ ascii '%'))
  | c :: d :: text =>
      have := decidableComplete text
      have := decidableComplete (d :: text)
      inferInstanceAs (Decidable
        (if c = ascii '%' then Complete text else Complete (d :: text)))

/-- `e9_printf` ends, reads no more than the format and its NUL, and prints
`out`. -/
def PrintsFormat (stack : ℤ → ℤ → Byte) (format : ℤ → Byte) (text : List Byte)
    (args : List Argument) (out : List Byte) (k : Console) : Prop :=
  ∃ fuel reads, e9Printf stack format fuel 0 args k = some (k.write out, reads) ∧
    ∀ j ∈ reads, j ≤ text.length

variable {stack : ℤ → ℤ → Byte} {format : ℤ → Byte} {fuel : ℕ} {i : ℤ} {c : Byte}
  {text out : List Byte} {args args' : List Argument} {k k' : Console}
  {r : Console × List ℤ}

theorem complete_cons (hc : c ≠ ascii '%') :
    Complete (c :: text) ↔ Complete text := by
  cases text with
  | nil => exact iff_of_true hc trivial
  | cons d text => rw [Complete, if_neg hc]

theorem complete_percent :
    Complete (ascii '%' :: c :: text) ↔ Complete text := by
  rw [Complete, if_pos rfl]

theorem conversion_other {stack : ℤ → Byte} (hx : c ≠ ascii 'x')
    (hd : c ≠ ascii 'd') (hs : c ≠ ascii 's') :
    conversion stack fuel c args k = some (args, k) := by
  unfold conversion
  rw [if_neg hx, if_neg hd, if_neg hs]

theorem Converts.prints (h : Converts c args out args') (stack : ℤ → Byte) :
    ∃ n, ∀ fuel, n ≤ fuel → ∀ k,
      conversion stack fuel c args k = some (args', k.write out) := by
  cases h with
  | hex n _ =>
      refine ⟨17, fun fuel hfuel k => ?_⟩
      obtain ⟨_, hprint, -⟩ := printsDigits_e9Printhex stack hfuel n k
      rw [conversion, if_pos rfl]
      simp only [hprint, Option.map_some]
  | dec n _ =>
      refine ⟨21, fun fuel hfuel k => ?_⟩
      obtain ⟨_, hprint, -⟩ := printsDigits_e9Printdec stack hfuel n k
      rw [conversion, if_neg (by decide), if_pos rfl]
      simp only [hprint, Option.map_some]
  | @str msg s hs _ =>
      refine ⟨out.length + 1, fun fuel hfuel k => ?_⟩
      rw [conversion, if_neg (by decide), if_neg (by decide), if_pos rfl]
      simp only [e9Print_of_stringAt hs hfuel, Option.map_some]
  | other hx hd hs _ =>
      refine ⟨0, fun fuel _ k => ?_⟩
      rw [conversion_other hx hd hs, Console.write_nil]

theorem Converts.takes (h : Converts c args out args') {stack : ℤ → Byte}
    {rest : List Argument} (hconv : conversion stack fuel c args k =
      some (rest, k')) : rest = args' := by
  cases h with
  | hex n _ =>
      rw [conversion, if_pos rfl, Option.map_eq_some_iff] at hconv
      obtain ⟨_, -, hr⟩ := hconv
      exact (congrArg Prod.fst hr).symm
  | dec n _ =>
      rw [conversion, if_neg (by decide), if_pos rfl,
        Option.map_eq_some_iff] at hconv
      obtain ⟨_, -, hr⟩ := hconv
      exact (congrArg Prod.fst hr).symm
  | str hs _ =>
      rw [conversion, if_neg (by decide), if_neg (by decide), if_pos rfl,
        Option.map_eq_some_iff] at hconv
      obtain ⟨_, -, hr⟩ := hconv
      exact (congrArg Prod.fst hr).symm
  | other hx hd hs _ =>
      rw [conversion_other hx hd hs] at hconv
      exact (congrArg Prod.fst (Option.some.inj hconv)).symm

theorem e9Printf_char (hzero : format i ≠ 0) (hc : format i ≠ ascii '%') :
    e9Printf stack format (fuel + 1) i args k =
      (e9Printf stack format fuel (i + 1) args (k.write [format i])).map
        fun r => (r.1, i :: r.2) := by
  rw [e9Printf, if_neg hzero, if_neg hc, e9Putc_eq]
  cases e9Printf stack format fuel (i + 1) args (k.write [format i]) <;> rfl

theorem e9Printf_percent (hc : format i = ascii '%')
    (hconv : conversion (stack i) fuel (format (i + 1)) args k =
      some (args', k')) :
    e9Printf stack format (fuel + 1) i args k =
      (e9Printf stack format fuel (i + 2) args' k').map
        fun r => (r.1, i :: (i + 1) :: r.2) := by
  rw [e9Printf, if_neg (hc ▸ by decide), if_pos hc, hconv]
  simp only [Option.bind_eq_bind, Option.bind_some]
  cases e9Printf stack format fuel (i + 2) args' k' <;> rfl

theorem e9Printf_percent_eq_some (hc : format i = ascii '%')
    (h : e9Printf stack format (fuel + 1) i args k = some r) :
    ∃ args' k' r', conversion (stack i) fuel (format (i + 1)) args k =
        some (args', k') ∧
      e9Printf stack format fuel (i + 2) args' k' = some r' ∧
      r.2 = i :: (i + 1) :: r'.2 := by
  cases hconv : conversion (stack i) fuel (format (i + 1)) args k with
  | none =>
      rw [e9Printf, if_neg (hc ▸ by decide), if_pos hc, hconv] at h
      exact absurd h (by simp)
  | some a =>
      rw [e9Printf_percent hc hconv, Option.map_eq_some_iff] at h
      obtain ⟨r', hr', rfl⟩ := h
      exact ⟨a.1, a.2, r', rfl, hr', rfl⟩

theorem mem_reads_e9Printf (h : e9Printf stack format fuel i args k = some r) :
    i ∈ r.2 := by
  cases fuel with
  | zero => exact absurd h (by simp [e9Printf])
  | succ fuel =>
      by_cases hzero : format i = 0
      · rw [e9Printf, if_pos hzero] at h
        obtain rfl := Option.some.inj h
        exact List.mem_singleton_self i
      by_cases hc : format i = ascii '%'
      · obtain ⟨_, _, _, -, -, hr⟩ := e9Printf_percent_eq_some hc h
        rw [hr]
        exact List.mem_cons_self
      · rw [e9Printf_char hzero hc, Option.map_eq_some_iff] at h
        obtain ⟨_, -, rfl⟩ := h
        exact List.mem_cons_self

/-- Without a `%` at the end the scanner ends at the NUL. -/
theorem Formats.prints (h : Formats text args out) (hcomplete : Complete text)
    (hformat : StringAt format i text) (stack : ℤ → ℤ → Byte) :
    ∃ n, ∀ fuel, n ≤ fuel → ∀ k, ∃ reads,
      e9Printf stack format fuel i args k = some (k.write out, reads) ∧
        ∀ j ∈ reads, j ≤ i + text.length := by
  induction h generalizing i with
  | nil args =>
      refine ⟨1, fun fuel hfuel k => ⟨[i], ?_, by simp⟩⟩
      obtain ⟨fuel, rfl⟩ : ∃ m, fuel = m + 1 := ⟨fuel - 1, by omega⟩
      rw [e9Printf, if_pos (stringAt_nil.1 hformat), Console.write_nil]
  | percent args => exact absurd rfl hcomplete
  | @char c text out args hc _ ih =>
      obtain ⟨rfl, hzero, htail⟩ := hformat
      obtain ⟨n, hn⟩ := ih ((complete_cons hc).1 hcomplete) htail
      refine ⟨n + 1, fun fuel hfuel k => ?_⟩
      obtain ⟨fuel, rfl⟩ : ∃ m, fuel = m + 1 := ⟨fuel - 1, by omega⟩
      obtain ⟨reads, hrun, hreads⟩ := hn fuel (by omega) (k.write [format i])
      refine ⟨i :: reads, ?_, ?_⟩
      · rw [e9Printf_char hzero hc, hrun, Option.map_some,
          ← Console.write_append, List.singleton_append]
      · rw [List.length_cons]
        rintro j (_ | ⟨_, hj⟩)
        · omega
        · have hj' := hreads j hj
          omega
  | @conversion c text out rest args args' hconv _ ih =>
      obtain ⟨hc, -, hd, -, htail⟩ := hformat
      rw [add_assoc] at htail
      obtain ⟨n, hn⟩ := ih (complete_percent.1 hcomplete) htail
      obtain ⟨m, hm⟩ := hconv.prints (stack i)
      refine ⟨max m n + 1, fun fuel hfuel k => ?_⟩
      obtain ⟨fuel, rfl⟩ : ∃ m, fuel = m + 1 := ⟨fuel - 1, by omega⟩
      obtain ⟨reads, hrun, hreads⟩ := hn fuel (by omega) (k.write out)
      have hprint := hm fuel (by omega) k
      rw [← hd] at hprint
      refine ⟨i :: (i + 1) :: reads, ?_, ?_⟩
      · rw [e9Printf_percent hc hprint, show i + 2 = i + (1 + 1) from rfl, hrun,
          Option.map_some, ← Console.write_append]
      · rw [List.length_cons, List.length_cons]
        rintro j (_ | ⟨_, _ | ⟨_, hj⟩⟩)
        · omega
        · omega
        · have hj' := hreads j hj
          omega

/-- A `%` at the end makes the scanner read behind the NUL. -/
theorem Formats.reads_behind (h : Formats text args out)
    (hcomplete : ¬ Complete text) (hformat : StringAt format i text)
    (hrun : e9Printf stack format fuel i args k = some r) :
    i + text.length + 1 ∈ r.2 := by
  induction h generalizing i fuel k r with
  | nil args => exact absurd trivial hcomplete
  | percent args =>
      obtain ⟨hc, -, hend⟩ := hformat
      cases fuel with
      | zero => exact absurd hrun (by simp [e9Printf])
      | succ fuel =>
          obtain ⟨_, _, r', -, hrest, hr⟩ := e9Printf_percent_eq_some hc hrun
          rw [hr, show i + ([ascii '%'] : List Byte).length + 1 = i + 2 by
            simp
            omega]
          exact .tail _ (.tail _ (mem_reads_e9Printf hrest))
  | @char c text out args hc _ ih =>
      obtain ⟨rfl, hzero, htail⟩ := hformat
      cases fuel with
      | zero => exact absurd hrun (by simp [e9Printf])
      | succ fuel =>
          rw [e9Printf_char hzero hc, Option.map_eq_some_iff] at hrun
          obtain ⟨r', hrest, rfl⟩ := hrun
          have hmem := ih (mt (complete_cons hc).2 hcomplete) htail hrest
          rw [List.length_cons, show i + ((text.length + 1 : ℕ) : ℤ) + 1 =
            i + 1 + text.length + 1 by omega]
          exact .tail _ hmem
  | @conversion c text out rest args args' hconv _ ih =>
      obtain ⟨hc, -, hd, -, htail⟩ := hformat
      cases fuel with
      | zero => exact absurd hrun (by simp [e9Printf])
      | succ fuel =>
          obtain ⟨_, _, r', htaken, hrest, hr⟩ :=
            e9Printf_percent_eq_some hc hrun
          rw [hd] at htaken
          obtain rfl := hconv.takes htaken
          rw [add_assoc] at htail
          have hmem := ih (mt complete_percent.2 hcomplete) htail hrest
          rw [hr, List.length_cons, List.length_cons,
            show i + ((text.length + 1 + 1 : ℕ) : ℤ) + 1 =
              i + (1 + 1) + text.length + 1 by omega]
          exact .tail _ (.tail _ hmem)

/-- `e9_printf` prints what its format stands for exactly if no `%` is left over
at the end. -/
theorem printsFormat_iff (stack : ℤ → ℤ → Byte) (hformat : StringAt format 0 text)
    (h : Formats text args out) (k : Console) :
    PrintsFormat stack format text args out k ↔ Complete text := by
  constructor
  · rintro ⟨fuel, reads, hrun, hreads⟩
    by_contra hcomplete
    have hle := hreads _ (h.reads_behind hcomplete hformat hrun)
    omega
  · intro hcomplete
    obtain ⟨n, hn⟩ := h.prints hcomplete hformat stack
    obtain ⟨reads, hrun, hreads⟩ := hn n le_rfl k
    exact ⟨n, reads, hrun, fun j hj => (hreads j hj).trans (by omega)⟩

def portOnly : Console :=
  ⟨false, [], []⟩

/-- The format `%d!`. -/
theorem printsFormat_iff_dec :
    PrintsFormat (fun _ _ => 0) (literal ("%d!".toList.map ascii))
      ("%d!".toList.map ascii) [.num 42] ("42!".toList.map ascii) portOnly :=
  (printsFormat_iff _ (stringAt_literal (by decide))
    (.conversion (.dec 42 []) (.char (by decide) (.nil []))) portOnly).2 (by
      decide)

/-- The format `%`. -/
theorem exists_not_printsFormat :
    ∃ (format : ℤ → Byte) (text : List Byte) (args : List Argument)
      (out : List Byte), StringAt format 0 text ∧ Formats text args out ∧
        ¬ PrintsFormat (fun _ _ => 0) format text args out portOnly := by
  have hformat : StringAt (literal [ascii '%']) 0 [ascii '%'] :=
    stringAt_literal (by decide)
  refine ⟨_, _, [], _, hformat, .percent [], ?_⟩
  rintro ⟨fuel, reads, hrun, hreads⟩
  have hle := hreads _ ((Formats.percent []).reads_behind (fun h => h rfl)
    hformat hrun)
  exact absurd hle (by decide)

end OptimistOS
