import OptimistOS.Renderer.BasicRenderer

/-!
# Printing a number on the screen

`PrintInt` stores the digits of its number from the last one on and draws them
from the other end. It treats the least value of a `long`, which an `int` never
has, and not that of an `int`: its negation is negative as well, and has no
digits (`printsInt_iff`).
-/

namespace OptimistOS

/-- The digit buffer, the number of digits in it and the indices used. -/
structure IntBuffer where
  bufferIndex : ℕ
  buffer : ℕ → Byte
  indices : List ℕ

def extractDigits : ℕ → BitVec 32 → ℕ → (ℕ → Byte) → Option IntBuffer
  | 0, _, _, _ => none
  | fuel + 1, num, bufferIndex, buffer =>
      if (0 : BitVec 32).slt num then
        (extractDigits fuel (num.sdiv 10) (bufferIndex + 1)
          (Function.update buffer bufferIndex
            ((0x30 + num.srem 10).setWidth 8))).map fun b =>
          { b with indices := bufferIndex :: b.indices }
      else some ⟨bufferIndex, buffer, []⟩

def drawDigits (buffer : ℕ → Byte) : ℕ → Point → Point × List Draw × List ℕ
  | 0, cursor => (cursor, [], [])
  | i + 1, cursor =>
      let rest := drawDigits buffer i cursor.right
      (rest.1, cursor.draw (buffer i) :: rest.2.1, i :: rest.2.2)

/-- What `PrintInt` returns: the cursor, the characters drawn and the indices of
the digit buffer used. -/
structure IntPrinted where
  cursor : Point
  draws : List Draw
  indices : List ℕ

def LONG_MIN : Word :=
  -9223372036854775808

def printSign (num : BitVec 32) (cursor : Point) : Point × List Draw × BitVec 32 :=
  if num.slt 0 then
    if num.signExtend 64 = LONG_MIN then
      (cursor.right.right, [cursor.draw (ascii '-'), cursor.right.draw (ascii '8')],
        - num.sdiv (-10))
    else (cursor.right, [cursor.draw (ascii '-')], - num)
  else (cursor, [], num)

/-- `PrintInt` with the cursor at `cursor`. `stack` is what is at the place of
`buffer` at the entry. -/
def printInt (stack : ℕ → Byte) (fuel : ℕ) (num : BitVec 32) (cursor : Point) :
    Option IntPrinted :=
  if num = 0 then some ⟨cursor.right, [cursor.draw (ascii '0')], []⟩
  else do
    let (cursor, sign, num) := printSign num cursor
    let b ← extractDigits fuel num 0 stack
    let (cursor, digits, indices) := drawDigits b.buffer b.bufferIndex cursor
    return ⟨cursor, sign ++ digits, b.indices ++ indices⟩

def drawString : List Byte → Point → List Draw
  | [], _ => []
  | c :: s, cursor => cursor.draw c :: drawString s cursor.right

def intNumeral (n : ℤ) : List Byte :=
  if n < 0 then ascii '-' :: numeral 10 n.natAbs else numeral 10 n.natAbs

/-- `PrintInt` ends, draws the numeral of `num`, and stays in its buffer. -/
def PrintsInt (stack : ℕ → Byte) (num : BitVec 32) (cursor : Point) : Prop :=
  ∃ fuel x, printInt stack fuel num cursor = some x ∧
    x.draws = drawString (intNumeral num.toInt) cursor ∧ ∀ i ∈ x.indices, i < 21

variable {stack buffer : ℕ → Byte} {fuel k : ℕ} {num : BitVec 32} {cursor : Point}
  {s t : List Byte}

/-- The first `n` places of the buffer from the last one on. -/
def readDown (buffer : ℕ → Byte) : ℕ → List Byte
  | 0 => []
  | i + 1 => buffer i :: readDown buffer i

theorem readDown_update (c : Byte) {n : ℕ} (hn : n ≤ k) :
    readDown (Function.update buffer k c) n = readDown buffer n := by
  induction n with
  | zero => rfl
  | succ n ih =>
      rw [readDown, readDown, ih (by omega),
        Function.update_of_ne (show n ≠ k by omega)]

theorem drawDigits_draws (buffer : ℕ → Byte) (n : ℕ) (cursor : Point) :
    (drawDigits buffer n cursor).2.1 = drawString (readDown buffer n) cursor := by
  induction n generalizing cursor with
  | zero => rfl
  | succ n ih => exact congrArg (cursor.draw (buffer n) :: ·) (ih cursor.right)

theorem lt_of_mem_drawDigits {n i : ℕ}
    (hi : i ∈ (drawDigits buffer n cursor).2.2) : i < n := by
  induction n generalizing cursor with
  | zero => exact absurd hi List.not_mem_nil
  | succ n ih =>
      rcases List.mem_cons.1 hi with rfl | hi
      · exact Nat.lt_succ_self i
      · exact Nat.lt_succ_of_lt (ih hi)

theorem zero_slt_iff : (0 : BitVec 32).slt num = true ↔
    num.toNat ≠ 0 ∧ num.toNat < 2 ^ 31 := by
  have hlt := num.isLt
  have hzero : (0 : BitVec 32).toInt = 0 := rfl
  rw [BitVec.slt_iff_toInt_lt, hzero, BitVec.toInt_eq_toNat_cond]
  split_ifs <;> omega

theorem toNat_sdiv_ten (hnum : num.toNat < 2 ^ 31) :
    (num.sdiv 10).toNat = num.toNat / 10 := by
  have hmsb : num.msb = false := BitVec.msb_eq_false_iff_two_mul_lt.2 (by omega)
  rw [BitVec.sdiv_eq, hmsb, show (10 : BitVec 32).msb = false from rfl]
  exact BitVec.toNat_udiv

theorem toNat_srem_ten (hnum : num.toNat < 2 ^ 31) :
    (num.srem 10).toNat = num.toNat % 10 := by
  have hmsb : num.msb = false := BitVec.msb_eq_false_iff_two_mul_lt.2 (by omega)
  rw [BitVec.srem_eq, hmsb, show (10 : BitVec 32).msb = false from rfl]
  exact BitVec.toNat_umod

theorem intDigit_eq (hnum : num.toNat < 2 ^ 31) :
    (0x30 + num.srem 10).setWidth 8 = ascii (num.toNat % 10).digitChar := by
  have hall : ∀ n < 10, (0x30 + BitVec.ofNat 32 n).setWidth 8 =
      ascii n.digitChar := by
    decide
  have hdigit := hall _ (Nat.mod_lt num.toNat (by decide))
  rwa [← toNat_srem_ten hnum, BitVec.ofNat_toNat, BitVec.setWidth_eq,
    toNat_srem_ten hnum] at hdigit

/-- The digits are stored from the last one on. -/
theorem extractDigits_spec (hnum : num.toNat < 2 ^ 31)
    (hfuel : (digits 10 num.toNat).length < fuel) (k : ℕ) (buffer : ℕ → Byte) :
    ∃ b, extractDigits fuel num k buffer = some b ∧
      b.bufferIndex = k + (digits 10 num.toNat).length ∧
      readDown b.buffer b.bufferIndex = digits 10 num.toNat ++ readDown buffer k ∧
      ∀ i ∈ b.indices, i < k + (digits 10 num.toNat).length := by
  induction fuel generalizing num k buffer with
  | zero => omega
  | succ fuel ih =>
      by_cases hne : num.toNat = 0
      · refine ⟨⟨k, buffer, []⟩, if_neg fun h => (zero_slt_iff.1 h).1 hne, ?_, ?_,
          by simp⟩
        · rw [hne]
          rfl
        · rw [hne]
          rfl
      · have hdigits := digits_eq (b := 10) (by decide) hne
        rw [← toNat_sdiv_ten hnum] at hdigits
        have hlength : (digits 10 num.toNat).length =
            (digits 10 (num.sdiv 10).toNat).length + 1 := by
          rw [hdigits, List.length_append, List.length_singleton]
        have hlt : (num.sdiv 10).toNat < 2 ^ 31 := by
          rw [toNat_sdiv_ten hnum]
          omega
        obtain ⟨b, hb, hindex, hread, hindices⟩ := ih hlt (by omega) (k + 1)
          (Function.update buffer k ((0x30 + num.srem 10).setWidth 8))
        refine ⟨{ b with indices := k :: b.indices }, ?_,
          show b.bufferIndex = _ by omega, ?_, ?_⟩
        · rw [extractDigits, if_pos (zero_slt_iff.2 ⟨hne, hnum⟩), hb,
            Option.map_some]
        · rw [readDown, Function.update_self, readDown_update _ le_rfl,
            intDigit_eq hnum] at hread
          rw [hdigits, List.append_assoc]
          exact hread
        · rintro i (_ | ⟨_, hi⟩)
          · omega
          · have hi' := hindices i hi
            omega

theorem signExtend_ne_LONG_MIN (num : BitVec 32) :
    num.signExtend 64 ≠ LONG_MIN := by
  intro h
  have hint := congrArg BitVec.toInt h
  rw [BitVec.toInt_signExtend_of_le (by decide),
    show LONG_MIN.toInt = -2 ^ 63 from rfl] at hint
  have hle := BitVec.le_toInt num
  omega

theorem slt_zero_iff : num.slt 0 = true ↔ num.toInt < 0 := by
  have hzero : (0 : BitVec 32).toInt = 0 := rfl
  rw [BitVec.slt_iff_toInt_lt, hzero]

theorem printSign_of_neg (h : num.toInt < 0) (cursor : Point) :
    printSign num cursor = (cursor.right, [cursor.draw (ascii '-')], - num) := by
  rw [printSign, if_pos (slt_zero_iff.2 h), if_neg (signExtend_ne_LONG_MIN num)]

theorem printSign_of_nonneg (h : 0 ≤ num.toInt) (cursor : Point) :
    printSign num cursor = (cursor, [], num) := by
  rw [printSign, if_neg (mt slt_zero_iff.1 (not_lt.2 h))]

theorem printInt_of_printSign (hne : num ≠ 0) {cursor' : Point} {sign : List Draw}
    {num' : BitVec 32} (hsign : printSign num cursor = (cursor', sign, num'))
    (hnum : num'.toNat < 2 ^ 31) (stack : ℕ → Byte) :
    ∃ x, printInt stack 11 num cursor = some x ∧
      x.draws = sign ++ drawString (digits 10 num'.toNat) cursor' ∧
      ∀ i ∈ x.indices, i < 21 := by
  have hlength : (digits 10 num'.toNat).length ≤ 10 :=
    length_digits_le (by decide) (by decide) (by omega)
  obtain ⟨b, hb, hindex, hread, hindices⟩ :=
    extractDigits_spec hnum (show _ < 11 by omega) 0 stack
  rw [readDown, List.append_nil] at hread
  refine ⟨⟨(drawDigits b.buffer b.bufferIndex cursor').1,
    sign ++ (drawDigits b.buffer b.bufferIndex cursor').2.1,
    b.indices ++ (drawDigits b.buffer b.bufferIndex cursor').2.2⟩, ?_, ?_, ?_⟩
  · rw [printInt, if_neg hne, hsign]
    simp only [Option.bind_eq_bind]
    rw [hb]
    rfl
  · rw [drawDigits_draws, hread]
  · intro i hi
    rcases List.mem_append.1 hi with hi | hi
    · have hi' := hindices i hi
      omega
    · have hi' := lt_of_mem_drawDigits hi
      omega

theorem printsInt_of_ne (hmin : num.toInt ≠ -2 ^ 31) (stack : ℕ → Byte)
    (cursor : Point) : PrintsInt stack num cursor := by
  have hint := BitVec.toInt_eq_toNat_cond (x := num)
  have hlt := num.isLt
  by_cases hzero : num = 0
  · subst hzero
    exact ⟨0, _, rfl, rfl, by simp⟩
  have hne : num.toNat ≠ 0 := fun h => hzero (BitVec.eq_of_toNat_eq h)
  by_cases hneg : num.toInt < 0
  · have habs : (- num).toNat = num.toInt.natAbs := by
      rw [BitVec.toNat_neg]
      split_ifs at hint <;> omega
    obtain ⟨x, hx, hdraws, hindices⟩ := printInt_of_printSign hzero
      (printSign_of_neg hneg cursor) (by omega) stack
    refine ⟨_, x, hx, ?_, hindices⟩
    rw [hdraws, intNumeral, if_pos hneg, habs, digits_of_ne_zero (by omega)]
    rfl
  · have habs : num.toNat = num.toInt.natAbs := by
      split_ifs at hint <;> omega
    obtain ⟨x, hx, hdraws, hindices⟩ := printInt_of_printSign hzero
      (printSign_of_nonneg (not_lt.1 hneg) cursor) (by omega) stack
    refine ⟨_, x, hx, ?_, hindices⟩
    rw [hdraws, intNumeral, if_neg hneg, ← habs, digits_of_ne_zero hne]
    rfl

theorem length_drawString (s : List Byte) (cursor : Point) :
    (drawString s cursor).length = s.length := by
  induction s generalizing cursor with
  | nil => rfl
  | cons c s ih => rw [drawString, List.length_cons, List.length_cons, ih]

theorem printInt_min {x : IntPrinted}
    (hx : printInt stack fuel (BitVec.intMin 32) cursor = some x) :
    x.draws = [cursor.draw (ascii '-')] := by
  have hsign : printSign (BitVec.intMin 32) cursor =
      (cursor.right, [cursor.draw (ascii '-')], - BitVec.intMin 32) :=
    printSign_of_neg (by decide) cursor
  rw [printInt, if_neg (by decide), hsign] at hx
  simp only [Option.bind_eq_bind] at hx
  cases fuel with
  | zero => exact absurd hx (by simp [extractDigits])
  | succ fuel =>
      rw [extractDigits, if_neg (by decide), Option.bind_some] at hx
      obtain rfl := Option.some.inj hx
      rfl

theorem not_printsInt_min (stack : ℕ → Byte) (cursor : Point) :
    ¬ PrintsInt stack (BitVec.intMin 32) cursor := by
  rintro ⟨fuel, x, hx, hdraws, -⟩
  have hlength := congrArg List.length ((printInt_min hx).symm.trans hdraws)
  rw [length_drawString, intNumeral, if_pos (by decide), List.length_singleton,
    List.length_cons, numeral, List.length_map] at hlength
  have hpos : 0 < (Nat.toDigits 10 (BitVec.intMin 32).toInt.natAbs).length :=
    Nat.length_toDigits_pos
  omega

/-- `PrintInt` draws the numeral of every number but the least one. -/
theorem printsInt_iff (stack : ℕ → Byte) (num : BitVec 32) (cursor : Point) :
    PrintsInt stack num cursor ↔ num.toInt ≠ -2 ^ 31 := by
  refine ⟨fun h hmin => ?_, fun h => printsInt_of_ne h stack cursor⟩
  have heq : num = BitVec.intMin 32 := BitVec.eq_of_toInt_eq hmin
  exact not_printsInt_min stack cursor (heq ▸ h)

/-- The least number. -/
theorem exists_not_printsInt :
    ∃ (num : BitVec 32) (cursor : Point), ¬ PrintsInt (fun _ => 0) num cursor :=
  ⟨BitVec.intMin 32, ⟨0, 0⟩, not_printsInt_min _ _⟩

end OptimistOS
