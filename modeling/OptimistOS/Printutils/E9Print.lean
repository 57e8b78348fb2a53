import OptimistOS.Boot.BootInfo
import OptimistOS.Foundation.CStrings

/-!
# Printing to port 0xE9

`e9_printdec` and `e9_printhex` write the digits of a number backwards from the
end of a buffer and print the buffer from the last digit written. All 64-bit
numbers fit into the 20 decimal and the 16 hexadecimal places in front of the
NUL, and what is printed is the numeral of the number (`prints_numerals`).
-/

namespace OptimistOS

open CString

/-- A `char`. -/
abbrev Byte := BitVec 8

def ascii (c : Char) : Byte :=
  BitVec.ofNat 8 c.toNat

/-- What has been printed, on the terminal if there is one (`limine_print` is
not null) and on port 0xE9. -/
structure Console where
  liminePrint : Bool
  terminal : List Byte
  port : List Byte

def Console.write (k : Console) (s : List Byte) : Console :=
  { k with
    terminal := if k.liminePrint then k.terminal ++ s else k.terminal
    port := k.port ++ s }

def e9Putc (c : Byte) (k : Console) : Console :=
  { k with
    terminal := if k.liminePrint then k.terminal ++ [c] else k.terminal
    port := k.port ++ [c] }

def e9Print (msg : ℤ → Byte) : ℕ → ℤ → Console → Option Console
  | 0, _, _ => none
  | fuel + 1, i, k =>
      if msg i = 0 then some k
      else e9Print msg fuel (i + 1) (e9Putc (msg i) k)

def CONVERSION_TABLE : ℤ → Byte :=
  literal ("0123456789abcdef".toList.map ascii)

/-- A digit buffer after the loop, the index behind the last digit written and
the indices that the loop has written. -/
structure DigitBuffer where
  i : ℤ
  buf : ℤ → Byte
  writes : List ℤ

/-- The loop that writes the digits of `num` to the base `base` backwards from
the place `i`. -/
def digitLoop (base : Word) (digit : Word → Byte) :
    ℕ → ℤ → Word → (ℤ → Byte) → Option DigitBuffer
  | 0, _, _, _ => none
  | fuel + 1, i, num, buf =>
      if num = 0 then some ⟨i, buf, []⟩
      else
        (digitLoop base digit fuel (i - 1) (num / base)
          (Function.update buf i (digit (num % base)))).map fun d =>
            { d with writes := i :: d.writes }

/-- `e9_printhex`, with the indices written by the digit loop. `stack` is what is
at the place of `buf` at the entry. -/
def e9Printhex (stack : ℤ → Byte) (fuel : ℕ) (num : Word) (k : Console) :
    Option (Console × List ℤ) :=
  if num = 0 then
    (e9Print (literal ("0x0".toList.map ascii)) fuel 0 k).map fun k => (k, [])
  else do
    let d ← digitLoop 16 (fun r => CONVERSION_TABLE r.toNat) fuel 15 num
      (Function.update stack 16 0)
    let k ← e9Print (literal ("0x".toList.map ascii)) fuel 0 k
    let k ← e9Print d.buf fuel (d.i + 1) k
    return (k, d.writes)

/-- `e9_printdec`. All of `buf` is zero before the digit loop. -/
def e9Printdec (stack : ℤ → Byte) (fuel : ℕ) (num : Word) (k : Console) :
    Option (Console × List ℤ) :=
  if num = 0 then some (e9Putc (ascii '0') k, [])
  else do
    let d ← digitLoop 10 (fun r => (r + 0x30).setWidth 8) fuel 19 num
      fun j => if 0 ≤ j ∧ j < 21 then 0 else stack j
    let k ← e9Print d.buf fuel (d.i + 1) k
    return (k, d.writes)

def numeral (b n : ℕ) : List Byte :=
  (Nat.toDigits b n).map ascii

namespace Console

variable {k : Console} {c : Byte} {s t : List Byte}

@[simp] theorem write_nil (k : Console) : k.write [] = k := by
  simp [write]

theorem write_append (k : Console) (s t : List Byte) :
    k.write (s ++ t) = (k.write s).write t := by
  simp only [write]
  split <;> simp only [List.append_assoc]

end Console

variable {fuel : ℕ} {i : ℤ} {msg : ℤ → Byte} {s : List Byte}

theorem e9Putc_eq (c : Byte) (k : Console) : e9Putc c k = k.write [c] :=
  rfl

theorem e9Print_of_stringAt (h : StringAt msg i s) (hfuel : s.length < fuel)
    (k : Console) : e9Print msg fuel i k = some (k.write s) := by
  induction s generalizing i fuel k with
  | nil =>
      obtain ⟨fuel, rfl⟩ : ∃ m, fuel = m + 1 := ⟨fuel - 1, by omega⟩
      rw [e9Print, if_pos (stringAt_nil.1 h), Console.write_nil]
  | cons c s ih =>
      obtain ⟨fuel, rfl⟩ : ∃ m, fuel = m + 1 := ⟨fuel - 1, by omega⟩
      obtain ⟨rfl, hne, htail⟩ := h
      rw [List.length_cons] at hfuel
      rw [e9Print, if_neg hne, ih htail (by omega), e9Putc_eq,
        ← Console.write_append, List.singleton_append]

theorem e9Print_literal (hs : ∀ c ∈ s, c ≠ 0) (hfuel : s.length < fuel)
    (k : Console) : e9Print (literal s) fuel 0 k = some (k.write s) :=
  e9Print_of_stringAt (stringAt_literal hs) hfuel k

def digits (b n : ℕ) : List Byte :=
  if n = 0 then [] else numeral b n

theorem digits_zero (b : ℕ) : digits b 0 = [] :=
  rfl

theorem digits_of_ne_zero {b n : ℕ} (hn : n ≠ 0) : digits b n = numeral b n :=
  if_neg hn

theorem digits_eq {b n : ℕ} (hb : 1 < b) (hn : n ≠ 0) :
    digits b n = digits b (n / b) ++ [ascii (n % b).digitChar] := by
  by_cases hlt : n < b
  · rw [Nat.div_eq_of_lt hlt, digits_zero, digits_of_ne_zero hn, numeral,
      Nat.toDigits_of_lt_base hlt, Nat.mod_eq_of_lt hlt]
    rfl
  · have hdiv : n / b ≠ 0 := by
      rw [Nat.div_ne_zero_iff]
      omega
    rw [digits_of_ne_zero hn, digits_of_ne_zero hdiv, numeral, numeral,
      Nat.toDigits_of_base_le hb (by omega), List.map_append]
    rfl

theorem length_digits_le {b n m : ℕ} (hb : 1 < b) (hm : 0 < m)
    (hn : n < b ^ m) : (digits b n).length ≤ m := by
  by_cases h0 : n = 0
  · rw [h0, digits_zero]
    exact Nat.zero_le m
  · rw [digits_of_ne_zero h0, numeral, List.length_map]
    exact (Nat.length_toDigits_le_iff hb hm).2 hn

/-- The digit loop ends with the digits of `num` in front of what was at the
place `i + 1`. -/
theorem digitLoop_of_stringAt {base : Word} {digit : Word → Byte}
    (hbase : 1 < base.toNat)
    (hdigit : ∀ r : Word, r.toNat < base.toNat →
      digit r = ascii r.toNat.digitChar ∧ digit r ≠ 0)
    {num : Word} {buf : ℤ → Byte} (hbuf : StringAt buf (i + 1) s)
    (hfuel : (digits base.toNat num.toNat).length < fuel) :
    ∃ d, digitLoop base digit fuel i num buf = some d ∧
      StringAt d.buf (d.i + 1) (digits base.toNat num.toNat ++ s) ∧
      ∀ j ∈ d.writes, i - (digits base.toNat num.toNat).length < j ∧ j ≤ i := by
  induction fuel generalizing i num buf s with
  | zero => omega
  | succ fuel ih =>
      rw [digitLoop]
      by_cases hnum : num = 0
      · refine ⟨⟨i, buf, []⟩, if_pos hnum, ?_, by simp⟩
        rw [hnum]
        exact hbuf
      · have hne : num.toNat ≠ 0 := fun h => hnum (BitVec.eq_of_toNat_eq h)
        have hdiv : (num / base).toNat = num.toNat / base.toNat :=
          BitVec.toNat_udiv
        have hmod : (num % base).toNat = num.toNat % base.toNat :=
          BitVec.toNat_umod
        have hdigits := digits_eq hbase hne
        rw [← hdiv, ← hmod] at hdigits
        have hlt : (num % base).toNat < base.toNat := by
          rw [hmod]
          exact Nat.mod_lt _ (by omega)
        obtain ⟨hchar, hzero⟩ := hdigit _ hlt
        rw [hdigits, List.length_append, List.length_singleton] at hfuel
        have hnext : StringAt (Function.update buf i (digit (num % base)))
            (i - 1 + 1) (digit (num % base) :: s) := by
          rw [Int.sub_add_cancel]
          exact hbuf.update hzero
        obtain ⟨d, hd, hstring, hwrites⟩ := ih hnext
          (show (digits base.toNat (num / base).toNat).length < fuel by omega)
        refine ⟨{ d with writes := i :: d.writes }, ?_, ?_, ?_⟩
        · rw [if_neg hnum, hd]
          rfl
        · rw [hdigits, ← hchar, List.append_assoc]
          exact hstring
        · rw [hdigits, List.length_append, List.length_singleton]
          rintro j (_ | ⟨_, hj⟩)
          · omega
          · have hj' := hwrites j hj
            omega

theorem digitLoop_numeral (base : Word) (digit : Word → Byte) {n : ℕ}
    (hi : i = n - 1) (buf : ℤ → Byte) (hbuf : buf n = 0) (hbase : 1 < base.toNat)
    (hdigit : ∀ r : Word, r.toNat < base.toNat →
      digit r = ascii r.toNat.digitChar ∧ digit r ≠ 0)
    (hn : 0 < n) {num : Word} (hnum : num ≠ 0)
    (hlt : num.toNat < base.toNat ^ n) (hfuel : n < fuel) :
    ∃ d, digitLoop base digit fuel i num buf = some d ∧
      (∀ k, e9Print d.buf fuel (d.i + 1) k =
        some (k.write (numeral base.toNat num.toNat))) ∧
      ∀ j ∈ d.writes, 0 ≤ j ∧ j < n := by
  have hne : num.toNat ≠ 0 := fun h => hnum (BitVec.eq_of_toNat_eq h)
  have hlength : (digits base.toNat num.toNat).length ≤ n :=
    length_digits_le hbase hn hlt
  have hend : StringAt buf (i + 1) [] := by
    rwa [hi, Int.sub_add_cancel]
  obtain ⟨d, hd, hstring, hwrites⟩ :=
    digitLoop_of_stringAt hbase hdigit hend (hlength.trans_lt hfuel)
  rw [List.append_nil] at hstring
  refine ⟨d, hd, fun k => ?_, fun j hj => ?_⟩
  · rw [← digits_of_ne_zero hne]
    exact e9Print_of_stringAt hstring (hlength.trans_lt hfuel) k
  · have hj' := hwrites j hj
    omega

/-- What is printed, and that the digit loop writes below the index `n` only. -/
def PrintsDigits (r : Option (Console × List ℤ)) (k : Console) (out : List Byte)
    (n : ℤ) : Prop :=
  ∃ writes, r = some (k.write out, writes) ∧ ∀ j ∈ writes, 0 ≤ j ∧ j < n

theorem conversionTable_eq (r : Word) (hr : r.toNat < 16) :
    CONVERSION_TABLE r.toNat = ascii r.toNat.digitChar ∧
      CONVERSION_TABLE r.toNat ≠ 0 := by
  have hall : ∀ n < 16, CONVERSION_TABLE (n : ℕ) = ascii n.digitChar ∧
      CONVERSION_TABLE (n : ℕ) ≠ 0 := by
    decide
  exact hall _ hr

theorem decimalDigit_eq (r : Word) (hr : r.toNat < 10) :
    (r + 0x30).setWidth 8 = ascii r.toNat.digitChar ∧
      (r + 0x30).setWidth 8 ≠ 0 := by
  have hall : ∀ n < 10,
      (BitVec.ofNat 64 n + 0x30).setWidth 8 = ascii n.digitChar ∧
        (BitVec.ofNat 64 n + 0x30).setWidth 8 ≠ 0 := by
    decide
  have hnat := hall _ hr
  rwa [BitVec.ofNat_toNat, BitVec.setWidth_eq] at hnat

theorem printsDigits_e9Printdec (stack : ℤ → Byte) (hfuel : 20 < fuel)
    (num : Word) (k : Console) :
    PrintsDigits (e9Printdec stack fuel num k) k (numeral 10 num.toNat) 20 := by
  by_cases hnum : num = 0
  · subst hnum
    exact ⟨[], if_pos rfl, by simp⟩
  · have hlt : num.toNat < 10 ^ 20 := num.isLt.trans (by decide)
    obtain ⟨d, hd, hprint, hwrites⟩ := digitLoop_numeral 10 _
      (show (19 : ℤ) = (20 : ℕ) - 1 by decide)
      (fun j => if 0 ≤ j ∧ j < 21 then 0 else stack j) rfl (by decide)
      decimalDigit_eq (by decide) hnum hlt hfuel
    refine ⟨d.writes, ?_, hwrites⟩
    rw [e9Printdec, if_neg hnum]
    simp only [Option.bind_eq_bind]
    rw [hd, Option.bind_some, hprint]
    rfl

theorem printsDigits_e9Printhex (stack : ℤ → Byte) (hfuel : 16 < fuel)
    (num : Word) (k : Console) :
    PrintsDigits (e9Printhex stack fuel num k) k
      ("0x".toList.map ascii ++ numeral 16 num.toNat) 16 := by
  by_cases hnum : num = 0
  · subst hnum
    have hprint := e9Print_literal (s := "0x0".toList.map ascii) (by decide)
      (show 3 < fuel by omega) k
    refine ⟨[], ?_, by simp⟩
    rw [e9Printhex, if_pos rfl, hprint]
    rfl
  · have hlt : num.toNat < 16 ^ 16 := num.isLt
    obtain ⟨d, hd, hprint, hwrites⟩ := digitLoop_numeral 16 _
      (show (15 : ℤ) = (16 : ℕ) - 1 by decide)
      (Function.update stack 16 0) (Function.update_self 16 0 stack)
      (by decide) conversionTable_eq (by decide) hnum hlt hfuel
    have hprefix := e9Print_literal (s := "0x".toList.map ascii) (by decide)
      (show 2 < fuel by omega) k
    refine ⟨d.writes, ?_, hwrites⟩
    rw [e9Printhex, if_neg hnum]
    simp only [Option.bind_eq_bind]
    rw [hd, Option.bind_some, hprefix, Option.bind_some, hprint,
      Console.write_append]
    rfl

/-- All numbers are printed as their numerals. The digit loops end, and write
inside their buffers in front of the NUL. -/
theorem prints_numerals (stack : ℤ → Byte) (fuel : ℕ) (num : Word)
    (k : Console) :
    PrintsDigits (e9Printdec stack (fuel + 21) num k) k
        (numeral 10 num.toNat) 20 ∧
      PrintsDigits (e9Printhex stack (fuel + 21) num k) k
        ("0x".toList.map ascii ++ numeral 16 num.toNat) 16 :=
  ⟨printsDigits_e9Printdec stack (by omega) num k,
    printsDigits_e9Printhex stack (by omega) num k⟩

end OptimistOS
