import Mathlib.Data.BitVec
import Mathlib.Data.Nat.Log

/-!
# Smearing the bits of a word downwards

`Smears u v n` says that a bit of `v` is set when one of the `n` bits of `u`
from there upwards is. Or-ing a word with itself shifted by 1, 2, 4 and so on
doubles `n` each time. Once `n` exceeds the highest bit of `u`, all the bits of
`v` up to there are set.
-/

namespace ByteMemory

variable {w n : ℕ} {u v : BitVec w}

def Smears (u v : BitVec w) (n : ℕ) : Prop :=
  ∀ i, v.getLsbD i = true ↔ ∃ j < n, u.getLsbD (i + j) = true

theorem smears_self (u : BitVec w) : Smears u u 1 := by
  intro i
  constructor
  · exact fun h => ⟨0, by omega, h⟩
  · rintro ⟨j, hj, h⟩
    obtain rfl : j = 0 := by omega
    exact h

theorem Smears.or_shift (h : Smears u v n) :
    Smears u (v ||| v >>> n) (n + n) := by
  intro i
  rw [BitVec.getLsbD_or, BitVec.getLsbD_ushiftRight, Bool.or_eq_true, h, h]
  constructor
  · rintro (⟨j, hj, hbit⟩ | ⟨j, hj, hbit⟩)
    · exact ⟨j, by omega, hbit⟩
    · exact ⟨n + j, by omega, by rwa [show i + (n + j) = n + i + j by omega]⟩
  · rintro ⟨j, hj, hbit⟩
    by_cases hlow : j < n
    · exact Or.inl ⟨j, hlow, hbit⟩
    · exact Or.inr ⟨j - n, by omega, by
        rwa [show n + i + (j - n) = i + j by omega]⟩

theorem Smears.le (h : Smears u v n) (hn : 0 < n) : u ≤ v := by
  have hand : u &&& v = u := by
    refine BitVec.eq_of_getLsbD_eq fun i _ => ?_
    rw [BitVec.getLsbD_and]
    cases hbit : u.getLsbD i with
    | false => rfl
    | true => rw [(h i).2 ⟨0, hn, hbit⟩]; rfl
  have hle : (u &&& v).toNat ≤ v.toNat := Nat.and_le_right
  rwa [hand] at hle

/-- All the bits up to the highest one of `u` are set if each of them has a bit
of `u` in reach. -/
theorem Smears.toNat_eq_iff (h : Smears u v n) {k : ℕ}
    (hhigh : u.toNat < 2 ^ (k + 1)) :
    v.toNat = 2 ^ (k + 1) - 1 ↔
      ∀ i < k + 1, ∃ j < n, u.getLsbD (i + j) = true := by
  have hclear : ∀ i, k < i → u.getLsbD i = false := fun i hi => by
    rw [← BitVec.testBit_toNat]
    exact Nat.testBit_lt_two_pow (hhigh.trans_le
      (Nat.pow_le_pow_right (by omega) hi))
  constructor
  · intro hv i hi
    rw [← h i, ← BitVec.testBit_toNat, hv, Nat.testBit_two_pow_sub_one,
      decide_eq_true hi]
  · refine fun hall => Nat.eq_of_testBit_eq fun i => ?_
    rw [BitVec.testBit_toNat, Nat.testBit_two_pow_sub_one]
    by_cases hi : i < k + 1
    · rw [decide_eq_true hi, h]
      exact hall i hi
    · rw [decide_eq_false hi, Bool.eq_false_iff, ne_eq, h]
      rintro ⟨j, -, hbit⟩
      rw [hclear _ (by omega)] at hbit
      exact absurd hbit (by simp)

theorem Smears.toNat_eq (h : Smears u v n) {k : ℕ} (hlow : 2 ^ k ≤ u.toNat)
    (hhigh : u.toNat < 2 ^ (k + 1)) (hk : k < n) :
    v.toNat = 2 ^ (k + 1) - 1 := by
  have hset : u.getLsbD k = true := by
    rw [← BitVec.testBit_toNat, Nat.testBit_eq_decide_div_mod_eq,
      decide_eq_true_eq, Nat.div_eq_of_lt_le (k := 1) (by omega)
        (by rw [pow_succ] at hhigh; omega)]
  exact (h.toNat_eq_iff hhigh).2 fun i hi =>
    ⟨k - i, by omega, by rwa [show i + (k - i) = k by omega]⟩

/-- The smeared word is one below a power of two, unless `u` has a bit that
`n` does not reach. -/
theorem Smears.toNat_eq_of_lt (h : Smears u v n) (hu : u.toNat < 2 ^ n) :
    v.toNat = 0 ∧ u.toNat = 0 ∨
      ∃ k < n, 2 ^ k ≤ u.toNat ∧ v.toNat = 2 ^ (k + 1) - 1 := by
  by_cases h0 : u.toNat = 0
  · refine Or.inl ⟨?_, h0⟩
    have hzero : v = 0 := by
      refine BitVec.eq_of_getLsbD_eq fun i _ => ?_
      rw [Bool.eq_iff_iff, h]
      simp [← BitVec.testBit_toNat, h0]
    rw [hzero]
    rfl
  · have hlog := Nat.log2_lt h0 |>.2 hu
    exact Or.inr ⟨u.toNat.log2, hlog, Nat.log2_self_le h0,
      h.toNat_eq (Nat.log2_self_le h0) Nat.lt_log2_self hlog⟩

end ByteMemory
