import Mathlib.Data.BitVec

/-!
# Masks

Clearing the low `k` bits of a word rounds it down to a multiple of `2 ^ k`. A mask
of a single bit tests this bit.
-/

namespace ByteMemory

theorem and_not_mask_eq_shift {w : ℕ} (x : BitVec w) (k : ℕ) :
    x &&& ~~~(BitVec.ofNat w (2 ^ k - 1)) = (x >>> k) <<< k := by
  apply BitVec.eq_of_getLsbD_eq
  intro i hi
  simp only [BitVec.getLsbD_and, BitVec.getLsbD_not, BitVec.getLsbD_ofNat,
    BitVec.getLsbD_shiftLeft, BitVec.getLsbD_ushiftRight,
    Nat.testBit_two_pow_sub_one, hi]
  by_cases h : i < k
  · simp [h]
  · simp [h, show k + (i - k) = i by omega]

theorem toNat_and_not_mask {w : ℕ} (x : BitVec w) (k : ℕ) :
    (x &&& ~~~(BitVec.ofNat w (2 ^ k - 1))).toNat =
      x.toNat / 2 ^ k * 2 ^ k := by
  have hle : x.toNat / 2 ^ k * 2 ^ k ≤ x.toNat := Nat.div_mul_le_self _ _
  rw [and_not_mask_eq_shift, BitVec.toNat_shiftLeft, BitVec.toNat_ushiftRight,
    Nat.shiftRight_eq_div_pow, Nat.shiftLeft_eq,
    Nat.mod_eq_of_lt (lt_of_le_of_lt hle x.isLt)]

theorem and_mask_or_shift {w : ℕ} (x : BitVec w) (k : ℕ) :
    x &&& BitVec.ofNat w (2 ^ k - 1) ||| (x >>> k) <<< k = x := by
  rw [← and_not_mask_eq_shift]
  apply BitVec.eq_of_getLsbD_eq
  intro i hi
  simp only [BitVec.getLsbD_or, BitVec.getLsbD_and, BitVec.getLsbD_not, hi,
    decide_true, Bool.true_and]
  cases x.getLsbD i <;> simp

theorem and_mask_eq_self {w : ℕ} {x : BitVec w} {k : ℕ} (hx : x.toNat < 2 ^ k) :
    x &&& BitVec.ofNat w (2 ^ k - 1) = x := by
  have hshift : x >>> k = 0#w := by
    apply BitVec.eq_of_toNat_eq
    rw [BitVec.toNat_ushiftRight, Nat.shiftRight_eq_div_pow,
      Nat.div_eq_of_lt hx, BitVec.toNat_ofNat, Nat.zero_mod]
  have h := and_mask_or_shift x k
  rwa [hshift, BitVec.zero_shiftLeft, BitVec.or_zero] at h

theorem getLsbD_one_shiftLeft {w k : ℕ} (hk : k < w) (i : ℕ) :
    (1#w <<< k).getLsbD i = decide (i = k) := by
  rw [BitVec.getLsbD_shiftLeft]
  by_cases hi : i < w
  · by_cases hik : i < k
    · simp [hi, hik, show i ≠ k by omega]
    · by_cases heq : i = k
      · simp [heq, hk, show 0 < w by omega]
      · simp [hi, hik, heq, show i - k ≠ 0 by omega]
  · simp [hi, show i ≠ k by omega]

theorem and_one_shiftLeft_ne_zero {w : ℕ} (e : BitVec w) {k : ℕ} (hk : k < w) :
    e &&& (1#w <<< k) ≠ 0 ↔ e.getLsbD k = true := by
  have hone := getLsbD_one_shiftLeft hk
  constructor
  · intro h
    by_contra hbit
    refine h (BitVec.eq_of_getLsbD_eq fun i _ => ?_)
    rw [BitVec.getLsbD_and, hone]
    by_cases heq : i = k
    · rw [heq, Bool.eq_false_iff.2 hbit, Bool.false_and]
      exact BitVec.getLsbD_zero.symm
    · rw [decide_eq_false heq, Bool.and_false]
      exact BitVec.getLsbD_zero.symm
  · intro hbit h
    have hzero := congrArg (fun x : BitVec w => x.getLsbD k) h
    simp only [BitVec.getLsbD_and, hone, hbit, decide_true, Bool.true_and] at hzero
    exact absurd hzero (by simp)

end ByteMemory
