import OptimistOS.Heap.RecordedSizes

/-!
# Rounding up to a power of two

`roundUpToNextPower2` ors the size with itself shifted by 1, 2, 4, 8 and 16, and
not by 32: a bit is copied to the 31 places below it only. The result is the
least power of two from the size on exactly if every bit below the highest one
has a bit set among itself and the 31 above it (`roundsUp_iff`), in particular
for all sizes up to 2^32.
-/

namespace OptimistOS

open ByteMemory

/-- `roundUpToNextPower2` returns the least power of two that is at least
`size`. -/
def RoundsUp (size : Word) : Prop :=
  IsLeast {p | (∃ k, p = 2 ^ k) ∧ size.toNat ≤ p}
    (roundUpToNextPower2 size).toNat

/-- Below the highest bit of `u` there are no 32 places in a row without a bit
that is set. -/
def NoGap (u : Word) : Prop :=
  ∀ i, 2 ^ i ≤ u.toNat → ∃ j < 32, u.getLsbD (i + j) = true

theorem isLeast_pow_iff {n k p : ℕ} (hlow : 2 ^ k ≤ n) (hhigh : n < 2 ^ (k + 1)) :
    IsLeast {p | (∃ k, p = 2 ^ k) ∧ n + 1 ≤ p} p ↔ p = 2 ^ (k + 1) := by
  have hleast : IsLeast {p | (∃ k, p = 2 ^ k) ∧ n + 1 ≤ p} (2 ^ (k + 1)) := by
    refine ⟨⟨⟨k + 1, rfl⟩, hhigh⟩, ?_⟩
    rintro _ ⟨⟨i, rfl⟩, hi⟩
    have hki : k < i := (Nat.pow_lt_pow_iff_right (a := 2) (by decide)).1
      (by omega)
    exact Nat.pow_le_pow_right (by decide) hki
  exact ⟨fun h => h.unique hleast, fun h => h ▸ hleast⟩

theorem roundsUp_one : RoundsUp 1 := by
  refine ⟨⟨⟨0, by decide⟩, by decide⟩, ?_⟩
  rintro _ ⟨-, hp⟩
  exact hp

/-- The rounding is right exactly if the bits below the highest one have no gap
of 32 places. -/
theorem roundsUp_iff (size : Word) (hmin : 1 ≤ size.toNat)
    (hmax : size.toNat ≤ 2 ^ 63) : RoundsUp size ↔ NoGap (size - 1) := by
  have hpred : (size - 1).toNat = size.toNat - 1 := by bv_omega
  by_cases hone : size.toNat = 1
  · obtain rfl : size = 1 := BitVec.eq_of_toNat_eq hone
    refine iff_of_true roundsUp_one fun i hi => absurd hi ?_
    have hpos := Nat.two_pow_pos i
    rw [hpred]
    omega
  · set k := (size - 1).toNat.log2 with hk
    have hne : (size - 1).toNat ≠ 0 := by omega
    have hlow : 2 ^ k ≤ (size - 1).toNat := Nat.log2_self_le hne
    have hhigh : (size - 1).toNat < 2 ^ (k + 1) := Nat.lt_log2_self
    have hk63 : k < 63 := (Nat.log2_lt hne).2 (by omega)
    have hpow : 2 ^ (k + 1) ≤ 2 ^ 63 := Nat.pow_le_pow_right (by decide) hk63
    have hpos := Nat.two_pow_pos k
    have hround : (roundUpToNextPower2 size).toNat = 2 ^ (k + 1) ↔
        (roundUpToNextPower2 size - 1).toNat = 2 ^ (k + 1) - 1 := by
      have hpow' : 2 ^ (k + 1) = 2 * 2 ^ k := by rw [pow_succ, Nat.mul_comm]
      bv_omega
    have hsize : size.toNat = (size - 1).toNat + 1 := by omega
    rw [RoundsUp, hsize, isLeast_pow_iff hlow hhigh, hround,
      (smears_roundUpToNextPower2 size).toNat_eq_iff hhigh, NoGap]
    refine forall_congr' fun i => imp_congr_left ⟨fun hi => ?_, fun hi => ?_⟩
    · exact (Nat.pow_le_pow_right (by decide) (Nat.le_of_lt_succ hi)).trans hlow
    · exact (Nat.pow_lt_pow_iff_right (a := 2) (by decide)).1
        (hi.trans_lt hhigh)

theorem noGap_of_le {u : Word} (h : u.toNat < 2 ^ 32) : NoGap u := by
  intro i hi
  have hne : u.toNat ≠ 0 := by
    have hpos := Nat.two_pow_pos i
    omega
  have hbit : u.getLsbD u.toNat.log2 = true := by
    rw [← BitVec.testBit_toNat]
    exact Nat.testBit_log2 hne
  have hlt := (Nat.log2_lt hne).2 h
  have hle : i ≤ u.toNat.log2 := (Nat.le_log2 hne).2 hi
  exact ⟨u.toNat.log2 - i, by omega, by
    rwa [show i + (u.toNat.log2 - i) = u.toNat.log2 by omega]⟩

/-- A size below 2^32. -/
theorem roundsUp_iff_page : RoundsUp 4000 :=
  (roundsUp_iff 4000 (by decide) (by decide)).2 (noGap_of_le (by decide))

/-- The size 2^32 + 1 is rounded to 2^33 - 1. -/
theorem exists_not_roundsUp :
    ∃ size : Word, 1 ≤ size.toNat ∧ size.toNat ≤ 2 ^ 63 ∧ ¬ RoundsUp size := by
  refine ⟨0x100000001, by decide, by decide, ?_⟩
  rintro ⟨⟨⟨k, hk⟩, -⟩, -⟩
  have hround : (roundUpToNextPower2 0x100000001).toNat = 2 ^ 33 - 1 := by
    decide
  rw [hround] at hk
  cases k with
  | zero => exact absurd hk (by decide)
  | succ k =>
      rw [pow_succ] at hk
      omega

end OptimistOS
