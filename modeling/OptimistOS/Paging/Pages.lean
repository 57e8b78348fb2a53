import OptimistOS.Paging.Walk

/-!
# Pages of virtual addresses

A page of `2 ^ k` bytes is the set of addresses that agree from bit `k` on. For
canonical addresses the page is decided by the indices of the walk, so the walk
tells two addresses apart exactly when they lie in different pages. The last
part is the arithmetic of an address inside its page.
-/

namespace OptimistOS

open ByteMemory

/-- The two addresses agree from bit `k` on. -/
def SamePage (k : ℕ) (v w : Word) : Prop :=
  ∀ i, k ≤ i → v.getLsbD i = w.getLsbD i

theorem SamePage.mono {k l : ℕ} {v w : Word} (h : SamePage k v w)
    (hkl : k ≤ l) : SamePage l v w := fun i hi => h i (hkl.trans hi)

theorem samePage_iff_div {k : ℕ} {v w : Word} :
    SamePage k v w ↔ v.toNat / 2 ^ k = w.toNat / 2 ^ k := by
  constructor
  · intro h
    refine Nat.eq_of_testBit_eq fun i => ?_
    rw [Nat.testBit_div_two_pow, Nat.testBit_div_two_pow]
    exact h (i + k) (by omega)
  · intro h i hi
    have hbit := congrArg (fun n => n.testBit (i - k)) h
    simp only [Nat.testBit_div_two_pow] at hbit
    rwa [Nat.sub_add_cancel hi] at hbit

theorem mem_region_iff_samePage {k : ℕ} (hk : k < 64) {v w : Word}
    (hw : w.toNat % 2 ^ k = 0) : v ∈ region w (2 ^ k) ↔ SamePage k v w := by
  have hv := v.isLt
  have hw' := w.isLt
  have hpos : 0 < 2 ^ k := Nat.two_pow_pos k
  obtain ⟨j, hj⟩ := Nat.dvd_of_mod_eq_zero hw
  have hdvd : 2 ^ 64 = 2 ^ k * 2 ^ (64 - k) := by
    rw [← pow_add]
    congr 1
    omega
  have hfit : w.toNat + 2 ^ k ≤ 2 ^ 64 := by
    have hlt : 2 ^ k * j < 2 ^ k * 2 ^ (64 - k) := by rwa [← hj, ← hdvd]
    rw [hj, hdvd]
    calc 2 ^ k * j + 2 ^ k = 2 ^ k * (j + 1) := by ring
      _ ≤ 2 ^ k * 2 ^ (64 - k) :=
        Nat.mul_le_mul_left _ (Nat.lt_of_mul_lt_mul_left hlt)
  rw [samePage_iff_div, mem_region, BitVec.toNat_sub]
  have hdiv : w.toNat / 2 ^ k = j := by
    rw [hj, Nat.mul_div_cancel_left _ hpos]
  rw [hdiv, Nat.div_eq_iff hpos]
  have hj' : 2 ^ k * j = j * 2 ^ k := Nat.mul_comm _ _
  omega

theorem Canonical.getLsbD {v : Word} (h : Canonical v) {i : ℕ} (hi : 47 ≤ i)
    (hi' : i < 64) : v.getLsbD i = v.getLsbD 47 := by
  have hbit : ∀ j, 47 ≤ j → j < 64 → v.getLsbD j = (v.setWidth 48).msb := by
    intro j hj hj'
    have heq := congrArg (fun x : Word => x.getLsbD j) h
    simp only [BitVec.getLsbD_signExtend, hj', decide_true, Bool.true_and] at heq
    rw [← heq]
    split_ifs with h48
    · obtain rfl : j = 47 := by omega
      rw [BitVec.msb_eq_getLsbD_last]
    · rfl
  rw [hbit i hi hi', hbit 47 le_rfl (by decide)]

/-- An address that agrees with a canonical one above the page offset is
canonical. -/
theorem Canonical.of_samePage {k : ℕ} {v w : Word} (h : Canonical w)
    (hk : k ≤ 47) (hpage : SamePage k v w) : Canonical v := by
  refine BitVec.eq_of_getLsbD_eq fun i hi => ?_
  rw [BitVec.getLsbD_signExtend, decide_eq_true hi, Bool.true_and]
  split_ifs with h48
  · rw [BitVec.getLsbD_setWidth, decide_eq_true h48, Bool.true_and]
  · rw [BitVec.msb_eq_getLsbD_last, BitVec.getLsbD_setWidth, decide_eq_true
      (by decide), Bool.true_and, hpage i (by omega), hpage 47 hk,
      h.getLsbD (i := i) (by omega) hi]

theorem levelIndex_eq_iff {v w : Word} {k : ℕ} :
    levelIndex v k = levelIndex w k ↔
      ∀ i, 12 + 9 * k ≤ i → i < 21 + 9 * k → v.getLsbD i = w.getLsbD i := by
  constructor
  · intro h i hi hi'
    have hbit := congrArg (fun x : BitVec 9 => x.getLsbD (i - (12 + 9 * k))) h
    simp only [levelIndex, BitVec.getLsbD_extractLsb'] at hbit
    rwa [decide_eq_true (by omega : i - (12 + 9 * k) < 9), Bool.true_and,
      Bool.true_and, Nat.add_sub_cancel' hi] at hbit
  · intro h
    refine BitVec.eq_of_getLsbD_eq fun i hi => ?_
    rw [levelIndex, levelIndex, BitVec.getLsbD_extractLsb',
      BitVec.getLsbD_extractLsb', h _ (by omega) (by omega)]

theorem samePage_large_iff {v w : Word} (hv : Canonical v) (hw : Canonical w) :
    [levelIndex w 3, levelIndex w 2, levelIndex w 1] <+: levelIndices v ↔
      SamePage 21 v w := by
  have hpre : [levelIndex w 3, levelIndex w 2, levelIndex w 1] <+:
      levelIndices v ↔ levelIndex v 3 = levelIndex w 3 ∧
        levelIndex v 2 = levelIndex w 2 ∧ levelIndex v 1 = levelIndex w 1 := by
    rw [levelIndices]
    simp only [List.cons_prefix_cons, List.nil_prefix, and_true, eq_comm]
  rw [hpre, levelIndex_eq_iff, levelIndex_eq_iff, levelIndex_eq_iff]
  constructor
  · rintro ⟨h3, h2, h1⟩ i hi
    by_cases hi' : i < 64
    · rcases Nat.lt_or_ge i 47 with h47 | h47
      · rcases Nat.lt_or_ge i 30 with h30 | h30
        · exact h1 i hi h30
        · rcases Nat.lt_or_ge i 39 with h39 | h39
          · exact h2 i h30 h39
          · exact h3 i h39 (by omega)
      · rw [hv.getLsbD h47 hi', hw.getLsbD h47 hi']
        exact h3 47 (by decide) (by decide)
    · rw [BitVec.getLsbD_of_ge _ _ (by omega), BitVec.getLsbD_of_ge _ _ (by omega)]
  · exact fun h => ⟨fun i hi _ => h i (by omega), fun i hi _ => h i (by omega),
      fun i hi _ => h i (by omega)⟩

theorem samePage_small_iff {v w : Word} (hv : Canonical v) (hw : Canonical w) :
    levelIndices v = levelIndices w ↔ SamePage 12 v w := by
  have hsplit : levelIndices v = levelIndices w ↔
      [levelIndex w 3, levelIndex w 2, levelIndex w 1] <+: levelIndices v ∧
        levelIndex v 0 = levelIndex w 0 := by
    simp only [levelIndices, List.cons_prefix_cons, List.nil_prefix, and_true,
      List.cons.injEq]
    tauto
  rw [hsplit, samePage_large_iff hv hw, levelIndex_eq_iff]
  constructor
  · rintro ⟨hlarge, h0⟩ i hi
    rcases Nat.lt_or_ge i 21 with h21 | h21
    · exact h0 i hi h21
    · exact hlarge i h21
  · exact fun h => ⟨h.mono (by decide), fun i hi _ => h i hi⟩

theorem getLsbD_offsetMask {k : ℕ} (hk : k < 64) (i : ℕ) :
    (offsetMask k).getLsbD i = decide (i < k) := by
  have htwo : (1#64 <<< k).toNat = 2 ^ k := by
    rw [BitVec.toNat_shiftLeft, BitVec.toNat_ofNat, Nat.shiftLeft_eq]
    have hlt : 2 ^ k < 2 ^ 64 := Nat.pow_lt_pow_right (by decide) hk
    rw [Nat.mod_eq_of_lt (by simpa using hlt)]
    simp
  have hmask : (offsetMask k).toNat = 2 ^ k - 1 := by
    have hpos : 0 < 2 ^ k := Nat.two_pow_pos k
    have hlt : 2 ^ k < 2 ^ 64 := Nat.pow_lt_pow_right (by decide) hk
    rw [offsetMask, BitVec.toNat_sub, htwo, BitVec.toNat_ofNat]
    omega
  rw [BitVec.getLsbD, hmask, Nat.testBit_two_pow_sub_one]

theorem and_offsetMask {k : ℕ} (hk : k < 64) {v w : Word}
    (hw : w.toNat % 2 ^ k = 0) (h : SamePage k v w) :
    v &&& offsetMask k = v - w := by
  have hmem := (mem_region_iff_samePage hk hw).2 h
  have hdiv := samePage_iff_div.1 h
  apply BitVec.eq_of_toNat_eq
  have hmod : (v &&& offsetMask k).toNat = v.toNat % 2 ^ k := by
    refine Nat.eq_of_testBit_eq fun i => ?_
    rw [Nat.testBit_mod_two_pow, Bool.and_comm]
    change (v &&& offsetMask k).getLsbD i = _
    rw [BitVec.getLsbD_and, getLsbD_offsetMask hk]
    rfl
  rw [hmod]
  have hv := Nat.div_add_mod v.toNat (2 ^ k)
  have hw' := Nat.div_add_mod w.toNat (2 ^ k)
  rw [hdiv] at hv
  rw [hw, Nat.add_zero] at hw'
  rw [hw'] at hv
  have hlt := v.isLt
  have hlt' := w.isLt
  rw [BitVec.toNat_sub]
  omega

theorem or_offset_eq_add {k : ℕ} (hk : k < 64) (a v : Word) :
    (a &&& ~~~offsetMask k) ||| (v &&& offsetMask k) =
      (a &&& ~~~offsetMask k) + (v &&& offsetMask k) := by
  refine (BitVec.add_eq_or_of_and_eq_zero _ _ ?_).symm
  refine BitVec.eq_of_getLsbD_eq fun i hi => ?_
  simp only [BitVec.getLsbD_and, BitVec.getLsbD_not, getLsbD_offsetMask hk, hi]
  by_cases h : i < k <;> simp [h]

theorem and_not_offsetMask {k : ℕ} (hk : k < 64) {a : Word}
    (ha : a.toNat % 2 ^ k = 0) : a &&& ~~~offsetMask k = a := by
  refine BitVec.eq_of_getLsbD_eq fun i hi => ?_
  rw [BitVec.getLsbD_and, BitVec.getLsbD_not, getLsbD_offsetMask hk,
    decide_eq_true hi, Bool.true_and]
  by_cases h : i < k
  · obtain ⟨j, hj⟩ := Nat.dvd_of_mod_eq_zero ha
    have hzero : a.getLsbD i = false := by
      rw [BitVec.getLsbD, hj, Nat.testBit_two_pow_mul,
        decide_eq_false (by omega), Bool.false_and]
    rw [hzero, Bool.false_and]
  · simp [h]

/-- The translation by the page entry that `map` writes for an aligned page. -/
theorem pageTranslate_pageEntry {k : ℕ} (hk : 12 ≤ k) (hk' : k < 52)
    (e : PageDirectoryEntry) {a flags v w : Word}
    (hmask : flags &&& addressMask = 0) (ha : a.toNat % 2 ^ k = 0)
    (hlt : a.toNat < 2 ^ 52) (hw : w.toNat % 2 ^ k = 0)
    (h : SamePage k v w) :
    pageTranslate k (pageEntry e a flags) v = some (a + (v - w)) := by
  have hlow : ∀ i, i < k → a.getLsbD i = false := by
    intro i hi
    obtain ⟨j, hj⟩ := Nat.dvd_of_mod_eq_zero ha
    rw [BitVec.getLsbD, hj, Nat.testBit_two_pow_mul,
      decide_eq_false (by omega), Bool.false_and]
  have hframe : a &&& addressMask = a := by
    refine isFrameAddress_of_mod ?_ hlt
    have hdvd : (4096 : ℕ) ∣ 2 ^ k := by
      rw [show (4096 : ℕ) = 2 ^ 12 by rfl]
      exact pow_dvd_pow 2 hk
    exact Nat.mod_eq_zero_of_dvd (hdvd.trans (Nat.dvd_of_mod_eq_zero ha))
  have hreserved : pageEntry e a flags &&&
      (offsetMask k &&& ~~~offsetMask 13) = 0 := by
    refine BitVec.eq_of_getLsbD_eq fun i hi => ?_
    rw [BitVec.getLsbD_and, BitVec.getLsbD_and, BitVec.getLsbD_not,
      getLsbD_offsetMask (by omega), getLsbD_offsetMask (by decide),
      getLsbD_pageEntry e hmask]
    by_cases hik : i < k
    · by_cases h13 : i < 13
      · simp [h13]
      · rw [if_pos (by omega), hlow i hik, Bool.false_and]
        exact BitVec.getLsbD_zero.symm
    · simp [hik]
  rw [pageTranslate, if_pos hreserved, pageEntry_and_addressMask e hmask, hframe,
    or_offset_eq_add (by omega), and_not_offsetMask (by omega) ha,
    and_offsetMask (by omega) hw h]

end OptimistOS
