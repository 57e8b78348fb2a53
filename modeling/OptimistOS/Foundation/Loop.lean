import OptimistOS.Foundation.Machine

/-!
# Counting loops

`forLoop body bound step fuel i` is the loop that runs `body` for `i`, `i + step`,
and so on, as long as the counter is below `bound`. The counter is a machine
word, so it may wrap around.
-/

namespace ByteMemory

namespace Code

def forLoop {w n : ℕ} {γ : Type} (body : BitVec n → Code w γ Unit)
    (bound step : BitVec n) : ℕ → BitVec n → Code w γ Unit
  | 0, i => if i < bound then throw .fuel else return ()
  | fuel + 1, i =>
      if i < bound then do
        body i
        forLoop body bound step fuel (i + step)
      else
        return ()

variable {w n : ℕ} {γ : Type} {body : BitVec n → Code w γ Unit}
  {bound step : BitVec n}

theorem run_forLoop_of_le {i : BitVec n} (h : ¬ i < bound) (fuel : ℕ)
    (s : Machine w γ) :
    (forLoop body bound step fuel i).run s = .ok () s := by
  cases fuel <;> simp only [forLoop, if_neg h] <;> rfl

theorem run_forLoop_of_lt {i : BitVec n} (h : i < bound) {fuel : ℕ}
    {s t : Machine w γ} (hbody : (body i).run s = .ok () t) :
    (forLoop body bound step (fuel + 1) i).run s =
      (forLoop body bound step fuel (i + step)).run t := by
  rw [forLoop, if_pos h, run_bind_of_ok hbody]

theorem returns_forLoop {excuse : Prop} (I : ℕ → Machine w γ → Prop) {k : ℕ}
    {i : BitVec n} (hlt : ∀ j < k, i + BitVec.ofNat n j * step < bound)
    (hend : ¬ i + BitVec.ofNat n k * step < bound)
    (hbody : ∀ j < k, ∀ s, I j s →
      (body (i + BitVec.ofNat n j * step)).Returns s excuse fun _ => I (j + 1))
    {fuel : ℕ} (hfuel : k ≤ fuel) {s : Machine w γ} (hs : I 0 s) :
    (forLoop body bound step fuel i).Returns s excuse fun _ => I k := by
  have hrest : ∀ r j, j + r = k → ∀ fuel, r ≤ fuel → ∀ s, I j s →
      (forLoop body bound step fuel (i + BitVec.ofNat n j * step)).Returns s
        excuse fun _ => I k := by
    intro r
    induction r with
    | zero =>
        rintro j rfl fuel - s hj
        exact .of_ok (run_forLoop_of_le hend fuel s) hj
    | succ r ih =>
        intro j hj fuel hfuel s hs
        obtain ⟨fuel, rfl⟩ : ∃ m, fuel = m + 1 := ⟨fuel - 1, by omega⟩
        have hnext : i + BitVec.ofNat n j * step + step =
            i + BitVec.ofNat n (j + 1) * step := by
          rw [BitVec.ofNat_add, BitVec.add_mul, BitVec.add_assoc]
          congr 2
          exact (BitVec.one_mul step).symm
        rw [forLoop, if_pos (hlt j (by omega)), hnext]
        exact (hbody j (by omega) s hs).bind fun _ t ht =>
          ih (j + 1) (by omega) fuel (by omega) t ht
  have hstart : i + BitVec.ofNat n 0 * step = i := by simp
  have h := hrest k 0 (Nat.zero_add k) fuel hfuel s hs
  rwa [hstart] at h

theorem forLoop_invariant (I : Machine w γ → Prop)
    (hbody : ∀ i s t, i < bound → I s → (body i).run s = .ok () t → I t)
    {fuel : ℕ} {i : BitVec n} {s t : Machine w γ} (hs : I s)
    (h : (forLoop body bound step fuel i).run s = .ok () t) : I t := by
  induction fuel generalizing i s with
  | zero =>
      by_cases hi : i < bound
      · rw [forLoop, if_pos hi] at h
        exact absurd h (by simp)
      · rw [run_forLoop_of_le hi, EStateM.Result.ok.injEq] at h
        exact h.2 ▸ hs
  | succ fuel ih =>
      by_cases hi : i < bound
      · rw [forLoop, if_pos hi] at h
        obtain ⟨_, u, hu, h⟩ := run_bind_eq_ok.1 h
        exact ih (hbody i s u hi hs hu) h
      · rw [run_forLoop_of_le hi, EStateM.Result.ok.injEq] at h
        exact h.2 ▸ hs

end Code

end ByteMemory
