import OptimistOS.Foundation.Layout

/-!
# Members that two memories share

Two memories that differ may still have the same members of some records. The
records lie at addresses `A` apart from one another. A write of one value to
one member in both memories adds that member to the ones they share
(`SameOn.set`), whatever they held before, so a sequence of writes can be
followed in both memories at once: what is read on the way is a shared member.
-/

namespace ByteMemory

theorem load_div_mod {w : ℕ} (m : Mem w) (a : BitVec w) {i n : ℕ} (hi : i < n) :
    load m a n / 256 ^ i % 256 = (m (a + BitVec.ofNat w i)).toNat := by
  induction n with
  | zero => exact absurd hi (by omega)
  | succ n ih =>
      rw [load]
      rcases Nat.lt_or_ge i n with hlt | hge
      · obtain ⟨k, rfl⟩ := Nat.exists_eq_add_of_lt hlt
        rw [show 256 ^ (i + k + 1) * (m (a + BitVec.ofNat w (i + k + 1))).toNat =
            256 ^ i * (256 * (256 ^ k *
              (m (a + BitVec.ofNat w (i + k + 1))).toNat)) by ring,
          Nat.add_mul_div_left _ _ (Nat.pow_pos (by decide)),
          Nat.add_mul_mod_self_left]
        exact ih hlt
      · obtain rfl : i = n := by omega
        rw [Nat.add_mul_div_left _ _ (Nat.pow_pos (by decide)),
          Nat.div_eq_of_lt (load_lt m a i), Nat.zero_add]
        exact Nat.mod_eq_of_lt (m _).isLt

theorem store_load {w : ℕ} (m : Mem w) (a : BitVec w) (n : ℕ) :
    store m a n (load m a n) = m := by
  funext x
  by_cases hx : (x - a).toNat < n
  · rw [store, if_pos hx]
    refine BitVec.eq_of_toNat_eq ?_
    rw [BitVec.toNat_ofNat]
    refine (load_div_mod m a hx).trans ?_
    rw [base_add_offset]
  · exact if_neg hx

namespace Layout

variable {w : ℕ} {F : Type*}

/-- The records at the addresses `A` do not overlap. -/
def Apart (L : Layout w F) (A : Set (BitVec w)) : Prop :=
  ∀ p ∈ A, ∀ q ∈ A, p ≠ q → Disjoint (L.recordRegion p) (L.recordRegion q)

/-- The memories `m` and `m'` have the same members `S`: the fields `x.2` of the
records at `x.1`, all of them records at `A`. -/
structure SameOn (L : Layout w F) (A : Set (BitVec w))
    (S : Set (BitVec w × F)) (m m' : Mem w) : Prop where
  mem : ∀ x ∈ S, x.1 ∈ A
  same : ∀ x ∈ S, L.get m' x.1 x.2 = L.get m x.1 x.2

variable {L : Layout w F} {A : Set (BitVec w)} {S T : Set (BitVec w × F)}
  {m m' m'' : Mem w} {p : BitVec w} {f : F}

theorem SameOn.refl (hS : ∀ x ∈ S, x.1 ∈ A) (m : Mem w) :
    L.SameOn A S m m :=
  ⟨hS, fun _ _ => rfl⟩

theorem SameOn.mono (h : L.SameOn A S m m') (hT : T ⊆ S) :
    L.SameOn A T m m' :=
  ⟨fun x hx => h.mem x (hT hx), fun x hx => h.same x (hT hx)⟩

theorem SameOn.union (h : L.SameOn A S m m') (h' : L.SameOn A T m m') :
    L.SameOn A (S ∪ T) m m' :=
  ⟨fun x hx => hx.elim (h.mem x) (h'.mem x),
    fun x hx => hx.elim (h.same x) (h'.same x)⟩

theorem SameOn.get (h : L.SameOn A S m m') (hp : (p, f) ∈ S) :
    L.get m' p f = L.get m p f :=
  h.same (p, f) hp

theorem get_set_eq (L : Layout w F) (m m' : Mem w) (p : BitVec w) (f : F)
    (v : BitVec w) : L.get (L.set m' p f v) p f = L.get (L.set m p f v) p f := by
  rw [Layout.get, Layout.get, Layout.set, Layout.set,
    load_store_self m' _ _ (L.width_le f), load_store_self m _ _ (L.width_le f)]

theorem set_get_self (L : Layout w F) (m : Mem w) (p : BitVec w) (f : F)
    (hf : 256 ^ L.width f ≤ 2 ^ w) : L.set m p f (L.get m p f) = m := by
  have hload := load_lt m (p + BitVec.ofNat w (L.offset f)) (L.width f)
  rw [Layout.set, Layout.get, BitVec.toNat_ofNat, Nat.mod_eq_of_lt (by omega),
    store_load]

theorem get_set_of_apart (hA : L.Apart A) {q : BitVec w} {g : F} (m : Mem w)
    (v : BitVec w) (hp : p ∈ A) (hq : q ∈ A) (hne : (q, g) ≠ (p, f)) :
    L.get (L.set m p f v) q g = L.get m q g := by
  by_cases hqp : q = p
  · subst hqp
    exact L.get_set_of_ne m q v fun hg => hne (by rw [hg])
  · exact L.get_set_of_disjoint L m g f v (hA q hq p hp hqp)

theorem SameOn.set (hA : L.Apart A) (h : L.SameOn A S m m') (hp : p ∈ A)
    (f : F) (v : BitVec w) :
    L.SameOn A (insert (p, f) S) (L.set m p f v) (L.set m' p f v) := by
  refine ⟨fun x hx => ?_, fun x hx => ?_⟩
  · rcases Set.mem_insert_iff.1 hx with rfl | hx
    · exact hp
    · exact h.mem x hx
  · by_cases hsame : x = (p, f)
    · obtain ⟨rfl, rfl⟩ := Prod.mk.inj hsame
      exact L.get_set_eq m m' _ _ v
    have hmem := (Set.mem_insert_iff.1 hx).resolve_left hsame
    rw [get_set_of_apart hA m' v hp (h.mem x hmem) hsame,
      get_set_of_apart hA m v hp (h.mem x hmem) hsame]
    exact h.same x hmem

theorem SameOn.congr {s : Set (BitVec w)} (h : L.SameOn A S m m')
    (hm : AgreeOff s m' m'')
    (hS : ∀ x ∈ S, Disjoint (L.recordRegion x.1) s) : L.SameOn A S m m'' :=
  ⟨h.mem, fun x hx =>
    (L.get_congr hm x.1 x.2 (hS x hx)).trans (h.same x hx)⟩

end Layout

end ByteMemory
