import Mathlib.Data.BitVec
import Mathlib.Data.Set.Lattice
import Mathlib.Order.CompletePartialOrder
import Mathlib.Tactic.Ring

/-!
# Byte memory

A memory of address width `w` is a total function `BitVec w → BitVec 8`. The
addresses are the machine's own, so address arithmetic wraps and no side
condition is needed to form an access. `region a n` is the set of the `n`
addresses from `a` upwards; a load or a store touches exactly one region, and
two accesses commute as soon as their regions are disjoint. Multi-byte values
are little endian. `fill` is the effect of setting a whole region to one byte.
-/

namespace ByteMemory

abbrev Mem (w : ℕ) := BitVec w → BitVec 8

/-- The `n` addresses from `a` upwards, modulo the size of the address space. -/
def region {w : ℕ} (a : BitVec w) (n : ℕ) : Set (BitVec w) :=
  {x | (x - a).toNat < n}

theorem offset_of_add {w : ℕ} (a : BitVec w) {i : ℕ} (hi : i < 2 ^ w) :
    (a + BitVec.ofNat w i - a).toNat = i := by
  rw [BitVec.add_comm, BitVec.add_sub_cancel, BitVec.toNat_ofNat,
    Nat.mod_eq_of_lt hi]

theorem base_add_offset {w : ℕ} (a x : BitVec w) :
    a + BitVec.ofNat w (x - a).toNat = x := by
  rw [BitVec.ofNat_toNat, BitVec.setWidth_eq, BitVec.add_comm,
    BitVec.sub_add_cancel]

theorem add_ofNat_add_ofNat {w : ℕ} (a : BitVec w) (i j : ℕ) :
    a + BitVec.ofNat w i + BitVec.ofNat w j = a + BitVec.ofNat w (i + j) := by
  rw [BitVec.add_assoc, BitVec.ofNat_add]

theorem add_ofNat_inj {w : ℕ} (a : BitVec w) {i j : ℕ} (hi : i < 2 ^ w)
    (hj : j < 2 ^ w) (h : a + BitVec.ofNat w i = a + BitVec.ofNat w j) :
    i = j := by
  have hsub := congrArg (fun x => (x - a).toNat) h
  simpa only [offset_of_add a hi, offset_of_add a hj] using hsub

theorem mem_region {w : ℕ} (a x : BitVec w) (n : ℕ) :
    x ∈ region a n ↔ (x - a).toNat < n :=
  Iff.rfl

theorem add_ofNat_mem_region {w : ℕ} (a : BitVec w) {i n : ℕ} (hi : i < n)
    (hn : n ≤ 2 ^ w) : a + BitVec.ofNat w i ∈ region a n := by
  rw [mem_region, offset_of_add a (by omega)]
  exact hi

theorem mem_region_iff_exists {w : ℕ} (a x : BitVec w) {n : ℕ}
    (hn : n ≤ 2 ^ w) :
    x ∈ region a n ↔ ∃ i < n, x = a + BitVec.ofNat w i := by
  constructor
  · intro hx
    exact ⟨(x - a).toNat, hx, (base_add_offset a x).symm⟩
  · rintro ⟨i, hi, rfl⟩
    exact add_ofNat_mem_region a hi hn

/-- Two regions given by offsets from one base are disjoint when the first ends
before the second begins and the second does not wrap around to the base. -/
theorem disjoint_region_of_le {w : ℕ} (a : BitVec w) {i n j k : ℕ}
    (h : i + n ≤ j) (hw : j + k ≤ 2 ^ w) :
    Disjoint (region (a + BitVec.ofNat w i) n)
      (region (a + BitVec.ofNat w j) k) := by
  rw [Set.disjoint_left]
  intro x hx hy
  obtain ⟨p, hp, rfl⟩ := (mem_region_iff_exists _ x (by omega)).1 hx
  obtain ⟨q, hq, he⟩ := (mem_region_iff_exists _ _ (by omega)).1 hy
  rw [add_ofNat_add_ofNat, add_ofNat_add_ofNat] at he
  have := add_ofNat_inj a (by omega) (by omega) he
  omega

/-- A region given by an offset lies in every region from the base that is long
enough. -/
theorem region_subset_of_le {w : ℕ} (a : BitVec w) {i n k : ℕ}
    (h : i + n ≤ k) (hw : k ≤ 2 ^ w) :
    region (a + BitVec.ofNat w i) n ⊆ region a k := by
  intro x hx
  obtain ⟨p, hp, rfl⟩ := (mem_region_iff_exists _ x (by omega)).1 hx
  rw [add_ofNat_add_ofNat]
  exact add_ofNat_mem_region a (by omega) hw

@[simp] theorem region_zero {w : ℕ} (a : BitVec w) : region a 0 = ∅ := by
  ext x
  simp [mem_region]

theorem region_mono {w : ℕ} (a : BitVec w) {n k : ℕ} (h : n ≤ k) :
    region a n ⊆ region a k :=
  fun _ hx => lt_of_lt_of_le hx h

/-- The little-endian number in the `n` bytes from `a`. -/
def load {w : ℕ} (m : Mem w) (a : BitVec w) : ℕ → ℕ
  | 0 => 0
  | n + 1 => load m a n + 256 ^ n * (m (a + BitVec.ofNat w n)).toNat

def store {w : ℕ} (m : Mem w) (a : BitVec w) (n v : ℕ) : Mem w :=
  fun x => if (x - a).toNat < n
    then BitVec.ofNat 8 (v / 256 ^ (x - a).toNat) else m x

def fill {w : ℕ} (m : Mem w) (a : BitVec w) (n : ℕ) (b : BitVec 8) : Mem w :=
  fun x => if (x - a).toNat < n then b else m x

theorem store_of_notMem {w : ℕ} (m : Mem w) {a x : BitVec w} {n : ℕ} (v : ℕ)
    (h : x ∉ region a n) : store m a n v x = m x :=
  if_neg h

theorem fill_of_mem {w : ℕ} (m : Mem w) {a x : BitVec w} {n : ℕ} (b : BitVec 8)
    (h : x ∈ region a n) : fill m a n b x = b :=
  if_pos h

theorem fill_of_notMem {w : ℕ} (m : Mem w) {a x : BitVec w} {n : ℕ}
    (b : BitVec 8) (h : x ∉ region a n) : fill m a n b x = m x :=
  if_neg h

theorem load_lt {w : ℕ} (m : Mem w) (a : BitVec w) (n : ℕ) :
    load m a n < 256 ^ n := by
  induction n with
  | zero => simp [load]
  | succ n ih =>
      have hb : (m (a + BitVec.ofNat w n)).toNat + 1 ≤ 256 :=
        (m (a + BitVec.ofNat w n)).isLt
      have hmul := Nat.mul_le_mul_left (256 ^ n) hb
      rw [load, pow_succ]
      rw [Nat.mul_add] at hmul
      omega

theorem load_congr {w : ℕ} {m m' : Mem w} {a : BitVec w} {n : ℕ}
    (hn : n ≤ 2 ^ w) (h : ∀ x ∈ region a n, m x = m' x) :
    load m a n = load m' a n := by
  induction n with
  | zero => rfl
  | succ n ih =>
      have hlast := h _ (add_ofNat_mem_region a (Nat.lt_succ_self n) hn)
      rw [load, load, hlast,
        ih (by omega) fun x hx => h x (region_mono a (Nat.le_succ n) hx)]

theorem load_store_take {w : ℕ} (m : Mem w) (a : BitVec w) {n : ℕ} (v : ℕ)
    (hn : n ≤ 2 ^ w) {k : ℕ} (hk : k ≤ n) :
    load (store m a n v) a k = v % 256 ^ k := by
  induction k with
  | zero => simp [load, Nat.mod_one]
  | succ k ih =>
      have hbyte : store m a n v (a + BitVec.ofNat w k) =
          BitVec.ofNat 8 (v / 256 ^ k) := by
        rw [store, offset_of_add a (by omega), if_pos (by omega)]
      rw [load, ih (by omega), hbyte, BitVec.toNat_ofNat]
      exact Nat.mod_pow_succ.symm

theorem load_store_self {w : ℕ} (m : Mem w) (a : BitVec w) {n : ℕ} (v : ℕ)
    (hn : n ≤ 2 ^ w) : load (store m a n v) a n = v % 256 ^ n :=
  load_store_take m a v hn le_rfl

theorem load_of_forall_zero {w : ℕ} {m : Mem w} {a : BitVec w} {n : ℕ}
    (hn : n ≤ 2 ^ w) (h : ∀ x ∈ region a n, m x = 0) : load m a n = 0 := by
  induction n with
  | zero => rfl
  | succ n ih =>
      have hlast := h _ (add_ofNat_mem_region a (Nat.lt_succ_self n) hn)
      rw [load, hlast, ih (by omega) fun x hx => h x (region_mono a n.le_succ hx)]
      simp

def AgreeOff {w : ℕ} (s : Set (BitVec w)) (m m' : Mem w) : Prop :=
  ∀ x ∉ s, m x = m' x

theorem AgreeOff.refl {w : ℕ} (s : Set (BitVec w)) (m : Mem w) :
    AgreeOff s m m :=
  fun _ _ => rfl

theorem AgreeOff.trans {w : ℕ} {s t : Set (BitVec w)} {m m' m'' : Mem w}
    (h : AgreeOff s m m') (h' : AgreeOff t m' m'') :
    AgreeOff (s ∪ t) m m'' :=
  fun x hx => (h x fun hs => hx (Or.inl hs)).trans
    (h' x fun ht => hx (Or.inr ht))

theorem AgreeOff.mono {w : ℕ} {s t : Set (BitVec w)} {m m' : Mem w}
    (h : AgreeOff s m m') (hst : s ⊆ t) : AgreeOff t m m' :=
  fun x hx => h x fun hs => hx (hst hs)

theorem agreeOff_store {w : ℕ} (m : Mem w) (a : BitVec w) (n v : ℕ) :
    AgreeOff (region a n) m (store m a n v) :=
  fun _ hx => (store_of_notMem m v hx).symm

theorem agreeOff_fill {w : ℕ} (m : Mem w) (a : BitVec w) (n : ℕ)
    (b : BitVec 8) : AgreeOff (region a n) m (fill m a n b) :=
  fun _ hx => (fill_of_notMem m b hx).symm

theorem disjoint_region_of_aligned {w : ℕ} {a b : BitVec w} {n : ℕ}
    (hn : n ∣ 2 ^ w) (ha : a.toNat % n = 0) (hb : b.toNat % n = 0)
    (h : a ≠ b) : Disjoint (region a n) (region b n) := by
  have hmod : ∀ c x : BitVec w, c.toNat % n = 0 → x ∈ region c n →
      c.toNat = x.toNat / n * n := by
    intro c x hc hx
    rw [mem_region] at hx
    have hsum : (c.toNat + (x - c).toNat) % 2 ^ w = x.toNat := by
      rw [← BitVec.toNat_add, BitVec.add_comm, BitVec.sub_add_cancel]
    obtain ⟨k, hk⟩ := Nat.dvd_of_mod_eq_zero hc
    obtain ⟨l, hl⟩ := hn
    have hkl : k < l := by
      have hlt := c.isLt
      rw [hk, hl] at hlt
      exact Nat.lt_of_mul_lt_mul_left hlt
    have hfit : c.toNat + (x - c).toNat < 2 ^ w := by
      rw [hk, hl]
      calc n * k + (x - c).toNat < n * k + n := by omega
        _ = n * (k + 1) := by ring
        _ ≤ n * l := Nat.mul_le_mul_left n hkl
    rw [Nat.mod_eq_of_lt hfit] at hsum
    rw [← hsum, hk, Nat.mul_add_div (by omega), Nat.div_eq_of_lt hx,
      Nat.add_zero, Nat.mul_comm]
  rw [Set.disjoint_left]
  intro x hxa hxb
  exact h (BitVec.eq_of_toNat_eq
    ((hmod a x ha hxa).trans (hmod b x hb hxb).symm))

theorem disjoint_region_add {w : ℕ} {a b : BitVec w} {n k : ℕ} (c : BitVec w)
    (h : Disjoint (region a n) (region b k)) :
    Disjoint (region (a + c) n) (region (b + c) k) := by
  have hmove : ∀ (d x : BitVec w) (l : ℕ),
      x ∈ region (d + c) l → x - c ∈ region d l := by
    intro d x l hx
    rw [mem_region] at hx ⊢
    rwa [BitVec.sub_sub, BitVec.add_comm c d]
  rw [Set.disjoint_left] at h ⊢
  exact fun x hx hx' => h (hmove a x n hx) (hmove b x k hx')

def word {w : ℕ} (m : Mem w) (a : BitVec w) : BitVec 64 :=
  BitVec.ofNat 64 (load m a 8)

def storeWord {w : ℕ} (m : Mem w) (a : BitVec w) (v : BitVec 64) : Mem w :=
  store m a 8 v.toNat

theorem word_storeWord {w : ℕ} (m : Mem w) (a : BitVec w) (v : BitVec 64)
    (hw : 8 ≤ 2 ^ w) : word (storeWord m a v) a = v := by
  rw [word, storeWord, load_store_self m _ _ hw,
    Nat.mod_eq_of_lt (show v.toNat < 256 ^ 8 from v.isLt), BitVec.ofNat_toNat,
    BitVec.setWidth_eq]

theorem word_congr {w : ℕ} {s : Set (BitVec w)} {m m' : Mem w}
    (h : AgreeOff s m m') {a : BitVec w} (hw : 8 ≤ 2 ^ w)
    (hs : Disjoint (region a 8) s) : word m' a = word m a := by
  rw [word, word, load_congr hw fun x hx => h x (Set.disjoint_left.1 hs hx)]

theorem agreeOff_storeWord {w : ℕ} (m : Mem w) (a : BitVec w)
    (v : BitVec 64) : AgreeOff (region a 8) m (storeWord m a v) :=
  agreeOff_store m a 8 _

def modifyWord {w : ℕ} (m : Mem w) (a : BitVec w)
    (f : BitVec 64 → BitVec 64) : Mem w :=
  storeWord m a (f (word m a))

theorem word_modifyWord {w : ℕ} (m : Mem w) (a : BitVec w)
    (f : BitVec 64 → BitVec 64) (hw : 8 ≤ 2 ^ w) :
    word (modifyWord m a f) a = f (word m a) :=
  word_storeWord m a _ hw

theorem agreeOff_modifyWord {w : ℕ} (m : Mem w) (a : BitVec w)
    (f : BitVec 64 → BitVec 64) :
    AgreeOff (region a 8) m (modifyWord m a f) :=
  agreeOff_storeWord m a _

theorem AgreeOff.modifyWord {w : ℕ} {m m' : Mem w} {a : BitVec w}
    (h : AgreeOff (region a 8) m m') (f : BitVec 64 → BitVec 64) :
    AgreeOff (region a 8) m (modifyWord m' a f) := by
  simpa using h.trans (agreeOff_modifyWord m' a f)

end ByteMemory
