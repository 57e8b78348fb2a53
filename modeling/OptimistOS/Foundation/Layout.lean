import OptimistOS.Foundation.Bytes

/-!
# Records in byte memory

A `Layout w F` places the fields `F` of a record at byte offsets from the
record's address. It carries the proofs that every field lies inside the record
and that distinct fields do not overlap, so a field written is the field read
back and no other field of the same record moves. Records at disjoint regions,
of one layout or of two, do not see each other's writes.
-/

namespace ByteMemory

/-- The placement of the fields `F` of a record, in a memory of address width
`w`. -/
structure Layout (w : ℕ) (F : Type*) where
  /-- The byte offset of a field from the address of the record. -/
  offset : F → ℕ
  /-- The number of bytes of a field. -/
  width : F → ℕ
  /-- The number of bytes of the record. -/
  sizeof : ℕ
  fits : ∀ f, offset f + width f ≤ sizeof
  apart : ∀ f g, f ≠ g →
    offset f + width f ≤ offset g ∨ offset g + width g ≤ offset f
  sizeof_le : sizeof ≤ 2 ^ w

namespace Layout

def fieldRegion {w : ℕ} {F : Type*} (L : Layout w F) (p : BitVec w) (f : F) :
    Set (BitVec w) :=
  region (p + BitVec.ofNat w (L.offset f)) (L.width f)

def recordRegion {w : ℕ} {F : Type*} (L : Layout w F) (p : BitVec w) :
    Set (BitVec w) :=
  region p L.sizeof

/-- The field `f` of the record at `p`, zero-extended or cut to a machine word. -/
def get {w : ℕ} {F : Type*} (L : Layout w F) (m : Mem w) (p : BitVec w)
    (f : F) : BitVec w :=
  BitVec.ofNat w (load m (p + BitVec.ofNat w (L.offset f)) (L.width f))

def set {w : ℕ} {F : Type*} (L : Layout w F) (m : Mem w) (p : BitVec w)
    (f : F) (v : BitVec w) : Mem w :=
  store m (p + BitVec.ofNat w (L.offset f)) (L.width f) v.toNat

theorem fieldRegion_subset {w : ℕ} {F : Type*} (L : Layout w F)
    (p : BitVec w) (f : F) : L.fieldRegion p f ⊆ L.recordRegion p :=
  region_subset_of_le p (L.fits f) L.sizeof_le

theorem width_le {w : ℕ} {F : Type*} (L : Layout w F) (f : F) :
    L.width f ≤ 2 ^ w := by
  have hfit := L.fits f
  have hsize := L.sizeof_le
  omega

theorem disjoint_fieldRegion {w : ℕ} {F : Type*} (L : Layout w F)
    (p : BitVec w) {f g : F} (h : f ≠ g) :
    Disjoint (L.fieldRegion p f) (L.fieldRegion p g) := by
  have hf := L.fits f
  have hg := L.fits g
  have hsize := L.sizeof_le
  rcases L.apart f g h with hle | hle
  · exact disjoint_region_of_le p hle (by omega)
  · exact (disjoint_region_of_le p hle (by omega)).symm

theorem agreeOff_set_field {w : ℕ} {F : Type*} (L : Layout w F) (m : Mem w)
    (p : BitVec w) (f : F) (v : BitVec w) :
    AgreeOff (L.fieldRegion p f) m (L.set m p f v) :=
  agreeOff_store m _ _ _

theorem agreeOff_set {w : ℕ} {F : Type*} (L : Layout w F) (m : Mem w)
    (p : BitVec w) (f : F) (v : BitVec w) :
    AgreeOff (L.recordRegion p) m (L.set m p f v) :=
  (L.agreeOff_set_field m p f v).mono (L.fieldRegion_subset p f)

theorem get_set_self {w : ℕ} {F : Type*} (L : Layout w F) (m : Mem w)
    (p : BitVec w) (f : F) {v : BitVec w} (hv : v.toNat < 256 ^ L.width f) :
    L.get (L.set m p f v) p f = v := by
  rw [get, set, load_store_self m _ _ (L.width_le f), Nat.mod_eq_of_lt hv,
    BitVec.ofNat_toNat, BitVec.setWidth_eq]

theorem get_congr_field {w : ℕ} {F : Type*} (L : Layout w F)
    {s : Set (BitVec w)} {m m' : Mem w} (h : AgreeOff s m m') (p : BitVec w)
    (f : F) (hs : Disjoint (L.fieldRegion p f) s) :
    L.get m' p f = L.get m p f := by
  have hload : load m' (p + BitVec.ofNat w (L.offset f)) (L.width f) =
      load m (p + BitVec.ofNat w (L.offset f)) (L.width f) :=
    load_congr (L.width_le f) fun x hx =>
      (h x (Set.disjoint_left.1 hs hx)).symm
  rw [get, get, hload]

theorem get_congr {w : ℕ} {F : Type*} (L : Layout w F)
    {s : Set (BitVec w)} {m m' : Mem w} (h : AgreeOff s m m') (p : BitVec w)
    (f : F) (hs : Disjoint (L.recordRegion p) s) :
    L.get m' p f = L.get m p f :=
  L.get_congr_field h p f (hs.mono_left (L.fieldRegion_subset p f))

theorem get_set_of_ne {w : ℕ} {F : Type*} (L : Layout w F) (m : Mem w)
    (p : BitVec w) {f g : F} (v : BitVec w) (h : f ≠ g) :
    L.get (L.set m p g v) p f = L.get m p f :=
  L.get_congr_field (L.agreeOff_set_field m p g v) p f
    (L.disjoint_fieldRegion p h)

/-- Writing a record leaves the records of disjoint regions as they were, also
those of another layout. -/
theorem get_set_of_disjoint {w : ℕ} {F G : Type*} (L : Layout w F)
    (K : Layout w G) (m : Mem w) {p q : BitVec w} (f : F) (g : G)
    (v : BitVec w) (h : Disjoint (L.recordRegion p) (K.recordRegion q)) :
    L.get (K.set m q g v) p f = L.get m p f :=
  L.get_congr (K.agreeOff_set m q g v) p f h

theorem get_of_forall_zero {w : ℕ} {F : Type*} (L : Layout w F) {m : Mem w}
    {p : BitVec w} (h : ∀ x ∈ L.recordRegion p, m x = 0) (f : F) :
    L.get m p f = 0 := by
  rw [get, load_of_forall_zero (L.width_le f) fun x hx =>
    h x (L.fieldRegion_subset p f hx)]
  rfl

theorem get_toNat_lt {w : ℕ} {F : Type*} (L : Layout w F) (m : Mem w)
    (p : BitVec w) (f : F) : (L.get m p f).toNat < 256 ^ L.width f := by
  rw [get, BitVec.toNat_ofNat]
  exact lt_of_le_of_lt (Nat.mod_le _ _) (load_lt m _ _)

/-- The memory after the fields `fs` of the record at `p` were set to the values
`v`, the first one first. -/
def write {w : ℕ} {F : Type*} (L : Layout w F) (p : BitVec w)
    (v : F → BitVec w) (fs : List F) (m : Mem w) : Mem w :=
  fs.foldl (fun m f => L.set m p f (v f)) m

theorem get_write {w : ℕ} {F : Type*} (L : Layout w F) (p : BitVec w)
    {v : F → BitVec w} {fs : List F} (m : Mem w) {f : F} (hf : f ∈ fs)
    (hv : (v f).toNat < 256 ^ L.width f) : L.get (L.write p v fs m) p f = v f := by
  induction fs using List.reverseRecOn with
  | nil => exact absurd hf List.not_mem_nil
  | append_singleton fs g ih =>
      rw [write, List.foldl_concat]
      by_cases hg : f = g
      · rw [← hg]
        exact L.get_set_self _ p f hv
      · rw [L.get_set_of_ne _ p _ hg]
        exact ih ((List.mem_append.1 hf).resolve_right (by simpa using hg))

theorem agreeOff_write {w : ℕ} {F : Type*} (L : Layout w F) (p : BitVec w)
    (v : F → BitVec w) (fs : List F) (m : Mem w) :
    AgreeOff (L.recordRegion p) m (L.write p v fs m) := by
  induction fs generalizing m with
  | nil => exact .refl _ _
  | cons f fs ih =>
      exact ((L.agreeOff_set m p f (v f)).trans (ih _)).mono
        (Set.union_self _).subset

end Layout

end ByteMemory
