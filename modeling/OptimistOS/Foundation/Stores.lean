import OptimistOS.Foundation.Layout

/-!
# Lists of stores

What a piece of code writes, as the list of its stores in the order in which
they are made (`Store`, `applyStores`). The list keeps the addresses that are
written (`storedBytes`), also those where a store happens to change nothing.
-/

namespace ByteMemory

variable {w : ℕ}

structure Store (w : ℕ) where
  addr : BitVec w
  width : ℕ
  value : ℕ

namespace Store

def apply (m : Mem w) (e : Store w) : Mem w := store m e.addr e.width e.value

def bytes (e : Store w) : Set (BitVec w) := region e.addr e.width

end Store

def applyStores (m : Mem w) (l : List (Store w)) : Mem w :=
  l.foldl Store.apply m

def storedBytes (l : List (Store w)) : Set (BitVec w) :=
  {x | ∃ e ∈ l, x ∈ e.bytes}

theorem applyStores_append (m : Mem w) (l k : List (Store w)) :
    applyStores m (l ++ k) = applyStores (applyStores m l) k :=
  List.foldl_append

theorem storedBytes_append (l k : List (Store w)) :
    storedBytes (l ++ k) = storedBytes l ∪ storedBytes k := by
  ext x
  simp only [storedBytes, List.mem_append, Set.mem_ofPred_eq, Set.mem_union]
  constructor
  · rintro ⟨e, he | he, hx⟩
    · exact Or.inl ⟨e, he, hx⟩
    · exact Or.inr ⟨e, he, hx⟩
  · rintro (⟨e, he, hx⟩ | ⟨e, he, hx⟩)
    · exact ⟨e, Or.inl he, hx⟩
    · exact ⟨e, Or.inr he, hx⟩

@[simp] theorem storedBytes_nil : storedBytes ([] : List (Store w)) = ∅ := by
  simp [storedBytes]

@[simp] theorem storedBytes_cons (e : Store w) (l : List (Store w)) :
    storedBytes (e :: l) = e.bytes ∪ storedBytes l := by
  ext x
  simp [storedBytes]

theorem applyStores_of_notMem {m : Mem w} {l : List (Store w)} {x : BitVec w}
    (h : x ∉ storedBytes l) : applyStores m l x = m x := by
  induction l generalizing m with
  | nil => rfl
  | cons e l ih =>
      rw [storedBytes_cons, Set.mem_union, not_or] at h
      exact (ih h.2).trans (store_of_notMem m e.value h.1)

theorem load_applyStores_of_disjoint {m : Mem w} {l : List (Store w)}
    {a : BitVec w} {n : ℕ} (hn : n ≤ 2 ^ w)
    (h : ∀ e ∈ l, Disjoint e.bytes (region a n)) :
    load (applyStores m l) a n = load m a n := by
  apply load_congr hn
  intro x hx
  apply applyStores_of_notMem
  rintro ⟨e, he, hxe⟩
  exact Set.disjoint_left.1 (h e he) hxe hx

/-- A value that is stored is read back, if the other stores leave it alone or
store it as well. -/
theorem load_applyStores_of_mem {m : Mem w} {l : List (Store w)} {e : Store w}
    (hn : e.width ≤ 2 ^ w) (hmem : e ∈ l)
    (h : ∀ e' ∈ l, e' = e ∨ Disjoint e'.bytes e.bytes) :
    load (applyStores m l) e.addr e.width = e.value % 256 ^ e.width := by
  induction l using List.reverseRecOn with
  | nil => exact absurd hmem List.not_mem_nil
  | append_singleton l e' ih =>
      rw [applyStores_append]
      by_cases hlast : e' = e
      · subst hlast
        exact load_store_self _ _ _ hn
      · have hdisjoint := (h e' (List.mem_append_right l
          List.mem_cons_self)).resolve_left hlast
        rw [load_applyStores_of_disjoint hn fun d hd => by
          rwa [List.mem_singleton.1 hd]]
        have hmem' : e ∈ l := (List.mem_append.1 hmem).resolve_right fun hd =>
          hlast (List.mem_singleton.1 hd).symm
        exact ih hmem' fun d hd => h d (List.mem_append_left _ hd)

def byteStores (a : BitVec w) (n v : ℕ) : List (Store w) :=
  (List.range n).map fun i => ⟨a + BitVec.ofNat w i, 1, v⟩

theorem storedBytes_byteStores (a : BitVec w) {n : ℕ} (hn : n ≤ 2 ^ w) (v : ℕ) :
    storedBytes (byteStores a n v) = region a n := by
  ext x
  rw [mem_region_iff_exists a x hn]
  simp only [storedBytes, byteStores, List.mem_map, List.mem_range,
    Set.mem_ofPred_eq]
  constructor
  · rintro ⟨_, ⟨i, hi, rfl⟩, hx⟩
    obtain ⟨j, hj, rfl⟩ := (mem_region_iff_exists _ x
      (Nat.one_le_two_pow)).1 hx
    obtain rfl : j = 0 := by omega
    exact ⟨i, hi, by simp⟩
  · rintro ⟨i, hi, rfl⟩
    refine ⟨_, ⟨i, hi, rfl⟩, ?_⟩
    rw [Store.bytes, mem_region_iff_exists _ _ (Nat.one_le_two_pow)]
    exact ⟨0, by omega, by simp⟩

namespace Layout

variable {F : Type*}

def fieldStore (L : Layout w F) (p : BitVec w) (f : F) (v : BitVec w) :
    Store w :=
  ⟨p + BitVec.ofNat w (L.offset f), L.width f, v.toNat⟩

@[simp] theorem bytes_fieldStore (L : Layout w F) (p : BitVec w) (f : F)
    (v : BitVec w) : (L.fieldStore p f v).bytes = L.fieldRegion p f := rfl

end Layout

end ByteMemory
