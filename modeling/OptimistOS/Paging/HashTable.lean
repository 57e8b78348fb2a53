import OptimistOS.Boot.BootInfo

/-!
# The size table

`hashtable.cpp`, the open-addressed table in which the frame allocator keeps the
size of every frame it hands out. `insert` steps the index `TABLE_SIZE` times
and so always writes the slot the key hashes to. The loop of `search` and
`deleteKey` keeps going while its counter is below 100, and its hundredth step
brings the index back to where it started: `probe_eq_none` shows that it never
stops at a slot.
-/

namespace OptimistOS

abbrev TABLE_SIZE : ℕ := 100

/-- `KeyValuePair`; `value` is an `int`. -/
structure KeyValuePair where
  key : Word
  value : BitVec 32
  deriving DecidableEq, Repr

structure HashTable where
  table : Fin TABLE_SIZE → KeyValuePair

/-- The zero-initialised `addressSizeHT`. -/
def HashTable.zero : HashTable := ⟨fun _ => ⟨0, 0⟩⟩

def hash (key : Addr) : Fin TABLE_SIZE :=
  let hashValue : Word := ((key >>> 16) ^^^ key) * 0x45d9f3b
  let hashValue : Word := ((hashValue >>> 16) ^^^ hashValue) * 0x45d9f3b
  let hashValue : Word := (hashValue >>> 16) ^^^ hashValue
  ⟨hashValue.toNat % TABLE_SIZE, Nat.mod_lt _ (by decide)⟩

/-- `insert`: the index is stepped in a loop of 100 iterations and the slot it
ends at is overwritten. -/
def insert (ht : HashTable) (key : Addr) (value : BitVec 32) : HashTable :=
  let index := (fun i : Fin TABLE_SIZE => i + 1)^[100] (hash key)
  ⟨Function.update ht.table index ⟨key, value⟩⟩

/-- The loop of `search` and `deleteKey` at `index`, in its iteration `i`: the
slot at which the loop stops, or `none` once the index is back at
`originalIndex`. That happens within `TABLE_SIZE` steps, which bounds the
recursion. -/
def probe (ht : HashTable) (key : Addr) (originalIndex : Fin TABLE_SIZE) :
    ℕ → Fin TABLE_SIZE → ℕ → Option (Fin TABLE_SIZE)
  | 0, _, _ => none
  | steps + 1, index, i =>
      if (ht.table index).key ≠ key ∨ (ht.table index).value = -1 ∨
          i < 100 then
        if index + 1 = originalIndex then none
        else probe ht key originalIndex steps (index + 1) (i + 1)
      else some index

/-- `search`; `-1` is the answer for a key that is not found. -/
def search (ht : HashTable) (key : Addr) : BitVec 32 :=
  match probe ht key (hash key) TABLE_SIZE (hash key) 0 with
  | none => -1
  | some index => (ht.table index).value

def deleteKey (ht : HashTable) (key : Addr) : HashTable :=
  match probe ht key (hash key) TABLE_SIZE (hash key) 0 with
  | none => ht
  | some index =>
      ⟨Function.update ht.table index { ht.table index with value := -1 }⟩

/-- The loop runs until its index is back at `originalIndex`: its counter only
reaches 100 when the index does. -/
theorem probe_eq_none (ht : HashTable) (key : Addr)
    (originalIndex index : Fin TABLE_SIZE) (steps i : ℕ)
    (h : steps + i = TABLE_SIZE) :
    probe ht key originalIndex steps index i = none := by
  induction steps generalizing index i with
  | zero => rfl
  | succ steps ih =>
      have hi : i < 100 := by
        simp only [TABLE_SIZE] at h
        omega
      rw [probe, if_pos (Or.inr (Or.inr hi))]
      by_cases hback : index + 1 = originalIndex
      · rw [if_pos hback]
      · rw [if_neg hback]
        exact ih (index + 1) (i + 1) (by omega)

theorem search_eq (ht : HashTable) (key : Addr) : search ht key = -1 := by
  rw [search, probe_eq_none ht key (hash key) (hash key) TABLE_SIZE 0 rfl]

theorem deleteKey_eq (ht : HashTable) (key : Addr) :
    deleteKey ht key = ht := by
  rw [deleteKey, probe_eq_none ht key (hash key) (hash key) TABLE_SIZE 0 rfl]

end OptimistOS
