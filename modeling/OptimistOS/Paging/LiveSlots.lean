import OptimistOS.Paging.HashTable

/-!
# Live slots of the size table

What `search`, `deleteKey` and `insert` owe to a key, in terms of the slots that
hold it: a slot is live for a key when it holds the key with a value other than
`-1`. The two lookups never find a slot, so they are right exactly when there is
no single slot to find. `insert` ends at the slot the key hashes to, so it is
right exactly when this slot is free.
-/

namespace OptimistOS

namespace HashTable

/-- The slot holds the key with a value. -/
def Live (ht : HashTable) (key : Addr) (i : Fin TABLE_SIZE) : Prop :=
  (ht.table i).key = key ∧ (ht.table i).value ≠ -1

/-- The slot is in use: it is live for a key other than 0. -/
def Occupied (ht : HashTable) (i : Fin TABLE_SIZE) : Prop :=
  (ht.table i).key ≠ 0 ∧ (ht.table i).value ≠ -1

instance (ht : HashTable) (key : Addr) (i : Fin TABLE_SIZE) :
    Decidable (ht.Live key i) :=
  inferInstanceAs (Decidable (_ ∧ _))

instance (ht : HashTable) (i : Fin TABLE_SIZE) : Decidable (ht.Occupied i) :=
  inferInstanceAs (Decidable (_ ∧ _))

end HashTable

theorem val_step_iterate (i : Fin TABLE_SIZE) (n : ℕ) :
    ((fun i : Fin TABLE_SIZE => i + 1)^[n] i).val = (i.val + n) % TABLE_SIZE := by
  induction n with
  | zero => exact (Nat.mod_eq_of_lt i.isLt).symm
  | succ n ih =>
      have hone : ((1 : Fin TABLE_SIZE) : ℕ) = 1 := rfl
      rw [Function.iterate_succ_apply', Fin.val_add, ih, hone, Nat.mod_add_mod,
        Nat.add_assoc]

theorem step_iterate (i : Fin TABLE_SIZE) :
    (fun i : Fin TABLE_SIZE => i + 1)^[100] i = i := by
  refine Fin.ext ?_
  rw [val_step_iterate, Nat.add_mod_right, Nat.mod_eq_of_lt i.isLt]

theorem insert_eq (ht : HashTable) (key : Addr) (value : BitVec 32) :
    OptimistOS.insert ht key value =
      ⟨Function.update ht.table (hash key) ⟨key, value⟩⟩ := by
  simp only [OptimistOS.insert, step_iterate]

namespace HashTable

theorem table_insert_self (ht : HashTable) (key : Addr) (value : BitVec 32) :
    (OptimistOS.insert ht key value).table (hash key) = ⟨key, value⟩ := by
  rw [insert_eq]
  exact Function.update_self _ _ _

theorem table_insert_of_ne (ht : HashTable) {key : Addr} (value : BitVec 32)
    {i : Fin TABLE_SIZE} (hi : i ≠ hash key) :
    (OptimistOS.insert ht key value).table i = ht.table i := by
  rw [insert_eq]
  exact Function.update_of_ne hi _ _

theorem live_insert_iff {ht : HashTable} {key : Addr} {value : BitVec 32}
    (hnew : ∀ i, ¬ ht.Live key i) (hvalue : value ≠ -1) (i : Fin TABLE_SIZE) :
    (OptimistOS.insert ht key value).Live key i ↔ i = hash key := by
  by_cases hi : i = hash key
  · refine iff_of_true ?_ hi
    rw [Live, hi, table_insert_self]
    exact ⟨rfl, hvalue⟩
  · have hkept := table_insert_of_ne ht value hi
    refine ⟨fun h => absurd ?_ (hnew i), fun h => absurd h hi⟩
    rwa [Live, hkept] at h

/-- `search` and `deleteKey` do what they are for. -/
structure FindsKey (ht : HashTable) (key : Addr) : Prop where
  found : ∀ i, ht.Live key i → (∀ j, ht.Live key j → j = i) →
    search ht key = (ht.table i).value ∧ deleteKey ht key =
      ⟨Function.update ht.table i { ht.table i with value := -1 }⟩
  missing : (∀ i, ¬ ht.Live key i) →
    search ht key = -1 ∧ deleteKey ht key = ht

/-- They do so exactly when the key is not in a single slot. -/
theorem findsKey_iff (ht : HashTable) (key : Addr) :
    ht.FindsKey key ↔ ¬ ∃! i, ht.Live key i := by
  constructor
  · rintro h ⟨i, hi, honly⟩
    have hsearch := (h.found i hi honly).1
    rw [search_eq] at hsearch
    exact hi.2 hsearch.symm
  · intro h
    refine ⟨fun i hi honly => absurd ⟨i, hi, honly⟩ h, fun _ => ?_⟩
    exact ⟨search_eq ht key, deleteKey_eq ht key⟩

/-- `insert` makes one slot live for the key and keeps the others. -/
structure InsertsKey (ht : HashTable) (key : Addr) (value : BitVec 32) :
    Prop where
  live : ∃! i, (OptimistOS.insert ht key value).Live key i
  stored : ∀ i, (OptimistOS.insert ht key value).Live key i →
    ((OptimistOS.insert ht key value).table i).value = value
  kept : ∀ i, ht.Occupied i → (ht.table i).key ≠ key →
    (OptimistOS.insert ht key value).table i = ht.table i

/-- `insert` does what it is for exactly when the slot is free. -/
theorem insertsKey_iff {ht : HashTable} {key : Addr} {value : BitVec 32}
    (hnew : ∀ i, ¬ ht.Live key i) (hvalue : value ≠ -1) :
    ht.InsertsKey key value ↔ ¬ ht.Occupied (hash key) := by
  have hlive := live_insert_iff hnew hvalue
  constructor
  · intro h hused
    have hkey : (ht.table (hash key)).key ≠ key := fun hc =>
      hnew _ ⟨hc, hused.2⟩
    have hkept := h.kept _ hused hkey
    rw [table_insert_self] at hkept
    exact hkey (congrArg KeyValuePair.key hkept).symm
  · intro hfree
    refine ⟨⟨hash key, (hlive _).2 rfl, fun i hi => (hlive i).1 hi⟩,
      fun i hi => ?_, fun i hi _ => ?_⟩
    · rw [(hlive i).1 hi, table_insert_self]
    · refine table_insert_of_ne ht value fun heq => hfree ?_
      exact heq ▸ hi

end HashTable

def oneFrameTable : HashTable :=
  OptimistOS.insert .zero 0xffff800000105000 4096

/-- The size of this frame is not found again. -/
theorem exists_not_findsKey :
    (∃! i, oneFrameTable.Live 0xffff800000105000 i) ∧
      search oneFrameTable 0xffff800000105000 = -1 ∧
      ¬ oneFrameTable.FindsKey 0xffff800000105000 := by
  have hzero : ∀ i, ¬ HashTable.zero.Live 0xffff800000105000 i := by decide
  have hlive := HashTable.live_insert_iff hzero
    (by decide : (4096 : BitVec 32) ≠ -1)
  have hone : ∃! i, oneFrameTable.Live 0xffff800000105000 i :=
    ⟨_, (hlive _).2 rfl, fun i hi => (hlive i).1 hi⟩
  refine ⟨hone, search_eq _ _, fun h => ?_⟩
  obtain ⟨i, hi, honly⟩ := hone
  exact hi.2 ((h.found i hi honly).1.symm.trans (search_eq _ _))

/-- A table with room for the key. -/
theorem insertsKey_iff_zero :
    HashTable.zero.InsertsKey 0xffff800000105000 4096 ↔
      ¬ HashTable.zero.Occupied (hash 0xffff800000105000) :=
  HashTable.insertsKey_iff (by decide) (by decide)

/-- The frame five pages on hashes to the same slot, and its size takes the
place of the first one. -/
theorem exists_not_insertsKey :
    (∃ i, ¬ oneFrameTable.Occupied i) ∧
      (∀ i, ¬ oneFrameTable.Live 0xffff80000010a000 i) ∧
      ¬ oneFrameTable.InsertsKey 0xffff80000010a000 4096 := by
  have hslot : hash 0xffff80000010a000 = hash 0xffff800000105000 := by decide
  have hold : oneFrameTable.table (hash 0xffff800000105000) =
      ⟨0xffff800000105000, 4096⟩ := HashTable.table_insert_self _ _ _
  have hused : oneFrameTable.Occupied (hash 0xffff800000105000) := by
    rw [HashTable.Occupied, hold]
    decide
  have hother : ∀ i ≠ hash 0xffff800000105000,
      oneFrameTable.table i = ⟨0, 0⟩ := fun i hi =>
    HashTable.table_insert_of_ne .zero 4096 hi
  refine ⟨⟨0, ?_⟩, fun i hi => ?_, fun h => ?_⟩
  · rw [HashTable.Occupied, hother 0 (by decide)]
    exact fun h => h.1 rfl
  · by_cases hi' : i = hash 0xffff800000105000
    · rw [hi', HashTable.Live, hold] at hi
      exact absurd hi.1 (by decide)
    · rw [HashTable.Live, hother i hi'] at hi
      exact absurd hi.1 (by decide)
  · have hkept := h.kept _ hused (by rw [hold]; decide)
    rw [← hslot, HashTable.table_insert_self, hslot, hold] at hkept
    exact absurd hkept (by decide)

end OptimistOS
