import OptimistOS.Acpi.Acpi

/-!
# Which entries `acpiFindTable` reads

The entries of a root table of `L` bytes lie between byte 36, behind the `SDT`
record, and byte `L`. `acpiFindTable` computes their number from `L - 36` without
asking whether the subtraction is possible. It stays in the table for every `L`
from 36 on, also if the last entry is cut off. For a smaller `L` the difference
wraps around, the number of entries is almost `2 ^ 32`, and the very first entry
lies behind the table.
-/

namespace OptimistOS

open ByteMemory ByteMemory.Code

variable {τ : Type} {s : Machine 64 (AcpiGlobals τ)} {length : Word}

/-- The bytes of `slot` lie behind the `SDT` record at `table`, in the first
`length` bytes of the table. -/
def InTable (table : Addr) (length : ℕ) (slot : Addr × ℕ) : Prop :=
  36 ≤ (slot.1 - table).toNat ∧ (slot.1 - table).toNat + slot.2 ≤ length

/-- A call of `acpiFindTable` reads entries inside the root table only, and none
if the table has no room for them. The call may end by a fault, and there is no
table if its `length` field cannot be read. -/
def ReadsInTable (s : Machine 64 (AcpiGlobals τ)) (name : ℕ → BitVec 8) : Prop :=
  ∀ length, rootLength s = some length →
    ∃ rs, ((acpiFindTable name).final s).globals.entryReads =
        rs ++ s.globals.entryReads ∧
      (∀ r ∈ rs, InTable s.globals.rootTable length.toNat r) ∧
      (length.toNat ≤ 36 → rs = [])

def AcpiGlobals.entryWidth (g : AcpiGlobals τ) : ℕ :=
  if g.rootRSDT ≠ 0 then 4 else 8

theorem wordAt_eq_some {p : Addr} {n : ℕ} {v : Word} :
    wordAt s p n = some v ↔
      (∀ i < n, s.globals.Readable (p + BitVec.ofNat 64 i)) ∧
        BitVec.ofNat 64 (load s.mem p n) = v := by
  rw [wordAt]
  split_ifs with h
  · simp only [Option.some.injEq, and_iff_right h]
  · simp only [h, false_and]

theorem rootLength_lt (h : rootLength s = some length) :
    length.toNat < 2 ^ 32 := by
  obtain ⟨-, rfl⟩ := wordAt_eq_some.1 h
  exact sdtLayout.get_toNat_lt s.mem s.globals.rootTable .length

theorem toNat_entryCount {length bytes : Word} (h : 36 ≤ length.toNat)
    (hlt : length.toNat < 2 ^ 32) :
    (entryCount length bytes).toNat = (length.toNat - 36) / bytes.toNat := by
  have hsub : (length - sizeofSDT).toNat = length.toNat - 36 :=
    BitVec.toNat_sub_of_le (BitVec.le_def.2 h)
  rw [entryCount, BitVec.toNat_setWidth, BitVec.toNat_udiv, hsub]
  exact Nat.mod_eq_of_lt (lt_of_le_of_lt (Nat.div_le_self _ _) (by omega))

theorem entryCount_pos {length bytes : Word} (h : length.toNat < 36)
    (hbytes : bytes = 4 ∨ bytes = 8) : 0 < (entryCount length bytes).toNat := by
  have hsub : (length - sizeofSDT).toNat = 2 ^ 64 - 36 + length.toNat := by
    rw [BitVec.toNat_sub]
    have hsize : sizeofSDT.toNat = 36 := by decide
    omega
  rw [entryCount, BitVec.toNat_setWidth, BitVec.toNat_udiv, hsub]
  rcases hbytes with rfl | rfl
  · change 0 < (2 ^ 64 - 36 + length.toNat) / 4 % 2 ^ 32
    omega
  · change 0 < (2 ^ 64 - 36 + length.toNat) / 8 % 2 ^ 32
    omega

theorem toNat_index {j : ℕ} (hj : j < 2 ^ 31) :
    ((BitVec.ofNat 32 j).setWidth 64).toNat = j ∧
      ((BitVec.ofNat 32 j).signExtend 64).toNat = j := by
  have hnat : (BitVec.ofNat 32 j).toNat = j := by
    rw [BitVec.toNat_ofNat, Nat.mod_eq_of_lt (by omega)]
  have hset : ((BitVec.ofNat 32 j).setWidth 64).toNat = j := by
    rw [BitVec.toNat_setWidth_of_le (by decide), hnat]
  have hmsb : (BitVec.ofNat 32 j).msb = false := by
    rw [BitVec.msb_eq_false_iff_two_mul_lt, hnat]
    omega
  exact ⟨hset, by rwa [BitVec.signExtend_eq_setWidth_of_msb_false hmsb]⟩

theorem toNat_rootSlot_sub (g : AcpiGlobals τ) {j : ℕ} (hj : j < 2 ^ 31) :
    ((g.rootSlot (BitVec.ofNat 32 j)).1 - g.rootTable).toNat =
        36 + g.entryWidth * j ∧
      (g.rootSlot (BitVec.ofNat 32 j)).2 = g.entryWidth := by
  obtain ⟨hset, hsign⟩ := toNat_index hj
  have hsize : sizeofSDT = 36 := rfl
  rw [AcpiGlobals.rootSlot, AcpiGlobals.entryWidth]
  split_ifs with hroot
  · refine ⟨?_, rfl⟩
    rw [rsdtSlot, hsize]
    bv_omega
  · refine ⟨?_, rfl⟩
    rw [xsdtSlot, hsize]
    bv_omega

theorem mem_indices {n : ℕ} {i : BitVec 32} :
    i ∈ indices n 0 ↔ ∃ j < n, BitVec.ofNat 32 j = i := by
  simp [indices]

theorem inTable_rootSlot (g : AcpiGlobals τ) (h : 36 ≤ length.toNat)
    (hlt : length.toNat < 2 ^ 32) {j : ℕ} (hj : j < (g.rootCount length).toNat) :
    InTable g.rootTable length.toNat (g.rootSlot (BitVec.ofNat 32 j)) := by
  have hcount : (g.rootCount length).toNat =
      (length.toNat - 36) / g.entryWidth := by
    rw [AcpiGlobals.rootCount, AcpiGlobals.entryWidth, toNat_entryCount h hlt]
    split_ifs <;> rfl
  have hwidth : 4 ≤ g.entryWidth := by
    rw [AcpiGlobals.entryWidth]
    split_ifs <;> decide
  have hmul := Nat.mul_le_mul_left g.entryWidth (Nat.succ_le_of_lt hj)
  have hdiv := Nat.mul_div_le (length.toNat - 36) g.entryWidth
  rw [← hcount] at hdiv
  have hmul4 := Nat.mul_le_mul_right j hwidth
  rw [Nat.mul_succ] at hmul
  obtain ⟨hoffset, hbytes⟩ := toNat_rootSlot_sub g (j := j) (by omega)
  rw [InTable, hoffset, hbytes]
  omega

/-- A loop reads entries from the first one on, and stops at the table that it
returns or at a fault. -/
theorem final_searchEntries
    {sdt : BitVec 32 → Code 64 (AcpiGlobals τ) Addr}
    {slot : BitVec 32 → Addr × ℕ} (name : ℕ → BitVec 8)
    (hsdt : ∀ i s, Reads s [slot i] ((sdt i).final s)) (n : ℕ) (i : BitVec 32)
    (s : Machine 64 (AcpiGlobals τ)) :
    ∃ k, Reads s ((indices k i).map slot).reverse
        ((searchEntries sdt name n i).final s) ∧ k ≤ n ∧ (0 < n → 0 < k) := by
  induction n generalizing i s with
  | zero => exact ⟨0, Reads.refl s, le_rfl, id⟩
  | succ n ih =>
      have hread := hsdt i s
      have hone : ((indices 1 i).map slot).reverse = [slot i] := by
        simp [indices]
      rw [searchEntries]
      cases hrun : (sdt i).run s with
      | error e u =>
          rw [final_of_error hrun] at hread
          rw [final_bind_of_error hrun]
          exact ⟨1, hone ▸ hread, by omega, fun _ => one_pos⟩
      | ok p u =>
          rw [final_of_ok hrun] at hread
          rw [final_bind_of_ok hrun]
          cases hname : memorycmp (bytesAt u p) name 4 with
          | none =>
              rw [final_bind_of_error (run_readMemory_of_none hname)]
              exact ⟨1, hone ▸ hread, by omega, fun _ => one_pos⟩
          | some c =>
              rw [final_bind_of_ok (run_readMemory_of_some hname)]
              cases c with
              | true => exact ⟨1, hone ▸ hread, by omega, fun _ => one_pos⟩
              | false =>
                  obtain ⟨k, hrest, hk, -⟩ := ih (i + 1) u
                  refine ⟨k + 1, ?_, by omega, fun _ => Nat.succ_pos k⟩
                  rw [indices_succ, List.map_cons, List.reverse_cons]
                  exact hread.trans hrest

theorem final_acpiFindTable (h : rootLength s = some length)
    (name : ℕ → BitVec 8) :
    ∃ k, Reads s ((indices k 0).map s.globals.rootSlot).reverse
        ((acpiFindTable name).final s) ∧
      k ≤ (s.globals.rootCount length).toNat ∧
      (0 < (s.globals.rootCount length).toNat → 0 < k) := by
  obtain ⟨u, hu, hrun⟩ := exists_acpiFindTable_run_eq s name
  have hlength : memberAt sdtLayout u s.globals.rootTable .length =
      some length := (hu.wordAt _ _).trans h
  obtain ⟨k, hread, hk⟩ := final_searchEntries name
    (fun i t => final_readRoot s.globals i t)
    (s.globals.rootCount length).toNat 0 u
  rw [final, hrun, ← final, final_bind_of_ok (run_readMemory_of_some hlength)]
  have hsum := hu.trans hread
  rw [List.append_nil] at hsum
  exact ⟨k, hsum, hk⟩

theorem not_readsInTable (h : rootLength s = some length)
    (hshort : length.toNat < 36) (name : ℕ → BitVec 8) :
    ¬ ReadsInTable s name := by
  intro hreads
  obtain ⟨rs, hrs, hin, -⟩ := hreads length h
  obtain ⟨k, hread, -, hpos⟩ := final_acpiFindTable h name
  have hcount : 0 < (s.globals.rootCount length).toNat := by
    refine entryCount_pos hshort ?_
    split_ifs <;> simp
  have heq := congrArg AcpiGlobals.entryReads hread.globals
  rw [hrs] at heq
  obtain rfl := List.append_cancel_right heq
  have hfirst := hin (s.globals.rootSlot (BitVec.ofNat 32 0)) (by
    rw [List.mem_reverse]
    exact List.mem_map_of_mem (mem_indices.2 ⟨0, hpos hcount, rfl⟩))
  obtain ⟨hoffset, hbytes⟩ := toNat_rootSlot_sub s.globals (j := 0) (by decide)
  rw [InTable, hoffset] at hfirst
  omega

/-- `acpiFindTable` reads entries inside the root table only exactly if the
table is long enough for the `SDT` record. -/
theorem readsInTable_iff (s : Machine 64 (AcpiGlobals τ)) (name : ℕ → BitVec 8) :
    ReadsInTable s name ↔
      ∀ length, rootLength s = some length → 36 ≤ length.toNat := by
  refine ⟨fun h length hlength => by_contra fun hshort =>
    not_readsInTable hlength (by omega) name h, fun h length hlength => ?_⟩
  have hlong := h length hlength
  obtain ⟨k, hread, hk, -⟩ := final_acpiFindTable hlength name
  have hin : ∀ r ∈ ((indices k 0).map s.globals.rootSlot).reverse,
      InTable s.globals.rootTable length.toNat r := by
    intro r hr
    obtain ⟨i, hi, rfl⟩ := List.mem_map.1 (List.mem_reverse.1 hr)
    obtain ⟨j, hj, rfl⟩ := mem_indices.1 hi
    exact inTable_rootSlot s.globals hlong (rootLength_lt hlength) (by omega)
  refine ⟨_, congrArg AcpiGlobals.entryReads hread.globals, hin, fun hnone => ?_⟩
  rw [List.eq_nil_iff_forall_not_mem]
  intro r hr
  obtain ⟨hstart, hend⟩ := hin r hr
  obtain ⟨i, hi, rfl⟩ := List.mem_map.1 (List.mem_reverse.1 hr)
  obtain ⟨j, hj, rfl⟩ := mem_indices.1 hi
  have hbytes : 0 < (s.globals.rootSlot (BitVec.ofNat 32 j)).2 := by
    rw [AcpiGlobals.rootSlot]
    split_ifs <;> exact Nat.succ_pos _
  omega

/-- A table in cleared memory has the length 0. -/
theorem not_readsInTable_cleared :
    ¬ ReadsInTable (acpiMachine (fun _ => 0) 0 0) (fun _ => 0x41) :=
  not_readsInTable (by decide : rootLength (acpiMachine (fun _ => 0) 0 0) = some 0)
    (by decide) _

end OptimistOS
