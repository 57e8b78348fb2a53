import OptimistOS.Acpi.TableBounds

/-!
# Searching the RSDT and the XSDT

A machine offers the same ACPI tables through an RSDT or through an XSDT. All
tables lie below 4 GB, where the kernel's pointers are physical addresses
(`LowMapped`), so the entries of both root tables are pointers already.

The search of the RSDT is right. The search of the XSDT looks for the tables
`hhdmOffset` below the addresses it has read; the direct map never starts in the
low 4 GB unless the offset is 0, so it looks at no table at all. With the direct
map at the start of the upper half it looks at addresses that are not canonical,
and the very first comparison is a general protection fault.
-/

namespace OptimistOS

open ByteMemory ByteMemory.Code

def tablePointers (tables : List (BitVec 32)) : List Addr :=
  tables.map fun t => t.setWidth 64

/-- The pointers below 4 GB are physical addresses, those to the signatures of
the tables too, and the direct map shows the same addresses from `hhdmOffset`
on. `translate` gives the physical address that a pointer leads to. -/
structure LowMapped (translate : Addr → Option Word) (hhdmOffset : Word)
    (tables : List (BitVec 32)) : Prop where
  identity : ∀ a : Word, a.toNat < 2 ^ 32 → translate a = some a
  signatures : ∀ p ∈ tablePointers tables, ∀ i < 4,
    translate (p + BitVec.ofNat 64 i) = some (p + BitVec.ofNat 64 i)
  direct : ∀ a : Word, a.toNat < 2 ^ 32 → translate (a + hhdmOffset) = some a

/-- The entries of the root table at `root`, each of `n` bytes, are the
addresses `tables`. -/
structure ListsTables (m : Bytes) (root : Addr) (n : ℕ)
    (tables : List (BitVec 32)) : Prop where
  length : (sdtLayout.get m root .length).toNat = 36 + n * tables.length
  below : root.toNat + (36 + n * tables.length) ≤ 2 ^ 32
  entries : ∀ i (h : i < tables.length),
    load m (root + BitVec.ofNat 64 (36 + n * i)) n = tables[i].toNat

def hasName (m : Bytes) (name : ℕ → BitVec 8) (p : Addr) : Bool :=
  (List.range 4).all fun i => m (p + BitVec.ofNat 64 i) == name i

/-- The first of the tables `ps` with the signature `name`, or the null
pointer. -/
def firstNamed (m : Bytes) (name : ℕ → BitVec 8) (ps : List Addr) : Addr :=
  (ps.find? (hasName m name)).getD 0

section

variable {τ : Type}

/-- The machine has not looked for its tables yet, and its `rsdpInfo`, of `n`
bytes, is there. -/
structure OffersTables (s : Machine 64 (AcpiGlobals τ)) (n : ℕ) : Prop where
  rootRSDT : s.globals.rootRSDT = 0
  readable : ∀ i < n,
    s.globals.Readable (s.globals.rsdpAddress + BitVec.ofNat 64 i)
  signature : ∀ i < 8,
    s.mem (s.globals.rsdpAddress + BitVec.ofNat 64 i) = rsdPtr i

/-- The machine has the ACPI revision 0 and an RSDT with the addresses
`tables`. -/
structure OffersRSDT (s : Machine 64 (AcpiGlobals τ))
    (tables : List (BitVec 32)) : Prop extends OffersTables s 20 where
  revision : xsdpInfo.get s.mem s.globals.rsdpAddress .revision = 0
  ne_zero : xsdpInfo.get s.mem s.globals.rsdpAddress .rsdtAddress ≠ 0
  tables : ListsTables s.mem
    (xsdpInfo.get s.mem s.globals.rsdpAddress .rsdtAddress) 4 tables

/-- The machine has the ACPI revision 2 or a later one and an XSDT with the
addresses `tables`. -/
structure OffersXSDT (s : Machine 64 (AcpiGlobals τ))
    (tables : List (BitVec 32)) : Prop extends OffersTables s 36 where
  revision : 2 ≤ xsdpInfo.get s.mem s.globals.rsdpAddress .revision
  tables : ListsTables s.mem
    (xsdpInfo.get s.mem s.globals.rsdpAddress .xsdtAddress) 8 tables

/-- After `initACPI`, `acpiFindTable` returns a pointer to the first table with
the signature `name`, or the null pointer. -/
def FindsTable (s : Machine 64 (AcpiGlobals τ)) (tables : List (BitVec 32))
    (name : ℕ → BitVec 8) : Prop :=
  ∃ t, (do
      let _ ← initACPI
      acpiFindTable name : Code 64 (AcpiGlobals τ) Addr).run s =
    .ok (firstNamed s.mem name (tablePointers tables)) t

/-- One of the first four bytes from `p` is not the one of `name`, and the
processor can read the bytes up to that one. -/
def Differs (s : Machine 64 (AcpiGlobals τ)) (name : ℕ → BitVec 8) (p : Addr) :
    Prop :=
  ∃ i < 4, (∀ j ≤ i, s.globals.Readable (p + BitVec.ofNat 64 j)) ∧
    s.mem (p + BitVec.ofNat 64 i) ≠ name i

end

theorem LowMapped.hhdmOffset_eq_zero_or {translate : Addr → Option Word}
    {hhdmOffset : Word} {tables : List (BitVec 32)}
    (h : LowMapped translate hhdmOffset tables) :
    hhdmOffset = 0 ∨
      2 ^ 32 ≤ hhdmOffset.toNat ∧ hhdmOffset.toNat + 2 ^ 32 ≤ 2 ^ 64 := by
  by_cases hlow : hhdmOffset.toNat < 2 ^ 32
  · left
    have hzero : translate hhdmOffset = some 0 :=
      BitVec.zero_add hhdmOffset ▸ h.direct 0 (by decide)
    rw [h.identity hhdmOffset hlow] at hzero
    exact Option.some.inj hzero
  · by_cases hhigh : hhdmOffset.toNat + 2 ^ 32 ≤ 2 ^ 64
    · exact Or.inr ⟨by omega, hhigh⟩
    · left
      have hneg : (-hhdmOffset).toNat < 2 ^ 32 := by
        rw [BitVec.toNat_neg]
        omega
      have hsum : -hhdmOffset + hhdmOffset = 0 := BitVec.add_left_neg _
      have hzero := h.direct (-hhdmOffset) hneg
      rw [hsum, h.identity 0 (by decide)] at hzero
      have hinj := Option.some.inj hzero
      bv_omega

theorem hasName_iff {m : Bytes} {name : ℕ → BitVec 8} {p : Addr} :
    hasName m name p ↔ ∀ i < 4, m (p + BitVec.ofNat 64 i) = name i := by
  rw [hasName, List.all_eq_true]
  simp only [List.mem_range, beq_iff_eq]

theorem memorycmp_eq_true_iff {p1 : ℕ → Option (BitVec 8)}
    {p2 : ℕ → BitVec 8} {n : ℕ} :
    memorycmp p1 p2 n = some true ↔ ∀ i < n, p1 i = some (p2 i) := by
  have hfrom : ∀ i, memorycmpFrom p1 p2 n i = some true ↔
      ∀ j < n, p1 (i + j) = some (p2 (i + j)) := by
    induction n with
    | zero => exact fun i => iff_of_true rfl fun j hj => absurd hj (by omega)
    | succ n ih =>
        intro i
        have hrest := ih (i + 1)
        simp only [Nat.add_right_comm i 1] at hrest
        rw [Nat.forall_lt_succ_left]
        simp only [Nat.add_zero, ← Nat.add_assoc, ← hrest]
        cases hp : p1 i with
        | none => simp [memorycmpFrom, hp]
        | some b => by_cases hb : b = p2 i <;> simp [memorycmpFrom, hp, hb]
  rw [memorycmp, hfrom 0]
  simp only [Nat.zero_add]

/-- The comparison fails exactly if all bytes up to a different one can be
read. -/
theorem memorycmp_eq_false_iff {p1 : ℕ → Option (BitVec 8)}
    {p2 : ℕ → BitVec 8} {n : ℕ} :
    memorycmp p1 p2 n = some false ↔
      ∃ i < n, (∀ j ≤ i, (p1 j).isSome) ∧ p1 i ≠ some (p2 i) := by
  have hfrom : ∀ i, memorycmpFrom p1 p2 n i = some false ↔
      ∃ k < n, (∀ j ≤ k, (p1 (i + j)).isSome) ∧
        p1 (i + k) ≠ some (p2 (i + k)) := by
    induction n with
    | zero => simp [memorycmpFrom]
    | succ n ih =>
        intro i
        have hrest := ih (i + 1)
        simp only [Nat.add_right_comm i 1] at hrest
        rw [Nat.exists_lt_succ_left]
        simp only [← Nat.lt_succ_iff, Nat.succ_eq_add_one,
          Nat.forall_lt_succ_left] at hrest ⊢
        cases hp : p1 i with
        | none => simp [memorycmpFrom, hp]
        | some b =>
            by_cases hb : b = p2 i <;>
              simp [memorycmpFrom, hp, hb, hrest, ← Nat.add_assoc]
  rw [memorycmp, hfrom 0]
  simp only [Nat.zero_add]

section

variable {τ : Type} {s : Machine 64 (AcpiGlobals τ)} {tables : List (BitVec 32)}
  {hhdmOffset root : Word}

/-- A converted address is converted back, unless it is the one that the
conversion takes for an error. -/
theorem virtualAddr_sub (h : root + 1 ≠ hhdmOffset) :
    virtualAddr hhdmOffset (root - hhdmOffset) = root := by
  have hne : root - hhdmOffset ≠ -1 := by
    intro heq
    exact h (by bv_omega)
  rw [virtualAddr, if_neg hne, BitVec.sub_add_cancel]

theorem LowMapped.readable {g : AcpiGlobals τ}
    (h : LowMapped g.translate hhdmOffset tables) {a : Addr}
    (ha : a.toNat < 2 ^ 32) : g.Readable a :=
  ⟨canonical_of_lt (by omega), h.identity a ha ▸ rfl⟩

theorem toNat_lt_of_mem {p : Addr} (h : p ∈ tablePointers tables) :
    p.toNat < 2 ^ 32 := by
  obtain ⟨t, -, rfl⟩ := List.mem_map.1 h
  rw [BitVec.toNat_setWidth_of_le (by decide)]
  exact t.isLt

theorem LowMapped.bytesAt (h : LowMapped s.globals.translate hhdmOffset tables)
    {p : Addr} (hp : p ∈ tablePointers tables) {i : ℕ} (hi : i < 4) :
    bytesAt s p i = some (s.mem (p + BitVec.ofNat 64 i)) := by
  have hlt := toNat_lt_of_mem hp
  refine if_pos ⟨canonical_of_lt ?_, h.signatures p hp i hi ▸ rfl⟩
  rw [BitVec.toNat_add_of_lt] <;> rw [BitVec.toNat_ofNat] <;> omega

theorem LowMapped.memorycmp_eq
    (h : LowMapped s.globals.translate hhdmOffset tables) {p : Addr}
    (hp : p ∈ tablePointers tables) (name : ℕ → BitVec 8) :
    memorycmp (OptimistOS.bytesAt s p) name 4 = some (hasName s.mem name p) := by
  cases hname : hasName s.mem name p with
  | true =>
      refine memorycmp_eq_true_iff.2 fun i hi => ?_
      rw [h.bytesAt hp hi, hasName_iff.1 hname i hi]
  | false =>
      obtain ⟨i, hi, hne⟩ : ∃ i < 4, s.mem (p + BitVec.ofNat 64 i) ≠ name i := by
        by_contra hall
        push Not at hall
        exact absurd (hasName_iff.2 hall) (by rw [hname]; decide)
      refine memorycmp_eq_false_iff.2 ⟨i, hi, fun j hj => ?_, ?_⟩
      · rw [h.bytesAt hp (by omega)]
        rfl
      · rwa [h.bytesAt hp hi, ne_eq, Option.some.injEq]

theorem ListsTables.toNat_rootCount {m : Bytes} {g : AcpiGlobals τ}
    (h : ListsTables m root g.entryWidth tables) :
    (g.rootCount (sdtLayout.get m root .length)).toNat = tables.length := by
  have hwidth : 4 ≤ g.entryWidth := by
    rw [AcpiGlobals.entryWidth]
    split_ifs <;> decide
  have hcut : g.entryWidth * tables.length / g.entryWidth = tables.length :=
    Nat.mul_div_cancel_left _ (by omega)
  rw [AcpiGlobals.rootCount, toNat_entryCount (by rw [h.length]; omega)
    (sdtLayout.get_toNat_lt m root .length), h.length, Nat.add_sub_cancel_left]
  rw [AcpiGlobals.entryWidth] at hcut ⊢
  split_ifs at hcut ⊢ <;> exact hcut

theorem ListsTables.wordAt {g : AcpiGlobals τ}
    (h : ListsTables s.mem g.rootTable g.entryWidth tables)
    (hlow : LowMapped s.globals.translate hhdmOffset tables) {j : ℕ}
    (hj : j < tables.length) :
    wordAt s (g.rootSlot (BitVec.ofNat 32 j)).1
        (g.rootSlot (BitVec.ofNat 32 j)).2 = some (tables[j].setWidth 64) := by
  have hbelow := h.below
  have hwidth : 4 ≤ g.entryWidth := by
    rw [AcpiGlobals.entryWidth]
    split_ifs <;> decide
  have hmul := Nat.mul_le_mul_left g.entryWidth (Nat.succ_le_of_lt hj)
  have hmul4 := Nat.mul_le_mul_right j hwidth
  rw [Nat.mul_succ] at hmul
  obtain ⟨hoffset, hbytes⟩ := toNat_rootSlot_sub g (j := j) (by omega)
  have hslot := base_add_offset g.rootTable (g.rootSlot (BitVec.ofNat 32 j)).1
  rw [hoffset] at hslot
  refine wordAt_eq_some.2 ⟨fun i hi => hlow.readable ?_, ?_⟩
  · rw [hbytes] at hi
    rw [← hslot, add_ofNat_add_ofNat, BitVec.toNat_add_of_lt] <;>
      rw [BitVec.toNat_ofNat] <;> omega
  · rw [hbytes, ← hslot, h.entries j hj]
    exact BitVec.ofNat_toNat 64 tables[j]

/-- What a search of the tables `ps` comes to when `look` compares a signature:
the first one with the name, the null pointer, or a fault. -/
def searched (look : Addr → Option Bool) : List Addr → Option Addr
  | [] => some 0
  | p :: ps => do
      if ← look p then
        return p
      searched look ps

theorem run_searchEntries {sdt : BitVec 32 → Code 64 (AcpiGlobals τ) Addr}
    {p : BitVec 32 → Addr} {rs : List (Addr × ℕ)} (name : ℕ → BitVec 8)
    {n : ℕ} {i : BitVec 32} {u : Machine 64 (AcpiGlobals τ)}
    (hsdt : ∀ j ∈ indices n i, ∀ rs u, Reads s rs u →
      ∃ us t, (sdt j).run u = .ok (p j) t ∧ Reads u us t)
    (hu : Reads s rs u) :
    ∃ t, (searchEntries sdt name n i).run u = (readMemory fun _ =>
      searched (fun p => memorycmp (bytesAt s p) name 4)
        ((indices n i).map p)).run t := by
  induction n generalizing i rs u with
  | zero => exact ⟨u, rfl⟩
  | succ n ih =>
      rw [indices_succ] at hsdt
      obtain ⟨us, t, hrun, ht⟩ := hsdt i List.mem_cons_self rs u hu
      have hreads := hu.trans ht
      have hname : memorycmp (bytesAt t (p i)) name 4 =
          memorycmp (bytesAt s (p i)) name 4 := by
        rw [hreads.bytesAt]
      rw [searchEntries, run_bind_of_ok hrun, indices_succ, List.map_cons,
        searched]
      cases hcmp : memorycmp (bytesAt s (p i)) name 4 with
      | none =>
          exact ⟨t, run_bind_of_error (run_readMemory_of_none
            (hname.trans hcmp))⟩
      | some c =>
          rw [run_bind_of_ok (run_readMemory_of_some (hname.trans hcmp))]
          cases c with
          | true => exact ⟨t, rfl⟩
          | false => exact ih (fun j hj => hsdt j (List.mem_cons_of_mem i hj)) hreads

/-- `acpiFindTable` searches the tables of a well-formed root table. -/
theorem run_acpiFindTable
    (h : ListsTables s.mem s.globals.rootTable s.globals.entryWidth tables)
    (hlow : LowMapped s.globals.translate hhdmOffset tables)
    (name : ℕ → BitVec 8) :
    ∃ t, (acpiFindTable name).run s = (readMemory fun _ =>
      searched (fun p => memorycmp (bytesAt s p) name 4)
        ((tablePointers tables).map s.globals.rootPointer)).run t := by
  have hbelow := h.below
  obtain ⟨u, hu, hrun⟩ := exists_acpiFindTable_run_eq s name
  have hlength : rootLength s =
      some (sdtLayout.get s.mem s.globals.rootTable .length) := by
    refine wordAt_eq_some.2 ⟨fun i hi => hlow.readable ?_, rfl⟩
    have hi' : i < 4 := hi
    have hfour : BitVec.ofNat 64 (sdtLayout.offset .length) = 4#64 := rfl
    rw [hfour]
    bv_omega
  rw [hrun, run_bind_of_ok (run_readMemory_of_some
    ((hu.wordAt _ _).trans hlength)), h.toNat_rootCount]
  have hvalue : ∀ j (hj : j < tables.length), BitVec.ofNat 64 (load s.mem
      (s.globals.rootSlot (BitVec.ofNat 32 j)).1
      (s.globals.rootSlot (BitVec.ofNat 32 j)).2) = tables[j].setWidth 64 :=
    fun j hj => (wordAt_eq_some.1 (h.wordAt hlow hj)).2
  have hsdt : ∀ j ∈ indices tables.length 0, ∀ rs u, Reads s rs u →
      ∃ us t, (s.globals.readRoot j).run u =
        .ok (s.globals.rootPointer (BitVec.ofNat 64 (load s.mem
          (s.globals.rootSlot j).1 (s.globals.rootSlot j).2))) t ∧
        Reads u us t := by
    intro j hj rs u hu
    obtain ⟨k, hk, rfl⟩ := mem_indices.1 hj
    obtain ⟨t, hread, ht⟩ := run_readRoot hu.hhdmOffset
      ((hu.wordAt _ _).trans (h.wordAt hlow hk))
    rw [hvalue k hk]
    exact ⟨_, t, hread, ht⟩
  obtain ⟨t, hsearch⟩ := run_searchEntries name hsdt hu
  rw [hsearch]
  refine ⟨t, congrArg (fun ps => (readMemory fun _ => searched
    (fun p => memorycmp (bytesAt s p) name 4) ps).run t) ?_⟩
  refine List.ext_getElem (by simp [indices, tablePointers]) fun j hj _ => ?_
  have hlt : j < tables.length := by simpa [indices] using hj
  have hindex : (0 : BitVec 32) + BitVec.ofNat 32 j = BitVec.ofNat 32 j :=
    BitVec.zero_add _
  simp only [indices, tablePointers, List.getElem_map, List.getElem_range,
    hindex, hvalue j hlt]

end

theorem firstNamed_cases (m : Bytes) (name : ℕ → BitVec 8) (ps : List Addr) :
    (firstNamed m name ps = 0 ∧ ∀ p ∈ ps, ¬ hasName m name p) ∨
      ∃ p ∈ ps, hasName m name p ∧ firstNamed m name ps = p := by
  rw [firstNamed]
  cases hfind : ps.find? (hasName m name) with
  | none => exact Or.inl ⟨rfl, fun p hp => List.find?_eq_none.1 hfind p hp⟩
  | some p => exact Or.inr ⟨p, List.mem_of_find?_eq_some hfind,
      List.find?_some hfind, rfl⟩

theorem firstNamed_congr {m m' : Bytes} {ps : List Addr}
    (h : ∀ p ∈ ps, ∀ i < 4, m' (p + BitVec.ofNat 64 i) =
      m (p + BitVec.ofNat 64 i))
    (name : ℕ → BitVec 8) : firstNamed m' name ps = firstNamed m name ps := by
  induction ps with
  | nil => rfl
  | cons p ps ih =>
      have hname : hasName m' name p = hasName m name p := by
        rw [Bool.eq_iff_iff, hasName_iff, hasName_iff]
        exact forall₂_congr fun i hi => by rw [h p List.mem_cons_self i hi]
      have hrest := ih fun q hq => h q (List.mem_cons_of_mem p hq)
      rw [firstNamed, firstNamed, List.find?_cons, List.find?_cons, hname]
      cases hasName m name p with
      | true => rfl
      | false => exact hrest

theorem searched_of_forall {look : Addr → Option Bool} {m : Bytes}
    {name : ℕ → BitVec 8} {ps : List Addr}
    (h : ∀ p ∈ ps, look p = some (hasName m name p)) :
    searched look ps = some (firstNamed m name ps) := by
  induction ps with
  | nil => rfl
  | cons p ps ih =>
      have hrest := ih fun q hq => h q (List.mem_cons_of_mem p hq)
      rw [searched, h p List.mem_cons_self, firstNamed, List.find?_cons]
      cases hasName m name p with
      | true => rfl
      | false => exact hrest

/-- A search ends at a table with the name, with the null pointer behind the
last table, or at a fault. -/
theorem searched_cases (look : Addr → Option Bool) (ps : List Addr) :
    searched look ps = none ∨ (∃ p ∈ ps, searched look ps = some p) ∨
      (∀ p ∈ ps, look p = some false) ∧ searched look ps = some 0 := by
  induction ps with
  | nil => exact Or.inr (Or.inr ⟨fun p hp => absurd hp List.not_mem_nil, rfl⟩)
  | cons p ps ih =>
      rw [searched]
      cases hlook : look p with
      | none => exact Or.inl rfl
      | some c =>
          cases c with
          | true => exact Or.inr (Or.inl ⟨p, List.mem_cons_self, rfl⟩)
          | false =>
              refine ih.imp_right (Or.imp ?_ ?_)
              · rintro ⟨q, hq, heq⟩
                exact ⟨q, List.mem_cons_of_mem p hq, heq⟩
              · rintro ⟨hnone, heq⟩
                exact ⟨List.forall_mem_cons.2 ⟨hlook, hnone⟩, heq⟩

theorem searched_of_false {look : Addr → Option Bool} {ps : List Addr}
    (h : ∀ p ∈ ps, look p = some false) : searched look ps = some 0 := by
  induction ps with
  | nil => rfl
  | cons p ps ih =>
      rw [searched, h p List.mem_cons_self]
      exact ih fun q hq => h q (List.mem_cons_of_mem p hq)

section

variable {τ : Type} {s s' : Machine 64 (AcpiGlobals τ)}
  {tables : List (BitVec 32)} {n : ℕ}

theorem differs_iff {name : ℕ → BitVec 8} {p : Addr} :
    Differs s name p ↔ memorycmp (bytesAt s p) name 4 = some false := by
  rw [Differs, memorycmp_eq_false_iff]
  have hsome : ∀ j, (bytesAt s p j).isSome ↔
      s.globals.Readable (p + BitVec.ofNat 64 j) := by
    intro j
    rw [bytesAt]
    split_ifs with h <;> simp [h]
  refine exists_congr fun i => and_congr_right fun _ => ?_
  simp only [hsome]
  refine and_congr_right fun hread => not_congr ?_
  rw [bytesAt, if_pos (hread i le_rfl), Option.some.injEq]

theorem OffersTables.memorycmp_signature (h : OffersTables s n) (hn : 8 ≤ n) :
    memorycmp (bytesAt s s.globals.rsdpAddress) rsdPtr 8 = some true := by
  refine memorycmp_eq_true_iff.2 fun i hi => ?_
  rw [bytesAt, if_pos (h.readable i (by omega)), h.signature i hi]

theorem OffersTables.memberAt (h : OffersTables s n) {f : XsdpInfo}
    (hf : xsdpInfo.offset f + xsdpInfo.width f ≤ n) :
    memberAt xsdpInfo s s.globals.rsdpAddress f =
      some (xsdpInfo.get s.mem s.globals.rsdpAddress f) := by
  refine wordAt_eq_some.2 ⟨fun i hi => ?_, rfl⟩
  rw [add_ofNat_add_ofNat]
  exact h.readable _ (by omega)

theorem OffersRSDT.run_initACPI (h : OffersRSDT s tables) :
    ∃ a t, initACPI.run s = .ok a t ∧ t.mem = s.mem ∧
      t.globals.hhdmOffset = s.globals.hhdmOffset ∧
      t.globals.translate = s.globals.translate ∧
      t.globals.rootRSDT = xsdpInfo.get s.mem s.globals.rsdpAddress .rsdtAddress -
        s.globals.hhdmOffset := by
  have hrevision := h.toOffersTables.memberAt (f := .revision) (by decide)
  have haddress := h.toOffersTables.memberAt (f := .rsdtAddress) (by decide)
  obtain ⟨u, hphys, hu⟩ := run_acpiPhysicalAddr s
    (xsdpInfo.get s.mem s.globals.rsdpAddress .rsdtAddress)
  rw [initACPI, EStateM.run_bind, EStateM.run_get]
  dsimp only
  rw [run_bind_of_ok (run_readMemory_of_some
      (h.memorycmp_signature (by decide))), if_neg (not_not.2 rfl),
    run_bind_of_ok (run_readMemory_of_some hrevision),
    if_neg (not_not.2 h.revision),
    run_bind_of_ok (run_readMemory_of_some haddress), run_bind_of_ok hphys]
  exact ⟨_, _, rfl, hu.mem, hu.hhdmOffset, hu.translate, rfl⟩

theorem OffersXSDT.run_initACPI (h : OffersXSDT s tables) :
    ∃ a t, initACPI.run s = .ok a t ∧ t.mem = s.mem ∧
      t.globals.hhdmOffset = s.globals.hhdmOffset ∧
      t.globals.translate = s.globals.translate ∧ t.globals.rootRSDT = 0 ∧
      t.globals.xsdtInformation.rootXSDT =
        xsdpInfo.get s.mem s.globals.rsdpAddress .xsdtAddress -
          s.globals.hhdmOffset := by
  have hne : xsdpInfo.get s.mem s.globals.rsdpAddress .revision ≠ 0 := by
    intro hzero
    have hle := h.revision
    rw [hzero] at hle
    exact absurd hle (by decide)
  have hrevision := h.toOffersTables.memberAt (f := .revision) (by decide)
  have haddress := h.toOffersTables.memberAt (f := .xsdtAddress) (by decide)
  obtain ⟨u, hphys, hu⟩ := run_acpiPhysicalAddr ⟨s.mem, { s.globals with
      xsdtInformation.xsdpInformation := s.globals.rsdpAddress }⟩
    (xsdpInfo.get s.mem s.globals.rsdpAddress .xsdtAddress)
  rw [initACPI, EStateM.run_bind, EStateM.run_get]
  dsimp only
  rw [run_bind_of_ok (run_readMemory_of_some
      (h.memorycmp_signature (by decide))), if_neg (not_not.2 rfl),
    run_bind_of_ok (run_readMemory_of_some hrevision), if_pos hne,
    run_bind_of_ok (run_modifyGlobals _ s),
    run_bind_of_ok (run_readMemory_of_some (b := xsdpInfo.get s.mem
      s.globals.rsdpAddress .xsdtAddress) haddress), run_bind_of_ok hphys]
  refine ⟨_, _, rfl, hu.mem, hu.hhdmOffset, hu.translate, ?_, rfl⟩
  change u.globals.rootRSDT = 0
  rw [hu.globals]
  exact h.rootRSDT

/-- With an RSDT the table is found. -/
theorem OffersRSDT.findsTable (h : OffersRSDT s tables)
    (hmap : LowMapped s.globals.translate s.globals.hhdmOffset tables)
    (name : ℕ → BitVec 8) : FindsTable s tables name := by
  set root := xsdpInfo.get s.mem s.globals.rsdpAddress .rsdtAddress with hroot
  have hlow := hmap.hhdmOffset_eq_zero_or
  obtain ⟨a, t, hinit, hmem, hoffset, htranslate, hrsdt⟩ := h.run_initACPI
  have hbelow := h.tables.below
  have hne := h.ne_zero
  rw [← hroot] at hrsdt hbelow hne
  have hrootRSDT : t.globals.rootRSDT ≠ 0 := by
    rw [hrsdt]
    rcases hlow with hzero | hhigh
    · rw [hzero]
      bv_omega
    · bv_omega
  have htable : t.globals.rootTable = root := by
    rw [AcpiGlobals.rootTable, if_pos hrootRSDT, hrsdt, hoffset,
      virtualAddr_sub]
    rcases hlow with hzero | hhigh
    · rw [hzero]
      bv_omega
    · bv_omega
  have hwidth : t.globals.entryWidth = 4 := if_pos hrootRSDT
  have hmap' : LowMapped t.globals.translate t.globals.hhdmOffset tables := by
    rwa [htranslate, hoffset]
  obtain ⟨u, hfind⟩ := run_acpiFindTable
    (by rw [htable, hwidth, hmem]; exact h.tables) hmap' name
  have hpointers : t.globals.rootPointer = id := funext fun v => if_pos hrootRSDT
  have hsearch : searched (fun p => memorycmp (bytesAt t p) name 4)
      (tablePointers tables) = some (firstNamed t.mem name (tablePointers tables)) :=
    searched_of_forall fun p hp => hmap'.memorycmp_eq hp name
  rw [hpointers, List.map_id, hsearch] at hfind
  exact ⟨u, (run_bind_of_ok hinit).trans (hmem ▸ hfind)⟩

/-- With an XSDT the tables are looked for below their addresses. -/
theorem OffersXSDT.exists_run (h : OffersXSDT s tables)
    (hmap : LowMapped s.globals.translate s.globals.hhdmOffset tables)
    (name : ℕ → BitVec 8) :
    ∃ u, (do
        let _ ← initACPI
        acpiFindTable name : Code 64 (AcpiGlobals τ) Addr).run s =
      (readMemory fun _ => searched (fun p => memorycmp (bytesAt s p) name 4)
        ((tablePointers tables).map fun p => p - s.globals.hhdmOffset)).run u := by
  set root := xsdpInfo.get s.mem s.globals.rsdpAddress .xsdtAddress with hroot
  have hlow := hmap.hhdmOffset_eq_zero_or
  obtain ⟨a, t, hinit, hmem, hoffset, htranslate, hrsdt, hxsdt⟩ := h.run_initACPI
  have hbelow := h.tables.below
  rw [← hroot] at hxsdt hbelow
  have hrootRSDT : ¬ t.globals.rootRSDT ≠ 0 := not_not.2 hrsdt
  have htable : t.globals.rootTable = root := by
    rw [AcpiGlobals.rootTable, if_neg hrootRSDT, hxsdt, hoffset,
      virtualAddr_sub]
    rcases hlow with hzero | hhigh
    · rw [hzero]
      bv_omega
    · bv_omega
  have hwidth : t.globals.entryWidth = 8 := if_neg hrootRSDT
  have hmap' : LowMapped t.globals.translate t.globals.hhdmOffset tables := by
    rwa [htranslate, hoffset]
  obtain ⟨u, hfind⟩ := run_acpiFindTable
    (by rw [htable, hwidth, hmem]; exact h.tables) hmap' name
  have hpointers : t.globals.rootPointer = fun v => v - s.globals.hhdmOffset := by
    funext v
    rw [AcpiGlobals.rootPointer, if_neg hrootRSDT, hoffset]
  rw [hpointers, bytesAt_congr hmem htranslate] at hfind
  exact ⟨u, (run_bind_of_ok hinit).trans hfind⟩

/-- With an XSDT the table is found exactly if the offset is 0, or no table has
the name and no comparison below the tables succeeds or faults. -/
theorem OffersXSDT.findsTable_iff (h : OffersXSDT s tables)
    (hmap : LowMapped s.globals.translate s.globals.hhdmOffset tables)
    (name : ℕ → BitVec 8) :
    FindsTable s tables name ↔ s.globals.hhdmOffset = 0 ∨
      firstNamed s.mem name (tablePointers tables) = 0 ∧
        ∀ t ∈ tablePointers tables,
          Differs s name (t - s.globals.hhdmOffset) := by
  obtain ⟨u, hrun⟩ := h.exists_run hmap name
  rw [FindsTable, hrun, exists_run_readMemory_iff]
  rcases hmap.hhdmOffset_eq_zero_or with hzero | ⟨hhigh, hend⟩
  · refine iff_of_true ?_ (Or.inl hzero)
    have hid : (fun p => p - s.globals.hhdmOffset) = id :=
      funext fun p => by rw [hzero]; exact BitVec.sub_zero p
    rw [hid, List.map_id]
    exact searched_of_forall fun p hp => hmap.memorycmp_eq hp name
  · have hne : s.globals.hhdmOffset ≠ 0 := by
      intro hzero
      rw [hzero] at hhigh
      exact absurd hhigh (by decide)
    rw [or_iff_right hne]
    constructor
    · intro hsearch
      have hfirst : (firstNamed s.mem name (tablePointers tables)).toNat <
          2 ^ 32 := by
        rcases firstNamed_cases s.mem name (tablePointers tables) with
          ⟨h0, -⟩ | ⟨p, hp, -, h0⟩
        · rw [h0]
          decide
        · rw [h0]
          exact toNat_lt_of_mem hp
      rcases searched_cases _ ((tablePointers tables).map fun p =>
        p - s.globals.hhdmOffset) with hfault | ⟨q, hq, hfound⟩ | ⟨hnone, h0⟩
      · rw [hfault] at hsearch
        exact absurd hsearch (by simp)
      · obtain ⟨p, hp, rfl⟩ := List.mem_map.1 hq
        have hp' := toNat_lt_of_mem hp
        rw [hfound] at hsearch
        rw [← Option.some.inj hsearch] at hfirst
        bv_omega
      · rw [h0] at hsearch
        exact ⟨(Option.some.inj hsearch).symm, fun t ht =>
          differs_iff.2 (hnone _ (List.mem_map_of_mem ht))⟩
    · rintro ⟨hnone, hdiffers⟩
      rw [hnone]
      refine searched_of_false fun q hq => ?_
      obtain ⟨p, hp, rfl⟩ := List.mem_map.1 hq
      exact differs_iff.1 (hdiffers p hp)

/-- The two searches find the same table, the right one, exactly if the offset
of the direct map is 0, or no table has the name and below every table there is
a different signature that can be read. -/
theorem findsTable_both_iff
    (hmap : LowMapped s.globals.translate s.globals.hhdmOffset tables)
    (hmap' : LowMapped s'.globals.translate s.globals.hhdmOffset tables)
    (hoffset : s'.globals.hhdmOffset = s.globals.hhdmOffset)
    (hRSDT : OffersRSDT s tables) (hXSDT : OffersXSDT s' tables)
    (hsame : ∀ t ∈ tablePointers tables, ∀ i < 4,
      s'.mem (t + BitVec.ofNat 64 i) = s.mem (t + BitVec.ofNat 64 i))
    (name : ℕ → BitVec 8) :
    FindsTable s tables name ∧ FindsTable s' tables name ↔
      s.globals.hhdmOffset = 0 ∨
        firstNamed s.mem name (tablePointers tables) = 0 ∧
          ∀ t ∈ tablePointers tables,
            Differs s' name (t - s.globals.hhdmOffset) := by
  rw [and_iff_right (hRSDT.findsTable hmap name),
    hXSDT.findsTable_iff (hoffset.symm ▸ hmap') name, hoffset,
    firstNamed_congr hsame]

end

theorem lowMapped_directMapped {hhdmOffset : Word} {tables : List (BitVec 32)}
    (hoffset : hhdmOffset = 0 ∨ 2 ^ 32 ≤ hhdmOffset.toNat ∧
      hhdmOffset.toNat + 2 ^ 32 ≤ 2 ^ 64)
    (htables : ∀ p ∈ tablePointers tables, p.toNat + 4 ≤ 2 ^ 32) :
    LowMapped (directMapped hhdmOffset) hhdmOffset tables where
  identity _ ha := if_pos ha
  signatures p hp i hi := by
    have hlt := htables p hp
    refine if_pos ?_
    rw [BitVec.toNat_add_of_lt] <;> rw [BitVec.toNat_ofNat] <;> omega
  direct a ha := by
    rw [directMapped, BitVec.add_sub_cancel]
    rcases hoffset with rfl | ⟨hlow, hend⟩
    · have hzero : a + 0 = a := BitVec.add_zero a
      rw [hzero, if_pos ha]
    · have hsum : (a + hhdmOffset).toNat = a.toNat + hhdmOffset.toNat :=
        BitVec.toNat_add_of_lt (by omega)
      rw [if_neg (by omega), if_pos ha]

/-- The memory of a machine of the given revision: `rsdpInfo` at `0x1000`, an
RSDT at `0x2000` and an XSDT at `0x3000`, which list the same table at `0x4000`.
Its signature is `"APIC"`. -/
def apicBytes (revision : BitVec 8) : Bytes := fun a =>
  ([(0x1000, 0x52), (0x1001, 0x53), (0x1002, 0x44), (0x1003, 0x20),
    (0x1004, 0x50), (0x1005, 0x54), (0x1006, 0x52), (0x1007, 0x20),
    (0x100f, revision), (0x1011, 0x20), (0x1019, 0x30),
    (0x2004, 40), (0x2025, 0x40), (0x3004, 44), (0x3025, 0x40),
    (0x4000, 0x41), (0x4001, 0x50), (0x4002, 0x49), (0x4003, 0x43)].lookup
      a.toNat).getD 0

def apic : ℕ → BitVec 8 :=
  fun i => [0x41, 0x50, 0x49, 0x43].getD i 0

def apicMachine (revision : BitVec 8) (hhdmOffset : Word) :
    Machine 64 (AcpiGlobals Unit) :=
  acpiMachine (apicBytes revision) 0x1000 hhdmOffset

theorem apicBytes_signature : ∀ t ∈ tablePointers [0x4000], ∀ i < 4,
    apicBytes 2 (t + BitVec.ofNat 64 i) = apicBytes 0 (t + BitVec.ofNat 64 i) := by
  intro t ht
  obtain rfl := List.mem_singleton.1 ht
  decide

theorem listsTables_rsdt : ListsTables (apicBytes 0) 0x2000 4 [0x4000] where
  length := by decide
  below := by decide
  entries := by decide

theorem listsTables_xsdt : ListsTables (apicBytes 2) 0x3000 8 [0x4000] where
  length := by decide
  below := by decide
  entries := by decide

theorem rsdtAddress_apicBytes :
    xsdpInfo.get (apicBytes 0) 0x1000 .rsdtAddress = 0x2000 := by
  decide

theorem xsdtAddress_apicBytes :
    xsdpInfo.get (apicBytes 2) 0x1000 .xsdtAddress = 0x3000 := by
  decide

theorem offersTables_apicMachine {revision : BitVec 8}
    (h : revision = 0 ∨ revision = 2) (hhdmOffset : Word) {n : ℕ} (hn : n ≤ 36) :
    OffersTables (apicMachine revision hhdmOffset) n where
  rootRSDT := rfl
  readable i hi := by
    have hlt : ((0x1000 : Word) + BitVec.ofNat 64 i).toNat < 2 ^ 32 := by
      rw [BitVec.toNat_add_of_lt] <;> rw [BitVec.toNat_ofNat] <;> simp <;> omega
    have hlow : directMapped hhdmOffset (0x1000 + BitVec.ofNat 64 i) = some _ :=
      if_pos hlt
    exact ⟨canonical_of_lt (lt_trans hlt (by decide)),
      Option.isSome_of_mem hlow⟩
  signature := by
    change ∀ i < 8, apicBytes revision (0x1000 + BitVec.ofNat 64 i) = rsdPtr i
    rcases h with rfl | rfl <;> decide

theorem offersRSDT_apicMachine (hhdmOffset : Word) :
    OffersRSDT (apicMachine 0 hhdmOffset) [0x4000] where
  toOffersTables := offersTables_apicMachine (Or.inl rfl) hhdmOffset (by decide)
  revision := by
    change xsdpInfo.get (apicBytes 0) 0x1000 .revision = 0
    decide
  ne_zero := by
    change xsdpInfo.get (apicBytes 0) 0x1000 .rsdtAddress ≠ 0
    rw [rsdtAddress_apicBytes]
    decide
  tables := by
    change ListsTables (apicBytes 0)
      (xsdpInfo.get (apicBytes 0) 0x1000 .rsdtAddress) 4 [0x4000]
    rw [rsdtAddress_apicBytes]
    exact listsTables_rsdt

theorem offersXSDT_apicMachine (hhdmOffset : Word) :
    OffersXSDT (apicMachine 2 hhdmOffset) [0x4000] where
  toOffersTables := offersTables_apicMachine (Or.inr rfl) hhdmOffset le_rfl
  revision := by
    change 2 ≤ xsdpInfo.get (apicBytes 2) 0x1000 .revision
    decide
  tables := by
    change ListsTables (apicBytes 2)
      (xsdpInfo.get (apicBytes 2) 0x1000 .xsdtAddress) 8 [0x4000]
    rw [xsdtAddress_apicBytes]
    exact listsTables_xsdt

theorem tablePointers_apic : ∀ p ∈ tablePointers [0x4000],
    p.toNat + 4 ≤ 2 ^ 32 := by
  intro p hp
  obtain rfl := List.mem_singleton.1 hp
  decide

/-- With the offset 0 the machine finds the table both ways. -/
theorem findsTable_both_iff_apicMachine :
    FindsTable (apicMachine 0 0) [0x4000] apic ∧
      FindsTable (apicMachine 2 0) [0x4000] apic := by
  have hmap : LowMapped (directMapped 0) 0 [0x4000] :=
    lowMapped_directMapped (Or.inl rfl) tablePointers_apic
  have hmap' : LowMapped (apicMachine 2 0).globals.translate
      (apicMachine 0 0).globals.hhdmOffset [0x4000] := hmap
  exact (findsTable_both_iff hmap hmap' rfl (offersRSDT_apicMachine 0)
    (offersXSDT_apicMachine 0) apicBytes_signature apic).2 (Or.inl rfl)

theorem not_canonical_below_apic :
    ¬ Canonical (0x4000 - 0xffff800000000000 : Word) := by
  decide

/-- With the direct map at the start of the upper half, the search of the XSDT
ends by a fault. -/
theorem not_findsTable_both_apicMachine :
    LowMapped (directMapped 0xffff800000000000) 0xffff800000000000 [0x4000] ∧
      OffersRSDT (apicMachine 0 0xffff800000000000) [0x4000] ∧
      OffersXSDT (apicMachine 2 0xffff800000000000) [0x4000] ∧
      (∀ t ∈ tablePointers [0x4000], ∀ i < 4,
        apicBytes 2 (t + BitVec.ofNat 64 i) =
          apicBytes 0 (t + BitVec.ofNat 64 i)) ∧
      (∃ t, (do
          let _ ← initACPI
          acpiFindTable apic : Code 64 (AcpiGlobals Unit) Addr).run
        (apicMachine 2 0xffff800000000000) = .error .fault t) ∧
      ¬ (FindsTable (apicMachine 0 0xffff800000000000) [0x4000] apic ∧
        FindsTable (apicMachine 2 0xffff800000000000) [0x4000] apic) := by
  have hmap : LowMapped (directMapped 0xffff800000000000) 0xffff800000000000
      [0x4000] :=
    lowMapped_directMapped (Or.inr ⟨by decide, by decide⟩) tablePointers_apic
  obtain ⟨u, hrun⟩ := (offersXSDT_apicMachine _).exists_run hmap apic
  have hfault : bytesAt (apicMachine 2 0xffff800000000000)
      (0x4000 - 0xffff800000000000) 0 = none :=
    if_neg fun hread => not_canonical_below_apic hread.1
  have hcompare : memorycmp (bytesAt (apicMachine 2 0xffff800000000000)
      (0x4000 - 0xffff800000000000)) apic 4 = none := by
    rw [memorycmp, memorycmpFrom, hfault]
    rfl
  rw [run_readMemory_of_none] at hrun
  · refine ⟨hmap, offersRSDT_apicMachine _, offersXSDT_apicMachine _,
      apicBytes_signature, ⟨u, hrun⟩, ?_⟩
    rintro ⟨-, t, hfound⟩
    rw [hrun] at hfound
    exact absurd hfound (by simp)
  · change searched _ [0x4000 - 0xffff800000000000] = none
    rw [searched, hcompare]
    rfl

end OptimistOS
