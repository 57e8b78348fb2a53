import OptimistOS.Boot.BootInfo
import OptimistOS.Foundation.Layout

/-!
# The interrupt controller table

`madt.cpp`: the walk of `initMADT` over the entries of the table and the lists
it leaves behind. The bound of the walk is 28 bytes too large, so it always goes
on into the bytes behind the table, and it clears both counters at every entry,
so at the end they only speak about the last one. `Visited` is the walk as the
code makes it, `Entries` the walk over the entries of the table alone.
-/

namespace OptimistOS

open ByteMemory

inductive Madt
  | length
  deriving DecidableEq, Repr

/-- `MADT`; the entries follow the record. -/
def madtLayout : Layout 64 Madt where
  offset _ := 4
  width _ := 4
  sizeof := 44
  fits f := by cases f; decide
  apart f g h := by cases f; cases g; exact absurd rfl h
  sizeof_le := by decide

inductive MadtEntry
  | type
  | length
  deriving DecidableEq, Repr

def madtEntry : Layout 64 MadtEntry where
  offset
    | .type => 0
    | .length => 1
  width _ := 1
  sizeof := 2
  fits f := by cases f <;> decide
  apart f g h := by cases f <;> cases g <;> simp at h ⊢
  sizeof_le := by decide

inductive LapicAddr
  | un
  | resv
  | physLapic
  deriving DecidableEq, Repr

/-- `lapicAddr` is not packed, so the address lies at offset 8. -/
def lapicAddr : Layout 64 LapicAddr where
  offset
    | .un => 0
    | .resv => 2
    | .physLapic => 8
  width
    | .physLapic => 8
    | _ => 2
  sizeof := 16
  fits f := by cases f <;> decide
  apart f g h := by cases f <;> cases g <;> simp at h ⊢
  sizeof_le := by decide

structure MadtInfo where
  ioAPICLen : BitVec 32
  madtISOLen : BitVec 32
  lapicAddr : Word

def sizeofMadtInfo : Word := 16

structure MadtGlobals where
  madtInformationList : ℕ → Addr
  madtISOList : ℕ → Addr
  madtInformation : MadtInfo

def visitEntry (m : Bytes) (g : MadtGlobals) (entry : Addr) : MadtGlobals :=
  let g := { g with madtInformation.ioAPICLen := 0
                    madtInformation.madtISOLen := 0 }
  if madtEntry.get m entry .type = 1 then
    { g with
      madtInformationList := Function.update g.madtInformationList
        g.madtInformation.ioAPICLen.toNat entry
      madtInformation.ioAPICLen := g.madtInformation.ioAPICLen + 1 }
  else if madtEntry.get m entry .type = 2 then
    { g with
      madtISOList := Function.update g.madtISOList
        g.madtInformation.madtISOLen.toNat entry
      madtInformation.madtISOLen := g.madtInformation.madtISOLen + 1 }
  else if madtEntry.get m entry .type = 5 then
    { g with
      madtInformation.lapicAddr := lapicAddr.get m entry .physLapic }
  else g

def entryAt (madt : Addr) (offset : Word) : Addr := madt + 44 + offset

/-- The loop of `initMADT`; `none` when `fuel` runs out. -/
def madtLoop (m : Bytes) (madt : Addr) :
    ℕ → Word → MadtGlobals → Option MadtGlobals
  | 0, _, _ => none
  | fuel + 1, offset, g =>
      if madtLayout.get m madt .length - sizeofMadtInfo < offset then some g
      else
        madtLoop m madt fuel
          (offset + madtEntry.get m (entryAt madt offset) .length)
          (visitEntry m g (entryAt madt offset))

def initMADT (m : Bytes) (madt : Addr) (fuel : ℕ) (g : MadtGlobals) :
    Except Stop MadtGlobals :=
  if madt = 0 then .error .halt
  else
    match madtLoop m madt fuel 0 g with
    | none => .error .fuel
    | some g' => .ok g'

def entryAddr (madt : Addr) (o : ℕ) : Addr := entryAt madt (BitVec.ofNat 64 o)

def entryType (m : Bytes) (madt : Addr) (o : ℕ) : Word :=
  madtEntry.get m (entryAddr madt o) .type

def entryLength (m : Bytes) (madt : Addr) (o : ℕ) : ℕ :=
  (madtEntry.get m (entryAddr madt o) .length).toNat

inductive Visited (m : Bytes) (madt : Addr) (bound : ℕ) : ℕ → List ℕ → Prop
  | stop {o : ℕ} (h : bound < o) : Visited m madt bound o []
  | step {o : ℕ} {os : List ℕ} (h : o ≤ bound)
      (hs : Visited m madt bound (o + entryLength m madt o) os) :
      Visited m madt bound o (o :: os)

inductive Entries (m : Bytes) (madt : Addr) (e : ℕ) : ℕ → List ℕ → Prop
  | nil : Entries m madt e e []
  | cons {o : ℕ} {os : List ℕ} (h : 2 ≤ entryLength m madt o)
      (hs : Entries m madt e (o + entryLength m madt o) os) :
      Entries m madt e o (o :: os)

/-- The table at `madt` is well formed, with entries at the offsets `os` and `e`
bytes of entries. -/
structure WellFormedMadt (m : Bytes) (madt : Addr) (e : ℕ) (os : List ℕ) :
    Prop where
  ne_zero : madt ≠ 0
  length : (madtLayout.get m madt .length).toNat = 44 + e
  entries : Entries m madt e 0 os
  ioAPICs : (os.filter fun o => entryType m madt o = 1).length ≤ 128
  isos : (os.filter fun o => entryType m madt o = 2).length ≤ 128

theorem entryLength_lt (m : Bytes) (madt : Addr) (o : ℕ) :
    entryLength m madt o < 256 :=
  madtEntry.get_toNat_lt m _ .length

theorem ofNat_add_length (m : Bytes) (madt : Addr) (o : ℕ) :
    BitVec.ofNat 64 o +
        madtEntry.get m (entryAt madt (BitVec.ofNat 64 o)) .length =
      BitVec.ofNat 64 (o + entryLength m madt o) := by
  rw [BitVec.ofNat_add, entryLength, BitVec.ofNat_toNat, BitVec.setWidth_eq]
  rfl

theorem bound_lt_iff {m : Bytes} {madt : Addr} {bound o : ℕ}
    (hbound : (madtLayout.get m madt .length - sizeofMadtInfo).toNat = bound)
    (hlt : bound < 2 ^ 32) (ho : o ≤ bound + 255) :
    madtLayout.get m madt .length - sizeofMadtInfo < BitVec.ofNat 64 o ↔
      bound < o := by
  rw [BitVec.lt_def, hbound, BitVec.toNat_ofNat,
    Nat.mod_eq_of_lt (by omega : o < 2 ^ 64)]

theorem Entries.le {m : Bytes} {madt : Addr} {e o : ℕ} {os : List ℕ}
    (h : Entries m madt e o os) : o ≤ e ∧ ∀ p ∈ os, p < e := by
  induction h with
  | nil => exact ⟨le_rfl, by simp⟩
  | cons hlen _ ih =>
      refine ⟨by omega, fun p hp => ?_⟩
      rcases List.mem_cons.1 hp with rfl | hp
      · omega
      · exact ih.2 p hp

theorem Visited.of_entries {m : Bytes} {madt : Addr} {bound e o : ℕ}
    {os vs : List ℕ} (h : Entries m madt e o os) (he : e ≤ bound)
    (hv : Visited m madt bound o vs) :
    ∃ js, vs = os ++ js ∧ Visited m madt bound e js := by
  induction h generalizing vs with
  | nil => exact ⟨vs, rfl, hv⟩
  | cons hlen hs ih =>
      have hle := hs.le.1
      cases hv with
      | stop hlt => omega
      | step _ hrest =>
          obtain ⟨js, rfl, hjs⟩ := ih hrest
          exact ⟨js, rfl, hjs⟩

theorem Visited.append {m : Bytes} {madt : Addr} {bound e o : ℕ}
    {os js : List ℕ} (h : Entries m madt e o os) (he : e ≤ bound)
    (hjs : Visited m madt bound e js) : Visited m madt bound o (os ++ js) := by
  induction h with
  | nil => exact hjs
  | cons hlen hs ih =>
      have hle := hs.le.1
      exact .step (by omega) ih

theorem Visited.mem_le {m : Bytes} {madt : Addr} {bound o : ℕ} {vs : List ℕ}
    (h : Visited m madt bound o vs) : ∀ p ∈ vs, o ≤ p ∧ p ≤ bound := by
  induction h with
  | stop => simp
  | step hle _ ih =>
      intro p hp
      rcases List.mem_cons.1 hp with rfl | hp
      · exact ⟨le_rfl, hle⟩
      · exact ⟨by have := (ih p hp).1; omega, (ih p hp).2⟩

theorem Visited.unique {m : Bytes} {madt : Addr} {bound o : ℕ} {vs ws : List ℕ}
    (h : Visited m madt bound o vs) (h' : Visited m madt bound o ws) :
    vs = ws := by
  induction h generalizing ws with
  | stop hlt =>
      cases h' with
      | stop => rfl
      | step hle => omega
  | step hle _ ih =>
      cases h' with
      | stop hlt => omega
      | step _ hs' => rw [ih hs']

def visitAll (m : Bytes) (madt : Addr) (vs : List ℕ) (g : MadtGlobals) :
    MadtGlobals :=
  vs.foldl (fun g o => visitEntry m g (entryAddr madt o)) g

theorem exists_visited_of_madtLoop {m : Bytes} {madt : Addr} {bound : ℕ}
    (hbound : (madtLayout.get m madt .length - sizeofMadtInfo).toNat = bound)
    (hlt : bound < 2 ^ 32) {fuel o : ℕ} (ho : o ≤ bound + 255)
    {g g' : MadtGlobals}
    (h : madtLoop m madt fuel (BitVec.ofNat 64 o) g = some g') :
    ∃ vs, Visited m madt bound o vs ∧ g' = visitAll m madt vs g := by
  induction fuel generalizing o g with
  | zero => exact absurd h (by simp [madtLoop])
  | succ fuel ih =>
      have hcond := bound_lt_iff hbound hlt ho
      have hlen := entryLength_lt m madt o
      rw [madtLoop] at h
      by_cases hstop : bound < o
      · rw [if_pos (hcond.2 hstop), Option.some.injEq] at h
        exact ⟨[], .stop hstop, h.symm⟩
      · rw [if_neg (mt hcond.1 hstop), ofNat_add_length] at h
        obtain ⟨vs, hvs, rfl⟩ := ih (by omega) h
        exact ⟨o :: vs, .step (by omega) hvs, rfl⟩

theorem madtLoop_of_visited {m : Bytes} {madt : Addr} {bound : ℕ}
    (hbound : (madtLayout.get m madt .length - sizeofMadtInfo).toNat = bound)
    (hlt : bound < 2 ^ 32) {o : ℕ} (ho : o ≤ bound + 255) {vs : List ℕ}
    (h : Visited m madt bound o vs) (g : MadtGlobals) :
    madtLoop m madt (vs.length + 1) (BitVec.ofNat 64 o) g =
      some (visitAll m madt vs g) := by
  induction h generalizing g with
  | @stop o hstop =>
      rw [madtLoop, if_pos ((bound_lt_iff hbound hlt ho).2 hstop)]
      rfl
  | @step o os hle _ ih =>
      have hlen := entryLength_lt m madt o
      rw [madtLoop, if_neg (mt (bound_lt_iff hbound hlt ho).1 (not_lt.2 hle)),
        ofNat_add_length]
      exact ih (by omega) _

/-- `madtInformationList[0..ioAPICLen)`. -/
def ioAPICs (g : MadtGlobals) : List Addr :=
  (List.range g.madtInformation.ioAPICLen.toNat).map g.madtInformationList

/-- `madtISOList[0..madtISOLen)`. -/
def madtISOs (g : MadtGlobals) : List Addr :=
  (List.range g.madtInformation.madtISOLen.toNat).map g.madtISOList

theorem ioAPICs_visitEntry (m : Bytes) (g : MadtGlobals) (entry : Addr) :
    ioAPICs (visitEntry m g entry) =
      if madtEntry.get m entry .type = 1 then [entry] else [] := by
  rw [visitEntry]
  split_ifs <;> simp [ioAPICs]

theorem madtISOs_visitEntry (m : Bytes) (g : MadtGlobals) (entry : Addr) :
    madtISOs (visitEntry m g entry) =
      if madtEntry.get m entry .type = 2 then [entry] else [] := by
  rw [visitEntry]
  split_ifs with h1 h2 h2
  · rw [h1] at h2
    exact absurd h2 (by decide)
  all_goals simp [madtISOs]

theorem lapicAddr_visitEntry (m : Bytes) (g : MadtGlobals) (entry : Addr) :
    (visitEntry m g entry).madtInformation.lapicAddr =
      if madtEntry.get m entry .type = 5 then
        lapicAddr.get m entry .physLapic
      else g.madtInformation.lapicAddr := by
  rw [visitEntry]
  by_cases h5 : madtEntry.get m entry .type = 5
  · rw [h5, if_neg (by decide), if_neg (by decide), if_pos rfl, if_pos rfl]
  · rw [if_neg h5, if_neg h5]
    split_ifs <;> rfl

theorem visitAll_snoc (m : Bytes) (madt : Addr) (vs : List ℕ) (o : ℕ)
    (g : MadtGlobals) :
    visitAll m madt (vs ++ [o]) g =
      visitEntry m (visitAll m madt vs g) (entryAddr madt o) :=
  List.foldl_concat ..

def lastLapic (m : Bytes) (madt : Addr) (os : List ℕ) : Option ℕ :=
  (os.filter fun o => entryType m madt o = 5).getLast?

theorem lastLapic_snoc (m : Bytes) (madt : Addr) (vs : List ℕ) (o : ℕ) :
    lastLapic m madt (vs ++ [o]) =
      if entryType m madt o = 5 then some o else lastLapic m madt vs := by
  rw [lastLapic, List.filter_append, List.filter_singleton]
  split_ifs with h
  · rw [decide_eq_true h, cond_true, List.getLast?_concat]
  · rw [decide_eq_false h, cond_false, List.append_nil, lastLapic]

theorem lapicAddr_visitAll (m : Bytes) (madt : Addr) (vs : List ℕ)
    (g : MadtGlobals) :
    (visitAll m madt vs g).madtInformation.lapicAddr =
      match lastLapic m madt vs with
      | none => g.madtInformation.lapicAddr
      | some o => lapicAddr.get m (entryAddr madt o) .physLapic := by
  induction vs using List.reverseRecOn with
  | nil => rfl
  | append_singleton vs o ih =>
      rw [visitAll_snoc, lapicAddr_visitEntry, lastLapic_snoc, entryType]
      split_ifs
      · rfl
      · exact ih

/-- What `initMADT` should leave for a table with entries at `os`. -/
structure MadtParsed (m : Bytes) (madt : Addr) (os : List ℕ)
    (g : MadtGlobals) : Prop where
  ioAPICs : ioAPICs g =
    (os.filter fun o => entryType m madt o = 1).map (entryAddr madt)
  isos : madtISOs g =
    (os.filter fun o => entryType m madt o = 2).map (entryAddr madt)
  lapic : ∀ o, lastLapic m madt os = some o →
    g.madtInformation.lapicAddr =
      BitVec.ofNat 64 (load m (entryAddr madt o + 4) 8)

/-- The table has no entries of types 1 and 2, and what the bytes behind it look
like to the walk, the entries at `js`, does no harm: the last one is not of
these types, and the last entry of type 5 of all holds at offset 8 what the last
one of the table holds at offset 4. -/
def OverrunHarmless (m : Bytes) (madt : Addr) (e : ℕ) (os : List ℕ) : Prop :=
  ∃ js, Visited m madt (e + 28) e js ∧
    (∀ o ∈ os, entryType m madt o ≠ 1 ∧ entryType m madt o ≠ 2) ∧
    (∀ j, js.getLast? = some j →
      entryType m madt j ≠ 1 ∧ entryType m madt j ≠ 2) ∧
    ∀ o q, lastLapic m madt os = some o →
      lastLapic m madt (os ++ js) = some q →
      lapicAddr.get m (entryAddr madt q) .physLapic =
        BitVec.ofNat 64 (load m (entryAddr madt o + 4) 8)

theorem entryAddr_inj {madt : Addr} {o p : ℕ} (ho : o < 2 ^ 64)
    (hp : p < 2 ^ 64) (h : entryAddr madt o = entryAddr madt p) : o = p :=
  add_ofNat_inj (madt + 44) ho hp h

/-- A list that holds the entry `j` behind the table, if it is of the type `t`,
is the list of the entries of type `t` exactly when there is none and `j` is of
another type. -/
theorem last_eq_filter_iff (m : Bytes) (madt : Addr) {os : List ℕ} {j : ℕ}
    (t : Word) (hj : j < 2 ^ 64) (hos : ∀ o ∈ os, o < j) :
    (if entryType m madt j = t then [entryAddr madt j] else []) =
        (os.filter fun o => entryType m madt o = t).map (entryAddr madt) ↔
      (∀ o ∈ os, entryType m madt o ≠ t) ∧ entryType m madt j ≠ t := by
  constructor
  · intro h
    have hne : entryType m madt j ≠ t := by
      intro ht
      rw [if_pos ht] at h
      have hmem : entryAddr madt j ∈
          (os.filter fun o => entryType m madt o = t).map (entryAddr madt) :=
        h ▸ List.mem_singleton_self _
      obtain ⟨o, ho, heq⟩ := List.mem_map.1 hmem
      have hlt := hos o (List.mem_of_mem_filter ho)
      have := entryAddr_inj (by omega) hj heq
      omega
    rw [if_neg hne, eq_comm, List.map_eq_nil_iff, List.filter_eq_nil_iff] at h
    exact ⟨fun o ho => by simpa using h o ho, hne⟩
  · rintro ⟨hall, hne⟩
    rw [if_neg hne, eq_comm, List.map_eq_nil_iff, List.filter_eq_nil_iff]
    exact fun o ho => by simpa using hall o ho

/-- The walk leaves the table and visits at least one entry behind it. -/
theorem visitAll_parsed_iff {m : Bytes} {madt : Addr} {e : ℕ} {os js : List ℕ}
    (hlt : e < 2 ^ 32) (hos : ∀ o ∈ os, o < e)
    (hjs : Visited m madt (e + 28) e js) (g : MadtGlobals) :
    MadtParsed m madt os (visitAll m madt (os ++ js) g) ↔
      (∀ o ∈ os, entryType m madt o ≠ 1 ∧ entryType m madt o ≠ 2) ∧
      (∀ j, js.getLast? = some j →
        entryType m madt j ≠ 1 ∧ entryType m madt j ≠ 2) ∧
      ∀ o q, lastLapic m madt os = some o →
        lastLapic m madt (os ++ js) = some q →
        lapicAddr.get m (entryAddr madt q) .physLapic =
          BitVec.ofNat 64 (load m (entryAddr madt o + 4) 8) := by
  obtain ⟨js', j, rfl⟩ : ∃ js' j, js = js' ++ [j] := by
    cases hjs with
    | stop h => omega
    | step h hs => exact ⟨_, _, (List.dropLast_concat_getLast (by simp)).symm⟩
  obtain ⟨hle, hge⟩ := hjs.mem_le j (by simp)
  have hbelow : ∀ o ∈ os, o < j := fun o ho =>
    lt_of_lt_of_le (hos o ho) hle
  have hsnoc : visitAll m madt (os ++ (js' ++ [j])) g =
      visitEntry m (visitAll m madt (os ++ js') g) (entryAddr madt j) := by
    rw [← List.append_assoc, visitAll_snoc]
  have hone := last_eq_filter_iff m madt 1 (by omega) hbelow
  have htwo := last_eq_filter_iff m madt 2 (by omega) hbelow
  have hlapic := lapicAddr_visitAll m madt (os ++ (js' ++ [j])) g
  rw [List.getLast?_concat]
  constructor
  · rintro ⟨h1, h2, h5⟩
    rw [hsnoc, ioAPICs_visitEntry] at h1
    rw [hsnoc, madtISOs_visitEntry] at h2
    obtain ⟨hall1, hj1⟩ := hone.1 h1
    obtain ⟨hall2, hj2⟩ := htwo.1 h2
    refine ⟨fun o ho => ⟨hall1 o ho, hall2 o ho⟩, ?_, fun o q ho hq => ?_⟩
    · intro i hi
      rw [← Option.some.inj hi]
      exact ⟨hj1, hj2⟩
    · rw [hq] at hlapic
      exact hlapic.symm.trans (h5 o ho)
  · rintro ⟨hall, hj, h5⟩
    refine ⟨?_, ?_, fun o ho => ?_⟩
    · rw [hsnoc, ioAPICs_visitEntry]
      exact hone.2 ⟨fun o ho => (hall o ho).1, (hj j rfl).1⟩
    · rw [hsnoc, madtISOs_visitEntry]
      exact htwo.2 ⟨fun o ho => (hall o ho).2, (hj j rfl).2⟩
    · cases hq : lastLapic m madt (os ++ (js' ++ [j])) with
      | none =>
          rw [lastLapic, List.getLast?_eq_none_iff, List.filter_append,
            List.append_eq_nil_iff] at hq
          rw [lastLapic, hq.1] at ho
          exact absurd ho (by simp)
      | some q =>
          rw [hq] at hlapic
          exact hlapic.trans (h5 o q ho hq)

theorem WellFormedMadt.bound {m : Bytes} {madt : Addr} {e : ℕ} {os : List ℕ}
    (h : WellFormedMadt m madt e os) :
    (madtLayout.get m madt .length - sizeofMadtInfo).toNat = e + 28 ∧
      e < 2 ^ 32 - 28 := by
  have hlen := h.length
  have hlt : (madtLayout.get m madt .length).toNat < 2 ^ 32 :=
    madtLayout.get_toNat_lt m madt .length
  refine ⟨?_, by omega⟩
  rw [sizeofMadtInfo, BitVec.toNat_sub, hlen]
  change (2 ^ 64 - 16 + (44 + e)) % 2 ^ 64 = e + 28
  omega

/-- `initMADT`, when it ends, leaves the lists and the address of the table
exactly when the bytes behind the table are harmless. -/
theorem madtParsed_iff {m : Bytes} {madt : Addr} {e : ℕ} {os : List ℕ}
    {fuel : ℕ} {g g' : MadtGlobals} (hwf : WellFormedMadt m madt e os)
    (hend : initMADT m madt fuel g = .ok g') :
    MadtParsed m madt os g' ↔ OverrunHarmless m madt e os := by
  obtain ⟨hbound, hlt⟩ := hwf.bound
  have hloop : madtLoop m madt fuel 0 g = some g' := by
    rw [initMADT, if_neg hwf.ne_zero] at hend
    cases hl : madtLoop m madt fuel 0 g with
    | none =>
        rw [hl] at hend
        exact absurd hend (by simp)
    | some u =>
        rw [hl] at hend
        rw [Except.ok.inj hend]
  obtain ⟨vs, hvs, rfl⟩ :=
    exists_visited_of_madtLoop hbound (by omega) (o := 0) (by omega) hloop
  obtain ⟨js, rfl, hjs⟩ := hvs.of_entries hwf.entries (by omega)
  have hiff := visitAll_parsed_iff (by omega) hwf.entries.le.2 hjs g
  constructor
  · intro h
    exact ⟨js, hjs, hiff.1 h⟩
  · rintro ⟨js', hjs', h⟩
    exact hiff.2 (hjs.unique hjs' ▸ h)

/-- A table at `0x1000` whose one entry is an I/O APIC of 12 bytes. The first
two bytes behind it look like a local APIC entry of 40 bytes. -/
def ioAPICTable : Bytes := fun x =>
  if x = 0x1004 then 56
  else if x = 0x102c then 1
  else if x = 0x102d then 12
  else if x = 0x1039 then 40
  else 0

theorem wellFormed_ioAPICTable :
    WellFormedMadt ioAPICTable 0x1000 12 [0] ∧
      Visited ioAPICTable 0x1000 (12 + 28) 12 [12] := by
  refine ⟨⟨by decide, by decide, .cons (by decide) ?_, by decide, by decide⟩,
    .step (by decide) (.stop (by decide))⟩
  exact .nil

theorem initMADT_ioAPICTable (g : MadtGlobals) :
    initMADT ioAPICTable 0x1000 3 g =
      .ok (visitAll ioAPICTable 0x1000 [0, 12] g) := by
  obtain ⟨hwf, hjs⟩ := wellFormed_ioAPICTable
  obtain ⟨hbound, hlt⟩ := hwf.bound
  have hloop := madtLoop_of_visited hbound (by omega) (o := 0) (by omega)
    (hjs.append hwf.entries (by omega)) g
  rw [initMADT, if_neg hwf.ne_zero]
  change (match madtLoop ioAPICTable 0x1000 3 0 g with
    | none => Except.error Stop.fuel
    | some g' => Except.ok g') = _
  rw [show madtLoop ioAPICTable 0x1000 3 0 g = _ from hloop]
  rfl

theorem not_madtParsed_ioAPICTable (g : MadtGlobals) :
    ¬ MadtParsed ioAPICTable 0x1000 [0]
      (visitAll ioAPICTable 0x1000 [0, 12] g) := by
  obtain ⟨hwf, hjs⟩ := wellFormed_ioAPICTable
  intro h
  have hnone := ((visitAll_parsed_iff (by decide) hwf.entries.le.2 hjs g).1
    h).1 0 (by simp)
  exact hnone.1 (by decide)

/-- Nothing found yet. -/
def MadtGlobals.zero : MadtGlobals := ⟨fun _ => 0, fun _ => 0, ⟨0, 0, 0⟩⟩

theorem exists_wellFormed_not_madtParsed :
    ¬ ∀ (m : Bytes) (madt : Addr) (e : ℕ) (os : List ℕ) (fuel : ℕ)
      (g g' : MadtGlobals), WellFormedMadt m madt e os →
        initMADT m madt fuel g = .ok g' → MadtParsed m madt os g' := fun h =>
  not_madtParsed_ioAPICTable MadtGlobals.zero (h _ _ _ _ _ _ _
    wellFormed_ioAPICTable.1 (initMADT_ioAPICTable MadtGlobals.zero))

theorem madtParsed_iff_ioAPICTable :
    MadtParsed ioAPICTable 0x1000 [0]
        (visitAll ioAPICTable 0x1000 [0, 12] MadtGlobals.zero) ↔
      OverrunHarmless ioAPICTable 0x1000 12 [0] :=
  madtParsed_iff wellFormed_ioAPICTable.1
    (initMADT_ioAPICTable MadtGlobals.zero)

end OptimistOS
