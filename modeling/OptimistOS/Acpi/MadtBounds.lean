import OptimistOS.Acpi.Madt

/-!
# What the walk over the interrupt controller table reads

The loop of `initMADT` steps by a byte of the table itself and stops behind
`length - sizeof(madtInformation)`, which is 28 bytes behind the table. It ends,
and reads nothing behind the table, exactly when an entry that still starts in
the table claims to reach over these 28 bytes (`Overshoots`); no well-formed
table has one.
-/

namespace OptimistOS

open ByteMemory

inductive Visits (m : Bytes) (madt : Addr) (bound : ℕ) : ℕ → Prop
  | start : Visits m madt bound 0
  | step {o : ℕ} (h : Visits m madt bound o)
      (hle : o + entryLength m madt o ≤ bound) :
      Visits m madt bound (o + entryLength m madt o)

/-- The bytes, counted from the start of the table, that the loop reads when it
comes to the entry at offset `o`: the length of the table, the type and the
length of the entry, and the address that an entry of type 5 holds. -/
def entryReads (m : Bytes) (madt : Addr) (o : ℕ) : Set ℕ :=
  { b | 4 ≤ b ∧ b < 8 ∨ 44 + o ≤ b ∧ b < 46 + o ∨
    entryType m madt o = 5 ∧ 52 + o ≤ b ∧ b < 60 + o }

theorem get_congr_offsets {F : Type} (layout : Layout 64 F) {m m' : Bytes}
    {base : Addr} {k : ℕ} (f : F)
    (h : ∀ b, k + layout.offset f ≤ b →
      b < k + layout.offset f + layout.width f →
      m' (base + BitVec.ofNat 64 b) = m (base + BitVec.ofNat 64 b)) :
    layout.get m' (base + BitVec.ofNat 64 k) f =
      layout.get m (base + BitVec.ofNat 64 k) f := by
  rw [Layout.get, Layout.get, add_ofNat_add_ofNat]
  refine congrArg _ (load_congr (layout.width_le f) fun x hx => ?_)
  obtain ⟨i, hi, rfl⟩ := (mem_region_iff_exists _ _ (layout.width_le f)).1 hx
  rw [add_ofNat_add_ofNat]
  exact h _ (by omega) (by omega)

theorem entryAddr_eq (madt : Addr) (o : ℕ) :
    entryAddr madt o = madt + BitVec.ofNat 64 (44 + o) :=
  add_ofNat_add_ofNat madt 44 o

/-- The bytes of `entryReads` are all the bytes that a visit depends on. -/
theorem visit_congr {m m' : Bytes} {madt : Addr} {o : ℕ}
    (h : ∀ b ∈ entryReads m madt o,
      m' (madt + BitVec.ofNat 64 b) = m (madt + BitVec.ofNat 64 b))
    (g : MadtGlobals) :
    madtLayout.get m' madt .length = madtLayout.get m madt .length ∧
      entryLength m' madt o = entryLength m madt o ∧
      visitEntry m' g (entryAddr madt o) = visitEntry m g (entryAddr madt o) := by
  have htype : madtEntry.get m' (entryAddr madt o) .type =
      madtEntry.get m (entryAddr madt o) .type := by
    rw [entryAddr_eq]
    exact get_congr_offsets madtEntry .type fun b hb hb' =>
      h b (Or.inr (Or.inl ⟨hb, by change b < 44 + o + 0 + 1 at hb'; omega⟩))
  have hlength : entryLength m' madt o = entryLength m madt o := by
    rw [entryLength, entryLength, entryAddr_eq]
    refine congrArg _ (get_congr_offsets madtEntry .length fun b hb hb' => ?_)
    change 44 + o + 1 ≤ b at hb
    change b < 44 + o + 1 + 1 at hb'
    exact h b (Or.inr (Or.inl ⟨by omega, by omega⟩))
  refine ⟨?_, hlength, ?_⟩
  · have hlen := @get_congr_offsets _ madtLayout m m' madt 0 .length
      fun b hb hb' => h b (Or.inl ⟨by change 0 + 4 ≤ b at hb; omega,
        by change b < 0 + 4 + 4 at hb'; omega⟩)
    rwa [BitVec.add_zero] at hlen
  · by_cases h5 : entryType m madt o = 5
    · have hphys : lapicAddr.get m' (entryAddr madt o) .physLapic =
          lapicAddr.get m (entryAddr madt o) .physLapic := by
        rw [entryAddr_eq]
        refine get_congr_offsets lapicAddr .physLapic fun b hb hb' => ?_
        change 44 + o + 8 ≤ b at hb
        change b < 44 + o + 8 + 8 at hb'
        exact h b (Or.inr (Or.inr ⟨h5, by omega, by omega⟩))
      simp only [visitEntry, htype, hphys]
    · rw [entryType] at h5
      simp only [visitEntry, htype, if_neg h5]

/-- The loop ends and reads no byte behind the table of length `L`. -/
structure StaysInside (m : Bytes) (madt : Addr) (L : ℕ) : Prop where
  ends : ∀ g, ∃ fuel g', madtLoop m madt fuel 0 g = some g'
  reads : ∀ o, Visits m madt (L - 16) o → ∀ b ∈ entryReads m madt o, b < L

/-- The entries from offset `o` on start early enough in the table of length `L`
to be read, and none is empty, up to one that claims to reach at least 29 bytes
behind the table. -/
inductive Overshoots (m : Bytes) (madt : Addr) (L : ℕ) : ℕ → Prop
  | last {o : ℕ} (hin : 46 + o ≤ L)
      (h5 : entryType m madt o = 5 → 60 + o ≤ L)
      (hover : L + 29 ≤ 44 + o + entryLength m madt o) : Overshoots m madt L o
  | next {o : ℕ} (hin : 46 + o ≤ L)
      (h5 : entryType m madt o = 5 → 60 + o ≤ L)
      (hlen : 0 < entryLength m madt o)
      (hs : Overshoots m madt L (o + entryLength m madt o)) :
      Overshoots m madt L o

section

variable {m : Bytes} {madt : Addr} {bound L o p : ℕ} {vs : List ℕ}

theorem Visited.next_mem (h : Visited m madt bound o vs) (hp : p ∈ vs)
    (hle : p + entryLength m madt p ≤ bound) :
    p + entryLength m madt p ∈ vs := by
  induction h with
  | stop => exact absurd hp (by simp)
  | step _ hs ih =>
      rcases List.mem_cons.1 hp with rfl | hp
      · refine List.mem_cons_of_mem _ ?_
        cases hs with
        | stop hlt => omega
        | step => exact List.mem_cons_self
      · exact List.mem_cons_of_mem _ (ih hp)

theorem Visits.mem (hv : Visits m madt bound p)
    (h : Visited m madt bound 0 vs) : p ∈ vs := by
  induction hv with
  | start =>
      cases h with
      | stop hlt => omega
      | step => exact List.mem_cons_self
  | step _ hle ih => exact h.next_mem ih hle

theorem Visited.length_pos (h : Visited m madt bound o vs) (hle : o ≤ bound) :
    0 < entryLength m madt o := by
  cases h with
  | stop hlt => omega
  | @step _ os _ hs =>
      by_contra hzero
      have hlen : entryLength m madt o = 0 := by omega
      rw [hlen, Nat.add_zero] at hs
      have hsame := hs.unique (.step hle (by rwa [hlen, Nat.add_zero]))
      exact absurd (congrArg List.length hsame) (by simp)

theorem Overshoots.visited (h : Overshoots m madt L o) :
    ∃ vs, Visited m madt (L - 16) o vs ∧
      ∀ p ∈ vs, 46 + p ≤ L ∧ (entryType m madt p = 5 → 60 + p ≤ L) := by
  induction h with
  | @last o hin h5 hover =>
      refine ⟨[o], .step (by omega) (.stop (by omega)), fun p hp => ?_⟩
      rw [List.mem_singleton.1 hp]
      exact ⟨hin, h5⟩
  | @next o hin h5 _ _ ih =>
      obtain ⟨vs, hvs, hall⟩ := ih
      refine ⟨o :: vs, .step (by omega) hvs, fun p hp => ?_⟩
      rcases List.mem_cons.1 hp with rfl | hp
      · exact ⟨hin, h5⟩
      · exact hall p hp

theorem Visited.overshoots (h : Visited m madt (L - 16) o vs)
    (ho : o ≤ L - 16) (hv : Visits m madt (L - 16) o)
    (hreads : ∀ p, Visits m madt (L - 16) p → ∀ b ∈ entryReads m madt p, b < L) :
    Overshoots m madt L o := by
  induction h with
  | stop hlt => omega
  | @step o os hle hs ih =>
      have hin := hreads o hv (45 + o) (Or.inr (Or.inl ⟨by omega, by omega⟩))
      have h5 : entryType m madt o = 5 → 60 + o ≤ L := by
        intro ht
        have hlast := hreads o hv (59 + o)
          (Or.inr (Or.inr ⟨ht, by omega, by omega⟩))
        omega
      by_cases hnext : o + entryLength m madt o ≤ L - 16
      · exact .next (by omega) h5 ((Visited.step hle hs).length_pos hle)
          (ih hnext (hv.step hnext))
      · exact .last (by omega) h5 (by omega)

theorem toNat_bound (hlen : (madtLayout.get m madt .length).toNat = L)
    (hL : 44 ≤ L) :
    (madtLayout.get m madt .length - sizeofMadtInfo).toNat = L - 16 ∧
      L < 2 ^ 32 := by
  have hlt : (madtLayout.get m madt .length).toNat < 2 ^ 32 :=
    madtLayout.get_toNat_lt m madt .length
  refine ⟨?_, by omega⟩
  rw [sizeofMadtInfo, BitVec.toNat_sub, hlen]
  change (2 ^ 64 - 16 + L) % 2 ^ 64 = L - 16
  omega

theorem madtLoop_congr {m' : Bytes}
    (hbound : (madtLayout.get m madt .length - sizeofMadtInfo).toNat = bound)
    (hlt : bound < 2 ^ 32)
    (h : ∀ p, Visits m madt bound p → ∀ b ∈ entryReads m madt p,
      m' (madt + BitVec.ofNat 64 b) = m (madt + BitVec.ofNat 64 b))
    {fuel : ℕ} (ho : o ≤ bound → Visits m madt bound o) (hmax : o ≤ bound + 255)
    (g : MadtGlobals) :
    madtLoop m' madt fuel (BitVec.ofNat 64 o) g =
      madtLoop m madt fuel (BitVec.ofNat 64 o) g := by
  have hlength := (visit_congr (h 0 .start) g).1
  have hlt' := entryLength_lt m madt o
  induction fuel generalizing o g with
  | zero => rfl
  | succ fuel ih =>
      rw [madtLoop, madtLoop, hlength]
      split_ifs with hstop
      · rfl
      · have hle : o ≤ bound :=
          not_lt.1 (mt (bound_lt_iff hbound hlt hmax).2 hstop)
        obtain ⟨-, hstep, hvisit⟩ := visit_congr (h o (ho hle)) g
        rw [entryAddr] at hvisit
        rw [ofNat_add_length, ofNat_add_length, hstep, hvisit]
        exact ih (fun hle' => (ho hle).step hle') (by omega) _
          (entryLength_lt m madt _)

/-- The loop ends inside the table exactly when an entry overshoots it. -/
theorem staysInside_iff
    (hlen : (madtLayout.get m madt .length).toNat = L) (hL : 44 ≤ L) :
    StaysInside m madt L ↔ Overshoots m madt L 0 := by
  obtain ⟨hbound, hlt⟩ := toNat_bound hlen hL
  constructor
  · rintro ⟨hends, hreads⟩
    obtain ⟨fuel, g', hloop⟩ := hends .zero
    obtain ⟨vs, hvs, -⟩ := exists_visited_of_madtLoop hbound (by omega)
      (o := 0) (by omega) hloop
    exact hvs.overshoots (by omega) .start hreads
  · intro h
    obtain ⟨vs, hvs, hall⟩ := h.visited
    refine ⟨fun g => ⟨_, _, madtLoop_of_visited hbound (by omega) (o := 0)
      (by omega) hvs g⟩, fun p hp b hb => ?_⟩
    obtain ⟨hin, h5⟩ := hall p (hp.mem hvs)
    rcases hb with ⟨-, hb⟩ | ⟨-, hb⟩ | ⟨ht, -, hb⟩
    · omega
    · omega
    · have := h5 ht
      omega

end

theorem staysInside_iff_ioAPICTable :
    StaysInside ioAPICTable 0x1000 56 ↔ Overshoots ioAPICTable 0x1000 56 0 :=
  staysInside_iff (by decide) (by decide)

/-- Behind the one entry of this table the loop goes on. -/
theorem exists_not_staysInside :
    (madtLayout.get ioAPICTable 0x1000 .length).toNat = 56 ∧
      ¬ StaysInside ioAPICTable 0x1000 56 := by
  refine ⟨by decide, fun h => ?_⟩
  have hv : Visits ioAPICTable 0x1000 (56 - 16) 12 :=
    .step .start (by decide : 0 + entryLength ioAPICTable 0x1000 0 ≤ 56 - 16)
  have hread := h.reads 12 hv 56 (Or.inr (Or.inl ⟨by omega, by omega⟩))
  omega

end OptimistOS
