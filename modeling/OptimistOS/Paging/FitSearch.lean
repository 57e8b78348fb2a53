import OptimistOS.Foundation.BestFit
import OptimistOS.Paging.FrameRegion

/-!
# The search for a block

The search of `allocateFrame` over a free list of any length. Its loop stops at
the block without a successor before it has looked at it, so a list of two or
more blocks is searched without its last one (`fitSearch_eq`). The block taken
is a smallest one that fits exactly when the last one is not strictly the
smallest (`takesBestFit_iff`).
-/

namespace OptimistOS

open ByteMemory ByteMemory.Code

def freeBlockSize (m : Bytes) (p : Addr) : ℕ := (fBlock.get m p .size).toNat

/-- The block is at least as large as the rounded request. -/
def Fits (m : Bytes) (roundedRequestSize : Word) (p : Addr) : Prop :=
  roundedRequestSize.toNat ≤ freeBlockSize m p

instance (m : Bytes) (r : Word) : DecidablePred (Fits m r) :=
  fun p => inferInstanceAs (Decidable (r.toNat ≤ freeBlockSize m p))

section

variable {m : Bytes} {r : Word} {p : Addr} {ps : List Addr}
  {selected : Option Addr}

theorem getD_better (hselected : ∀ b ∈ selected, b ≠ 0) :
    (if r ≤ fBlock.get m p .size ∧ (selected.getD 0 = 0 ∨
        fBlock.get m p .size < fBlock.get m (selected.getD 0) .size)
      then p else selected.getD 0) =
      (BestFit.better (Fits m r) (freeBlockSize m) selected p).getD 0 := by
  cases selected with
  | none =>
      by_cases h : r ≤ fBlock.get m p .size
      · have hfits : Fits m r p := h
        simp [BestFit.better, h, hfits]
      · have hfits : ¬ Fits m r p := h
        simp [BestFit.better, h, hfits]
  | some b =>
      have hb : b ≠ 0 := hselected b rfl
      by_cases h : Fits m r p ∧ freeBlockSize m p < freeBlockSize m b
      · rw [if_pos ⟨h.1, Or.inr h.2⟩]
        simp only [BestFit.better, if_pos h, Option.getD_some]
      · rw [if_neg fun hc => h ⟨hc.1, hc.2.resolve_left hb⟩]
        simp only [BestFit.better, if_neg h, Option.getD_some]

theorem better_ne_zero (hselected : ∀ b ∈ selected, b ≠ 0) (hp : p ≠ 0) :
    ∀ b ∈ BestFit.better (Fits m r) (freeBlockSize m) selected p, b ≠ 0 := by
  intro b hb
  rcases BestFit.better_mem _ _ hb with rfl | hb
  · exact hp
  · exact hselected b hb

theorem bestFit_eq (h : BlockList m p ps) (hne : ps ≠ []) {fuel : ℕ}
    (hfuel : ps.length ≤ fuel + 1) (hselected : ∀ b ∈ selected, b ≠ 0) :
    bestFit m r fuel p (selected.getD 0) = some
      ((ps.dropLast.foldl (BestFit.better (Fits m r) (freeBlockSize m))
        selected).getD 0) := by
  induction h generalizing fuel selected with
  | nil => exact absurd rfl hne
  | @cons p qs hp hqs ih =>
      cases qs with
      | nil =>
          have hnext : fBlock.get m p .next = 0 := by
            generalize fBlock.get m p .next = q at hqs
            cases hqs
            rfl
          cases fuel <;> rw [bestFit, if_pos hnext] <;> rfl
      | cons q qs =>
          have hnext : fBlock.get m p .next ≠ 0 := by
            generalize fBlock.get m p .next = q at hqs
            cases hqs
            assumption
          obtain ⟨fuel, rfl⟩ : ∃ k, fuel = k + 1 :=
            ⟨fuel - 1, by simp only [List.length_cons] at hfuel; omega⟩
          rw [bestFit, if_neg hnext, getD_better hselected,
            ih (List.cons_ne_nil _ _)
              (by simp only [List.length_cons] at hfuel ⊢; omega)
              (better_ne_zero hselected hp)]
          rfl

theorem fitSearch_singleton (h : BlockList m p [p]) (hfits : Fits m r p)
    (fuel : ℕ) : fitSearch m r fuel p = some p := by
  have hnext : fBlock.get m p .next = 0 := by
    cases h with
    | cons _ hps =>
        generalize fBlock.get m p .next = q at hps
        cases hps
        rfl
  rw [fitSearch, if_pos ⟨hnext, hfits⟩]

theorem fitSearch_eq (h : BlockList m p ps) (hlen : 2 ≤ ps.length) {fuel : ℕ}
    (hfuel : ps.length ≤ fuel + 1) :
    fitSearch m r fuel p = some
      ((BestFit.bestOf (Fits m r) (freeBlockSize m) ps.dropLast).getD 0) := by
  have hnext : fBlock.get m p .next ≠ 0 := by
    cases h with
    | nil => exact absurd hlen (by simp)
    | @cons _ qs _ hps =>
        intro hzero
        rw [hzero] at hps
        cases hps with
        | nil => exact absurd hlen (by simp)
        | cons hne _ => exact hne rfl
  have hne : ps ≠ [] := by
    rintro rfl
    exact absurd hlen (by simp)
  rw [fitSearch, if_neg fun hc => hnext hc.1]
  exact bestFit_eq h hne hfuel (show ∀ b ∈ (none : Option Addr), b ≠ 0 by simp)

/-- The last block fits, and every other block that fits is larger. -/
def OnlyLastIsBest (m : Bytes) (r : Word) (ps : List Addr) : Prop :=
  ∃ qs q, ps = qs ++ [q] ∧ qs ≠ [] ∧ Fits m r q ∧
    ∀ b ∈ qs, Fits m r b → freeBlockSize m q < freeBlockSize m b

/-- The block is one of the list, fits, and no block that fits is smaller. -/
structure IsBestFit (m : Bytes) (r : Word) (ps : List Addr) (b : Addr) :
    Prop where
  mem : b ∈ ps
  fits : Fits m r b
  le : ∀ c ∈ ps, Fits m r c → freeBlockSize m b ≤ freeBlockSize m c

theorem onlyLastIsBest_snoc {qs : List Addr} {q : Addr} (hqs : qs ≠ []) :
    OnlyLastIsBest m r (qs ++ [q]) ↔
      Fits m r q ∧
        ∀ b ∈ qs, Fits m r b → freeBlockSize m q < freeBlockSize m b := by
  constructor
  · rintro ⟨qs', q', heq, -, hfits, hlt⟩
    obtain ⟨rfl, hq⟩ := List.append_inj' heq rfl
    obtain rfl : q = q' := by simpa using hq
    exact ⟨hfits, hlt⟩
  · exact fun h => ⟨qs, q, rfl, hqs, h.1, h.2⟩

/-- The scan of all blocks but the last one finds a best one, unless only the
last one is. -/
theorem isBestFit_bestOf_iff {qs : List Addr} {q : Addr}
    (hzero : ∀ b ∈ qs ++ [q], b ≠ 0)
    (hsome : ∃ b ∈ qs ++ [q], Fits m r b) :
    IsBestFit m r (qs ++ [q])
        ((BestFit.bestOf (Fits m r) (freeBlockSize m) qs).getD 0) ↔
      ¬ (Fits m r q ∧
        ∀ b ∈ qs, Fits m r b → freeBlockSize m q < freeBlockSize m b) := by
  rcases BestFit.bestOf_spec (Fits m r) (freeBlockSize m) qs with
    ⟨hnone, hall⟩ | ⟨b, hb, hmem, hfits, hmin⟩
  · -- no block but the last one fits, and the scan has found none
    rw [hnone, Option.getD_none]
    refine iff_of_false (fun h => hzero 0 h.mem rfl) (not_not.2 ⟨?_, ?_⟩)
    · obtain ⟨b, hb, hfits⟩ := hsome
      rcases List.mem_append.1 hb with hb | hb
      · exact absurd hfits (hall b hb)
      · rwa [← List.mem_singleton.1 hb]
    · exact fun b hb hfits => absurd hfits (hall b hb)
  · rw [hb, Option.getD_some]
    constructor
    · rintro h ⟨hq, hlt⟩
      exact absurd (h.le q (by simp) hq) (not_le.2 (hlt b hmem hfits))
    · intro h
      refine ⟨List.mem_append_left _ hmem, hfits, fun c hc hc' => ?_⟩
      rcases List.mem_append.1 hc with hc | hc
      · exact hmin c hc hc'
      · obtain rfl := List.mem_singleton.1 hc
        by_contra hlt
        exact h ⟨hc', fun b' hb' hfits' =>
          (not_le.1 hlt).trans_le (hmin b' hb' hfits')⟩

/-- The search answers a best block, unless only the last one of several is. -/
theorem fitSearch_best_iff (h : BlockList m p ps)
    (hsome : ∃ b ∈ ps, Fits m r b) {fuel : ℕ} (hfuel : ps.length ≤ fuel + 1) :
    (∃ b, fitSearch m r fuel p = some b ∧ IsBestFit m r ps b) ↔
      ¬ OnlyLastIsBest m r ps := by
  have hzero := h.ne_zero
  rcases List.eq_nil_or_concat ps with rfl | ⟨qs, q, rfl⟩
  · obtain ⟨b, hb, -⟩ := hsome
    exact absurd hb (by simp)
  rw [List.concat_eq_append] at *
  by_cases hqs : qs = []
  · subst hqs
    obtain rfl : p = q := by
      cases h
      rfl
    have hfits : Fits m r p := by simpa using hsome
    refine iff_of_true ⟨p, fitSearch_singleton h hfits fuel, by simp, hfits,
      by simp⟩ ?_
    rintro ⟨qs', q', heq, hne, -⟩
    cases qs' with
    | nil => exact hne rfl
    | cons => simp at heq
  · have hlen : 2 ≤ (qs ++ [q]).length := by
      have hpos := List.length_pos_iff.2 hqs
      rw [List.length_append, List.length_singleton]
      omega
    rw [fitSearch_eq h hlen hfuel, List.dropLast_concat,
      onlyLastIsBest_snoc hqs, ← isBestFit_bestOf_iff hzero hsome]
    constructor
    · rintro ⟨b, hb, hbest⟩
      exact Option.some_injective _ hb ▸ hbest
    · exact fun hbest => ⟨_, rfl, hbest⟩

end

/-- The machine `allocateFrame` selects a block on: the boot information is
copied, and `freeBlock` is back at the head. -/
def searchedMachine {τ : Type} (s : FrameMachine τ) : FrameMachine τ :=
  { s with globals :=
      { s.globals with
        bootInformation := s.globals.globalBootInfo
        totalMemory := s.globals.globalBootInfo.memory.freeMemSize
        freeBlock := s.globals.head } }

/-- Once the list is built and the request is not beyond the free memory, the
search decides between taking a block and coalescing. -/
theorem run_allocateFrame {τ : Type} (T : SizeTable τ) {fuel : ℕ}
    {requestSize : Word} {s : FrameMachine τ} {b : Addr}
    (hhead : s.globals.head ≠ 0)
    (hroom : roundUpToPageBoundary requestSize ≤
      s.globals.globalBootInfo.memory.freeMemSize)
    (hfit : fitSearch s.mem (roundUpToPageBoundary requestSize) fuel
      s.globals.freeBlock = some b) :
    (allocateFrame T fuel requestSize).run s =
      (if b = 0 then do
          let prevBlock ← coalesce fuel (roundUpToPageBoundary requestSize)
          takeBlock T prevBlock (roundUpToPageBoundary requestSize)
        else takeBlock T b (roundUpToPageBoundary requestSize)).run
        (searchedMachine s) := by
  rw [allocateFrame, run_bind_of_ok (run_ensureFreeList_of_ne hhead)]
  simp only [EStateM.run_bind, run_modifyGlobals, EStateM.run_get,
    if_neg (BitVec.not_lt.2 hroom), hfit]
  rfl

/-- The call takes a smallest block that fits, without coalescing. -/
def TakesBestFit {τ : Type} (T : SizeTable τ) (fuel : ℕ) (requestSize : Word)
    (s : FrameMachine τ) (bs : List Addr) : Prop :=
  ∃ b, fitSearch s.mem (roundUpToPageBoundary requestSize) fuel
        s.globals.freeBlock = some b ∧
    IsBestFit s.mem (roundUpToPageBoundary requestSize) bs b ∧
    (allocateFrame T fuel requestSize).run s =
      (takeBlock T b (roundUpToPageBoundary requestSize)).run
        (searchedMachine s)

/-- The loop stops before the last block: a list of two or more blocks gives a
best fit exactly when the last block is not the only smallest one. -/
theorem takesBestFit_iff {τ : Type} (T : SizeTable τ) {fuel : ℕ}
    {requestSize : Word} {s : FrameMachine τ} {bs : List Addr}
    (hlist : BlockList s.mem s.globals.head bs)
    (hfree : s.globals.freeBlock = s.globals.head)
    (hroom : roundUpToPageBoundary requestSize ≤
      s.globals.globalBootInfo.memory.freeMemSize)
    (hsome : ∃ b ∈ bs, Fits s.mem (roundUpToPageBoundary requestSize) b)
    (hfuel : bs.length ≤ fuel + 1) :
    TakesBestFit T fuel requestSize s bs ↔
      ¬ OnlyLastIsBest s.mem (roundUpToPageBoundary requestSize) bs := by
  rw [← fitSearch_best_iff hlist hsome hfuel, ← hfree]
  constructor
  · rintro ⟨b, hb, hbest, -⟩
    exact ⟨b, hb, hbest⟩
  · rintro ⟨b, hb, hbest⟩
    have hb0 := hlist.ne_zero b hbest.mem
    have hhead := hlist.head_ne_zero hbest.mem
    refine ⟨b, hb, hbest, ?_⟩
    rw [run_allocateFrame T hhead hroom hb, if_neg hb0]

def firstBlock : List (Addr × Word) → Addr
  | [] => 0
  | (p, _) :: _ => p

def linkedBlocks : List (Addr × Word) → Bytes
  | [] => fun _ => 0
  | (p, n) :: bs =>
      let m := fBlock.set (linkedBlocks bs) p .size n
      fBlock.set m p .next (firstBlock bs)

theorem agreeOff_linkedBlocks (p : Addr) (n : Word) (bs : List (Addr × Word)) :
    AgreeOff (fBlock.recordRegion p) (linkedBlocks bs)
      (linkedBlocks ((p, n) :: bs)) := by
  have hsize := fBlock.agreeOff_set (linkedBlocks bs) p .size n
  have hnext := fBlock.agreeOff_set (fBlock.set (linkedBlocks bs) p .size n) p
    .next (firstBlock bs)
  simpa [linkedBlocks] using hsize.trans hnext

/-- The headers do not overlap, so every block has its size and the next block
behind it. -/
theorem blockList_linkedBlocks {bs : List (Addr × Word)}
    (hne : ∀ b ∈ bs, b.1 ≠ 0)
    (hdisj : bs.Pairwise fun b c =>
      Disjoint (fBlock.recordRegion b.1) (fBlock.recordRegion c.1)) :
    BlockList (linkedBlocks bs) (firstBlock bs) (bs.map Prod.fst) ∧
      ∀ b ∈ bs, freeBlockSize (linkedBlocks bs) b.1 = b.2.toNat := by
  induction bs with
  | nil => exact ⟨.nil, by simp⟩
  | cons b bs ih =>
      obtain ⟨p, n⟩ := b
      obtain ⟨hp, hdisj⟩ := List.pairwise_cons.1 hdisj
      obtain ⟨hlist, hsize⟩ := ih
        (fun b hb => hne b (List.mem_cons_of_mem _ hb)) hdisj
      have hkeep : ∀ c ∈ bs, ∀ f, fBlock.get (linkedBlocks ((p, n) :: bs)) c.1
          f = fBlock.get (linkedBlocks bs) c.1 f := fun c hc f =>
        fBlock.get_congr (agreeOff_linkedBlocks p n bs) c.1 f (hp c hc).symm
      constructor
      · have hnext : fBlock.get (linkedBlocks ((p, n) :: bs)) p .next =
            firstBlock bs := by
          rw [linkedBlocks, fBlock_get_set_self _ _ _ _ (by decide)]
        refine .cons (hne (p, n) (by simp)) ?_
        rw [firstBlock, hnext]
        refine hlist.congr fun q hq => ?_
        obtain ⟨c, hc, rfl⟩ := List.mem_map.1 hq
        exact hkeep c hc .next
      · intro c hc
        rcases List.mem_cons.1 hc with rfl | hc
        · rw [freeBlockSize, linkedBlocks,
            fBlock.get_set_of_ne _ _ _ (by decide : FBlock.size ≠ .next),
            fBlock_get_set_self _ _ _ _ (by decide)]
        · rw [freeBlockSize, hkeep c hc]
          exact hsize c hc

def linkedMachine (bs : List (Addr × Word)) (freeMemSize : Word) :
    FrameMachine HashTable where
  mem := linkedBlocks bs
  globals :=
    { globalBootInfo := ⟨⟨0x100000, freeMemSize, 0xffff800000000000⟩⟩
      head := firstBlock bs
      freeBlock := firstBlock bs
      totalMemory := 0
      usedMemory := 0
      bootInformation := ⟨⟨0x100000, freeMemSize, 0xffff800000000000⟩⟩
      addressSizeHT := HashTable.zero }

def twoBlocks (n k : Word) : List (Addr × Word) :=
  [(0xffff800000100000, n), (0xffff800000104000, k)]

theorem blockList_twoBlocks (n k : Word) :
    BlockList (linkedBlocks (twoBlocks n k)) 0xffff800000100000
        [0xffff800000100000, 0xffff800000104000] ∧
      freeBlockSize (linkedBlocks (twoBlocks n k)) 0xffff800000100000 =
        n.toNat ∧
      freeBlockSize (linkedBlocks (twoBlocks n k)) 0xffff800000104000 =
        k.toNat := by
  obtain ⟨hlist, hsize⟩ := blockList_linkedBlocks
    (show ∀ b ∈ twoBlocks n k, b.1 ≠ 0 by simp [twoBlocks]) (by
      simp only [twoBlocks, List.pairwise_cons, List.mem_singleton, forall_eq]
      exact ⟨disjoint_region_of_le (0xffff800000100000 : Addr) (i := 0)
        (n := 40) (j := 0x4000) (k := 40) (by decide) (by decide), by simp⟩)
  exact ⟨hlist, hsize (0xffff800000100000, n) (by simp [twoBlocks]),
    hsize (0xffff800000104000, k) (by simp [twoBlocks])⟩

/-- One page is asked for, and both blocks are pages: the first one is taken. -/
theorem takesBestFit_iff_twoPages :
    TakesBestFit addressSizeTable 1 0x1000
        (linkedMachine (twoBlocks 0x1000 0x1000) 0x2000)
        [0xffff800000100000, 0xffff800000104000] ↔
      ¬ OnlyLastIsBest (linkedBlocks (twoBlocks 0x1000 0x1000))
        (roundUpToPageBoundary 0x1000)
        [0xffff800000100000, 0xffff800000104000] := by
  obtain ⟨hlist, hsize, -⟩ := blockList_twoBlocks 0x1000 0x1000
  exact takesBestFit_iff addressSizeTable hlist rfl (by decide)
    ⟨0xffff800000100000, by simp, hsize.ge⟩ le_rfl

/-- A page behind a block of two pages is passed over. -/
theorem exists_not_takesBestFit :
    ∃ (s : FrameMachine HashTable) (bs : List Addr),
      BlockList s.mem s.globals.head bs ∧
      s.globals.freeBlock = s.globals.head ∧
      roundUpToPageBoundary 0x1000 ≤
        s.globals.globalBootInfo.memory.freeMemSize ∧
      (∃ b ∈ bs, Fits s.mem (roundUpToPageBoundary 0x1000) b) ∧
      ¬ TakesBestFit addressSizeTable bs.length 0x1000 s bs := by
  obtain ⟨hlist, hp, hq⟩ := blockList_twoBlocks 0x2000 0x1000
  have hround : (roundUpToPageBoundary 0x1000).toNat = 0x1000 := by decide
  have hfits : Fits (linkedBlocks (twoBlocks 0x2000 0x1000))
      (roundUpToPageBoundary 0x1000) 0xffff800000104000 := by
    rw [Fits, hround, hq]
    decide
  have hlast : OnlyLastIsBest (linkedBlocks (twoBlocks 0x2000 0x1000))
      (roundUpToPageBoundary 0x1000)
      [0xffff800000100000, 0xffff800000104000] := by
    refine ⟨[0xffff800000100000], _, rfl, by simp, hfits, fun b hb _ => ?_⟩
    rw [List.mem_singleton.1 hb, hp, hq]
    decide
  refine ⟨linkedMachine (twoBlocks 0x2000 0x1000) 0x3000, _, hlist, rfl,
    by decide, ⟨_, by simp, hfits⟩, ?_⟩
  rintro ⟨b, hb, hbest, -⟩
  exact (fitSearch_best_iff hlist ⟨_, by simp, hfits⟩ (by simp)).1
    ⟨b, hb, hbest⟩ hlast

end OptimistOS
