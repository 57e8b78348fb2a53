import OptimistOS.Foundation.Neighbours
import OptimistOS.Paging.AllocationStores

/-!
# Coalescing

When no block is large enough, `allocateFrame` merges a block into its
predecessor on the list. The loop that looks for the pair passes over the last
block and replaces its selection by every pair that fits, also by a larger one,
so it ends with the last of them. It does not ask whether the two blocks are
neighbours in memory.
-/

namespace OptimistOS

open ByteMemory ByteMemory.Code

/-- A list of disjoint blocks in any address order, each of which knows its
predecessor on the list and the predecessor's size. -/
structure FreeBlocks (m : Bytes) (head : Addr) (bs : List Addr) : Prop where
  list : BlockList m head bs
  range : ∀ b ∈ bs, b.toNat + freeBlockSize m b ≤ 2 ^ 64
  disjoint : bs.Pairwise fun b c =>
    Disjoint (blockRegion m b) (blockRegion m c)
  linked : ∀ q ∈ bs.neighbours, fBlock.get m q.2 .previous = q.1 ∧
    fBlock.get m q.2 .prevSize = fBlock.get m q.1 .size
  first : fBlock.get m head .prevSize = 0

/-- The size of two blocks taken together. -/
def combinedSize (m : Bytes) (q : Addr × Addr) : ℕ :=
  freeBlockSize m q.1 + freeBlockSize m q.2

/-- The two blocks taken together are large enough. -/
def Eligible (m : Bytes) (r : Word) (q : Addr × Addr) : Prop :=
  r.toNat ≤ combinedSize m q

instance (m : Bytes) (r : Word) : DecidablePred (Eligible m r) :=
  fun q => inferInstanceAs (Decidable (r.toNat ≤ combinedSize m q))

/-- The test of the loop. -/
def PairFits (m : Bytes) (r : Word) (b : Addr) : Prop :=
  fBlock.get m b .prevSize ≠ 0 ∧
    r ≤ fBlock.get m b .prevSize + fBlock.get m b .size

instance (m : Bytes) (r : Word) : DecidablePred (PairFits m r) :=
  fun _ => inferInstanceAs (Decidable (_ ∧ _))

/-- The block at `c` was merged into the one at `p`: the result is one range
made of the two, it is large enough, and no eligible pair is smaller. -/
structure MergesBestPair (m m' : Bytes) (r : Word) (bs : List Addr)
    (p c : Addr) : Prop where
  contiguous : blockRegion m' p = blockRegion m p ∪ blockRegion m c
  large : r.toNat ≤ freeBlockSize m' p
  smallest : ∀ q ∈ bs.neighbours, Eligible m r q →
    combinedSize m (p, c) ≤ combinedSize m q

/-- The last eligible pair, leaving out the pair of the last block, lies in one
piece and is a smallest one. -/
def LastPairIsBest (m : Bytes) (r : Word) (bs : List Addr) : Prop :=
  ∀ q, (bs.neighbours.dropLast.filter (Eligible m r)).getLast? = some q →
    q.2 = q.1 + fBlock.get m q.1 .size ∧
      ∀ q' ∈ bs.neighbours, Eligible m r q' →
        combinedSize m q ≤ combinedSize m q'

section

variable {m : Bytes} {r : Word} {p : Addr} {ps : List Addr}

theorem pairSearch_eq (h : BlockList m p ps) (hne : ps ≠ []) {fuel : ℕ}
    (hfuel : ps.length ≤ fuel + 1) (selected : Addr) :
    pairSearch m r fuel p selected =
      some ((ps.dropLast.filter (PairFits m r)).getLast?.getD selected) := by
  induction h generalizing fuel selected with
  | nil => exact absurd rfl hne
  | @cons p qs hp hqs ih =>
      cases qs with
      | nil =>
          have hnext : fBlock.get m p .next = 0 := hqs.start_eq
          cases fuel <;> rw [pairSearch, if_pos hnext] <;> rfl
      | cons q qs =>
          have hnext : fBlock.get m p .next ≠ 0 :=
            hqs.head_ne_zero List.mem_cons_self
          obtain ⟨fuel, rfl⟩ : ∃ k, fuel = k + 1 :=
            ⟨fuel - 1, by simp only [List.length_cons] at hfuel; omega⟩
          rw [pairSearch, if_neg hnext, ih (List.cons_ne_nil _ _)
            (by simp only [List.length_cons] at hfuel ⊢; omega),
            List.dropLast_cons_cons, List.filter_cons]
          change some (Option.getD _ (if PairFits m r p then p else selected)) = _
          by_cases hfits : PairFits m r p
          · rw [if_pos hfits, if_pos (decide_eq_true hfits),
              List.getLast?_cons, Option.getD_some]
          · rw [if_neg hfits, if_neg (by simpa using hfits)]

theorem FreeBlocks.combinedSize_lt {head : Addr} {bs : List Addr}
    (h : FreeBlocks m head bs) {q : Addr × Addr} (hq : q ∈ bs.neighbours)
    (h₁ : 0 < freeBlockSize m q.1) (h₂ : 0 < freeBlockSize m q.2) :
    combinedSize m q < 2 ^ 64 := by
  obtain ⟨hmem₁, hmem₂⟩ := List.mem_of_mem_neighbours hq
  have hdisj := h.disjoint.neighbours hq
  have hne₁ := h.list.ne_zero _ hmem₁
  have hne₂ := h.list.ne_zero _ hmem₂
  have hr₁ := h.range _ hmem₁
  have hr₂ := h.range _ hmem₂
  have hout₁ : q.1 ∉ blockRegion m q.2 := fun hx =>
    Set.disjoint_left.1 hdisj (show (q.1 - q.1).toNat < _ by
      simpa [freeBlockSize] using h₁) hx
  have hout₂ : q.2 ∉ blockRegion m q.1 := fun hx =>
    Set.disjoint_left.1 hdisj hx (show (q.2 - q.2).toNat < _ by
      simpa [freeBlockSize] using h₂)
  have hpos₁ : q.1.toNat ≠ 0 := fun h0 => hne₁ (BitVec.eq_of_toNat_eq h0)
  have hpos₂ : q.2.toNat ≠ 0 := fun h0 => hne₂ (BitVec.eq_of_toNat_eq h0)
  rw [blockRegion, mem_region, BitVec.toNat_sub] at hout₁ hout₂
  rw [combinedSize]
  simp only [freeBlockSize] at *
  omega

theorem FreeBlocks.pairFits_iff {head : Addr} {bs : List Addr}
    (h : FreeBlocks m head bs) (hno : ∀ b ∈ bs, ¬ Fits m r b) {q : Addr × Addr}
    (hq : q ∈ bs.neighbours) : PairFits m r q.2 ↔ Eligible m r q := by
  obtain ⟨hmem₁, hmem₂⟩ := List.mem_of_mem_neighbours hq
  have hfit₁ := hno _ hmem₁
  have hfit₂ := hno _ hmem₂
  have hprev := (h.linked q hq).2
  have hlt := h.combinedSize_lt hq
  rw [Fits] at hfit₁ hfit₂
  rw [PairFits, hprev, BitVec.le_def, BitVec.toNat_add, Eligible]
  simp only [combinedSize, freeBlockSize] at *
  constructor
  · rintro ⟨-, hle⟩
    exact hle.trans (Nat.mod_le _ _)
  · intro hle
    refine ⟨fun h0 => ?_, ?_⟩
    · rw [h0] at hle
      change _ ≤ 0 + _ at hle
      omega
    · rwa [Nat.mod_eq_of_lt (hlt (by omega) (by omega))]

theorem FreeBlocks.pairSearch_eq {head : Addr} {bs : List Addr}
    (h : FreeBlocks m head bs) (hne : bs ≠ [])
    (hno : ∀ b ∈ bs, ¬ Fits m r b) {fuel : ℕ} (hfuel : bs.length ≤ fuel + 1) :
    pairSearch m r fuel head 0 = some
      (((bs.neighbours.dropLast.filter (Eligible m r)).getLast?.map
        Prod.snd).getD 0) := by
  have hfilter : bs.dropLast.filter (PairFits m r) =
      (bs.neighbours.dropLast.filter (Eligible m r)).map Prod.snd := by
    have htail : bs.dropLast.filter (PairFits m r) =
        bs.dropLast.tail.filter (PairFits m r) := by
      match bs, h.list with
      | [b], _ => rfl
      | b :: c :: cs, hlist =>
          have hb : ¬ PairFits m r b := fun hc => hc.1 (hlist.tail.1 ▸ h.first)
          rw [List.dropLast_cons_cons, List.filter_cons,
            if_neg (by simpa using hb)]
          rfl
    rw [htail, ← List.map_snd_neighbours, List.neighbours_dropLast,
      List.filter_map]
    refine congrArg _ (List.filter_congr fun q hq => ?_)
    exact decide_eq_decide.2 (h.pairFits_iff hno (List.mem_of_mem_dropLast hq))
  rw [OptimistOS.pairSearch_eq h.list hne hfuel, hfilter, List.getLast?_map]

end

theorem region_eq_union_iff {a b : Addr} {n k : ℕ} (hn : 0 < n) (hk : 0 < k)
    (hw : n + k ≤ 2 ^ 64) (hdisj : Disjoint (region a n) (region b k)) :
    region a (n + k) = region a n ∪ region b k ↔ b = a + BitVec.ofNat 64 n := by
  constructor
  · intro hunion
    have hb : b ∈ region b k := by simpa [mem_region] using hk
    have ha : a ∈ region a n := by simpa [mem_region] using hn
    have hbmem : b ∈ region a (n + k) := hunion ▸ Or.inr hb
    have hbout : b ∉ region a n := fun h => Set.disjoint_left.1 hdisj h hb
    have haout : a ∉ region b k := Set.disjoint_left.1 hdisj ha
    have hend : a + BitVec.ofNat 64 n ∈ region a (n + k) :=
      add_ofNat_mem_region a (by omega) hw
    have hendout : a + BitVec.ofNat 64 n ∉ region a n := by
      rw [mem_region, offset_of_add a (by omega)]
      omega
    rw [hunion] at hend
    have hendmem := hend.resolve_left hendout
    rw [mem_region] at hbmem hbout haout hendmem
    refine BitVec.eq_of_toNat_eq ?_
    rw [BitVec.toNat_sub] at hbmem hbout haout hendmem
    rw [BitVec.toNat_add, BitVec.toNat_ofNat] at hendmem ⊢
    omega
  · rintro rfl
    ext x
    rw [Set.mem_union, mem_region, mem_region, mem_region, BitVec.toNat_sub,
      BitVec.toNat_sub, BitVec.toNat_add, BitVec.toNat_ofNat]
    omega

theorem freeBlockSize_mergedBlocks (m : Bytes) (p c : Addr) :
    freeBlockSize (mergedBlocks m p c) p =
      (fBlock.get m p .size + fBlock.get m c .size).toNat := by
  rw [freeBlockSize, mergedBlocks,
    fBlock.get_set_of_ne _ _ _ (by decide : FBlock.size ≠ .next),
    fBlock_get_set_self _ _ _ _ (by decide)]

/-- The merged pair is as it should be exactly when its blocks are neighbours in
memory and no eligible pair is smaller. -/
theorem FreeBlocks.mergesBestPair_iff_pair {m : Bytes} {r : Word} {head : Addr}
    {bs : List Addr} (h : FreeBlocks m head bs) (hno : ∀ b ∈ bs, ¬ Fits m r b)
    {q : Addr × Addr} (hq : q ∈ bs.neighbours) (hfits : Eligible m r q) :
    MergesBestPair m (mergedBlocks m q.1 q.2) r bs q.1 q.2 ↔
      q.2 = q.1 + fBlock.get m q.1 .size ∧
        ∀ q' ∈ bs.neighbours, Eligible m r q' →
          combinedSize m q ≤ combinedSize m q' := by
  obtain ⟨hmem₁, hmem₂⟩ := List.mem_of_mem_neighbours hq
  have hfit₁ := hno _ hmem₁
  have hfit₂ := hno _ hmem₂
  rw [Fits] at hfit₁ hfit₂
  rw [Eligible, combinedSize] at hfits
  have hlt := h.combinedSize_lt hq (by omega) (by omega)
  have hsize : freeBlockSize (mergedBlocks m q.1 q.2) q.1 = combinedSize m q := by
    rw [freeBlockSize_mergedBlocks, BitVec.toNat_add]
    exact Nat.mod_eq_of_lt hlt
  have hregion : blockRegion (mergedBlocks m q.1 q.2) q.1 =
      region q.1 (combinedSize m q) := congrArg (region q.1) hsize
  have hunion := region_eq_union_iff (show 0 < freeBlockSize m q.1 by omega)
    (show 0 < freeBlockSize m q.2 by omega) hlt.le (h.disjoint.neighbours hq)
  rw [freeBlockSize, BitVec.ofNat_toNat, BitVec.setWidth_eq] at hunion
  constructor
  · intro hmerge
    have hone := hmerge.contiguous
    rw [hregion] at hone
    exact ⟨hunion.1 hone, hmerge.smallest⟩
  · rintro ⟨hnext, hleast⟩
    exact ⟨hregion.trans (hunion.2 hnext), hsize ▸ hfits, hleast⟩

/-- When no block is large enough alone and the call returns, it has merged two
blocks and gone on with the result; the pair is as it should be exactly when the
last eligible pair, leaving out that of the last block, is. -/
theorem mergesBestPair_iff {τ : Type} {T : SizeTable τ} {fuel : ℕ}
    {requestSize frame : Word} {s s' : FrameMachine τ} {bs : List Addr}
    (hlist : FreeBlocks s.mem s.globals.head bs)
    (hfree : s.globals.freeBlock ∈ bs) (hfuel : bs.length ≤ fuel + 1)
    (hno : ∀ b ∈ bs, ¬ Fits s.mem (roundUpToPageBoundary requestSize) b)
    (hrun : (allocateFrame T fuel requestSize).run s = .ok frame s') :
    ∃ p c t,
      pairSearch s.mem (roundUpToPageBoundary requestSize) fuel s.globals.head
          0 = some c ∧ c ≠ 0 ∧
        (coalesce fuel (roundUpToPageBoundary requestSize)).run
          (searchedMachine s) = .ok p t ∧
        (takeBlock T p (roundUpToPageBoundary requestSize)).run t =
          .ok frame s' ∧
        (MergesBestPair s.mem t.mem (roundUpToPageBoundary requestSize) bs p c ↔
          LastPairIsBest s.mem (roundUpToPageBoundary requestSize) bs) := by
  have hhead := hlist.list.head_ne_zero hfree
  obtain ⟨hroom, b, hfit⟩ := fitSearch_of_granted hhead hrun
  have hb : b = 0 := by
    by_contra hne
    obtain ⟨hmem, hfits⟩ := fitSearch_mem_of_mem hlist.list hfree hfuel hfit hne
    exact hno b hmem hfits
  rw [run_allocateFrame T hhead hroom hfit, if_pos hb] at hrun
  obtain ⟨p, t, hcoalesce, htake⟩ := run_bind_eq_ok.1 hrun
  obtain ⟨c, hpair, hc, -, -⟩ := run_coalesce_eq_ok hcoalesce
  change pairSearch s.mem _ fuel s.globals.head 0 = some c at hpair
  refine ⟨p, c, t, hpair, hc, hcoalesce, htake, ?_⟩
  rw [run_coalesce (s := searchedMachine s) hpair hc] at hcoalesce
  obtain ⟨rfl, rfl⟩ := EStateM.Result.ok.inj hcoalesce
  change MergesBestPair s.mem (mergedBlocks s.mem (fBlock.get s.mem c .previous)
    c) _ bs (fBlock.get s.mem c .previous) c ↔ _
  rw [hlist.pairSearch_eq (List.ne_nil_of_mem hfree) hno hfuel] at hpair
  cases hlast : (bs.neighbours.dropLast.filter
      (Eligible s.mem (roundUpToPageBoundary requestSize))).getLast? with
  | none =>
      rw [hlast] at hpair
      exact absurd (Option.some.inj hpair).symm hc
  | some q =>
      rw [hlast] at hpair
      obtain rfl : q.2 = c := Option.some.inj hpair
      obtain ⟨hmem, hfits⟩ := List.mem_filter.1 (List.mem_of_getLast? hlast)
      have hq := List.mem_of_mem_dropLast hmem
      rw [(hlist.linked q hq).1,
        hlist.mergesBestPair_iff_pair hno hq (by simpa using hfits)]
      constructor
      · intro hbest q' hq'
        obtain rfl := Option.some.inj (hlast.symm.trans hq')
        exact hbest
      · exact fun hbest => hbest q hlast

/-- Three free pages with the links and sizes of their predecessors; the second
one lies at `second`. -/
def threePages (second : Addr) : Bytes :=
  let m := linkedBlocks [(0xffff800000100000, 0x1000), (second, 0x1000),
    (0xffff800000108000, 0x1000)]
  let m := fBlock.set m second .previous 0xffff800000100000
  let m := fBlock.set m second .prevSize 0x1000
  let m := fBlock.set m 0xffff800000108000 .previous second
  fBlock.set m 0xffff800000108000 .prevSize 0x1000

def threePagesMachine (second : Addr) : FrameMachine HashTable :=
  { linkedMachine [(0xffff800000100000, 0x1000)] 0x3000 with
    mem := threePages second }

structure ThreePages (m : Bytes) (second : Addr) : Prop where
  next₁ : fBlock.get m 0xffff800000100000 .next = second
  next₂ : fBlock.get m second .next = 0xffff800000108000
  next₃ : fBlock.get m 0xffff800000108000 .next = 0
  size₁ : fBlock.get m 0xffff800000100000 .size = 0x1000
  size₂ : fBlock.get m second .size = 0x1000
  size₃ : fBlock.get m 0xffff800000108000 .size = 0x1000
  previous₂ : fBlock.get m second .previous = 0xffff800000100000
  previous₃ : fBlock.get m 0xffff800000108000 .previous = second
  prevSize₁ : fBlock.get m 0xffff800000100000 .prevSize = 0
  prevSize₂ : fBlock.get m second .prevSize = 0x1000
  prevSize₃ : fBlock.get m 0xffff800000108000 .prevSize = 0x1000

theorem threePages_near :
    ThreePages (threePages 0xffff800000101000) 0xffff800000101000 := by
  constructor <;> decide +kernel

theorem threePages_apart :
    ThreePages (threePages 0xffff800000104000) 0xffff800000104000 := by
  constructor <;> decide +kernel

theorem ThreePages.freeBlocks {m : Bytes} {second : Addr}
    (h : ThreePages m second) (hpage : second.toNat % 0x1000 = 0)
    (hrange : second.toNat + 0x1000 ≤ 2 ^ 64)
    (hne : [0, 0xffff800000100000, second, 0xffff800000108000].Nodup) :
    FreeBlocks m 0xffff800000100000
      [0xffff800000100000, second, 0xffff800000108000] := by
  have hsize : ∀ b ∈ [(0xffff800000100000 : Addr), second, 0xffff800000108000],
      freeBlockSize m b = 0x1000 ∧ b.toNat % 0x1000 = 0 ∧
        b.toNat + 0x1000 ≤ 2 ^ 64 := by
    simp only [List.mem_cons, List.not_mem_nil, or_false, freeBlockSize]
    rintro b (rfl | rfl | rfl)
    · rw [h.size₁]
      decide
    · rw [h.size₂]
      exact ⟨rfl, hpage, hrange⟩
    · rw [h.size₃]
      decide
  obtain ⟨hzero, hnodup⟩ := List.nodup_cons.1 hne
  simp only [List.mem_cons, List.not_mem_nil, or_false, not_or] at hzero
  have hchain : LinkedList.Chain 0 (fun q => fBlock.get m q .next)
      0xffff800000100000 [0xffff800000100000, second, 0xffff800000108000] :=
    ⟨rfl, by decide, h.next₁, Ne.symm hzero.2.1, h.next₂, by decide, h.next₃⟩
  refine ⟨blockList_iff_chain.2 hchain, fun b hb => ?_, ?_, ?_, h.prevSize₁⟩
  · obtain ⟨hb', -, hle⟩ := hsize b hb
    rwa [hb']
  · refine List.Pairwise.imp_of_mem ?_ hnodup
    intro b c hb hc hbc
    obtain ⟨hb', hbmod, -⟩ := hsize b hb
    obtain ⟨hc', hcmod, -⟩ := hsize c hc
    have hregion := disjoint_region_of_aligned (by decide) hbmod hcmod hbc
    rw [blockRegion, blockRegion]
    rw [freeBlockSize] at hb' hc'
    rwa [hb', hc']
  · simp only [List.neighbours_cons_cons, List.neighbours_singleton,
      List.mem_cons, List.not_mem_nil, or_false]
    rintro q (rfl | rfl)
    · exact ⟨h.previous₂, h.prevSize₂.trans h.size₁.symm⟩
    · exact ⟨h.previous₃, h.prevSize₃.trans h.size₂.symm⟩

theorem ThreePages.not_fits {m : Bytes} {second : Addr}
    (h : ThreePages m second) :
    ∀ b ∈ [(0xffff800000100000 : Addr), second, 0xffff800000108000],
      ¬ Fits m (roundUpToPageBoundary 0x2000) b := by
  have hround : (roundUpToPageBoundary 0x2000).toNat = 0x2000 := by decide
  simp only [List.mem_cons, List.not_mem_nil, or_false, Fits, freeBlockSize,
    hround]
  rintro b (rfl | rfl | rfl)
  · rw [h.size₁]
    decide
  · rw [h.size₂]
    decide
  · rw [h.size₃]
    decide

theorem ThreePages.combinedSize {m : Bytes} {second : Addr}
    (h : ThreePages m second) :
    ∀ q ∈ [(0xffff800000100000, second), (second, 0xffff800000108000)],
      combinedSize m q = 0x2000 := by
  simp only [List.mem_cons, List.not_mem_nil, or_false]
  rintro q (rfl | rfl)
  · rw [OptimistOS.combinedSize, freeBlockSize, freeBlockSize, h.size₁, h.size₂]
    rfl
  · rw [OptimistOS.combinedSize, freeBlockSize, freeBlockSize, h.size₂, h.size₃]
    rfl

/-- The pair that the loop looks at lies in one piece exactly when the second
page lies right behind the first. -/
theorem ThreePages.lastPairIsBest_iff {m : Bytes} {second : Addr}
    (h : ThreePages m second) :
    LastPairIsBest m (roundUpToPageBoundary 0x2000)
        [0xffff800000100000, second, 0xffff800000108000] ↔
      second = 0xffff800000101000 := by
  have hround : (roundUpToPageBoundary 0x2000).toNat = 0x2000 := by decide
  have hfits : Eligible m (roundUpToPageBoundary 0x2000)
      (0xffff800000100000, second) := by
    rw [Eligible, hround, h.combinedSize _ List.mem_cons_self]
  have hlast : ((List.neighbours [0xffff800000100000, second,
      0xffff800000108000]).dropLast.filter
        (Eligible m (roundUpToPageBoundary 0x2000))).getLast? =
      some (0xffff800000100000, second) := by
    rw [List.neighbours_cons_cons, List.neighbours_cons_cons,
      List.neighbours_singleton, List.dropLast_cons_cons,
      List.dropLast_singleton, List.filter_singleton,
      decide_eq_true hfits, cond_true, List.getLast?_singleton]
  constructor
  · intro hbest
    have hnext := (hbest _ hlast).1
    rw [h.size₁] at hnext
    exact hnext
  · intro hsecond q hq
    obtain rfl := Option.some.inj (hlast.symm.trans hq)
    refine ⟨by rw [h.size₁]; exact hsecond, fun q' hq' _ => ?_⟩
    rw [h.combinedSize _ List.mem_cons_self, h.combinedSize q' hq']

theorem allocateFrame_of_pair {τ : Type} (T : SizeTable τ) {fuel : ℕ}
    {requestSize : Word} {s : FrameMachine τ} {c : Addr}
    (hhead : s.globals.head ≠ 0)
    (hroom : roundUpToPageBoundary requestSize ≤
      s.globals.globalBootInfo.memory.freeMemSize)
    (hfit : fitSearch s.mem (roundUpToPageBoundary requestSize) fuel
      s.globals.freeBlock = some 0)
    (hpair : pairSearch s.mem (roundUpToPageBoundary requestSize) fuel
      s.globals.head 0 = some c) (hc : c ≠ 0) :
    ∃ frame s', (allocateFrame T fuel requestSize).run s = .ok frame s' := by
  rw [run_allocateFrame T hhead hroom hfit, if_pos rfl,
    run_bind_of_ok (run_coalesce (s := searchedMachine s) hpair hc),
    run_takeBlock]
  exact ⟨_, _, rfl⟩

/-- Two pages are asked for, and the first two of the list follow each other in
memory. -/
theorem mergesBestPair_iff_threePages :
    ∃ p c t,
      (coalesce 2 (roundUpToPageBoundary 0x2000)).run
          (searchedMachine (threePagesMachine 0xffff800000101000)) = .ok p t ∧
        MergesBestPair (threePages 0xffff800000101000) t.mem
          (roundUpToPageBoundary 0x2000)
          [0xffff800000100000, 0xffff800000101000, 0xffff800000108000] p c := by
  have hpages := threePages_near
  have hlist := hpages.freeBlocks (by decide) (by decide) (by decide)
  obtain ⟨frame, s', hrun⟩ := allocateFrame_of_pair addressSizeTable
    (s := threePagesMachine 0xffff800000101000) (by decide) (by decide)
    (show fitSearch _ (roundUpToPageBoundary 0x2000) 2 _ = _ by decide +kernel)
    (show pairSearch _ _ _ _ _ = some 0xffff800000101000 by decide +kernel)
    (by decide)
  obtain ⟨p, c, t, -, -, hcoalesce, -, hiff⟩ := mergesBestPair_iff
    (s := threePagesMachine 0xffff800000101000) hlist List.mem_cons_self le_rfl
    hpages.not_fits hrun
  exact ⟨p, c, t, hcoalesce, hiff.2 (hpages.lastPairIsBest_iff.2 rfl)⟩

/-- Two pages are asked for, and the first two of the list lie four pages apart:
the merged block has bytes of neither. -/
theorem exists_not_mergesBestPair :
    ∃ (s s' : FrameMachine HashTable) (bs : List Addr) (frame : Word),
      FreeBlocks s.mem s.globals.head bs ∧
      s.globals.freeBlock = s.globals.head ∧
      (∀ b ∈ bs, ¬ Fits s.mem (roundUpToPageBoundary 0x2000) b) ∧
      (allocateFrame addressSizeTable 2 0x2000).run s = .ok frame s' ∧
      ∃ p c t, (coalesce 2 (roundUpToPageBoundary 0x2000)).run
          (searchedMachine s) = .ok p t ∧
        pairSearch s.mem (roundUpToPageBoundary 0x2000) 2 s.globals.head 0 =
          some c ∧
        ¬ MergesBestPair s.mem t.mem (roundUpToPageBoundary 0x2000) bs p c := by
  have hpages := threePages_apart
  have hlist := hpages.freeBlocks (by decide) (by decide) (by decide)
  have hpair : pairSearch (threePages 0xffff800000104000)
      (roundUpToPageBoundary 0x2000) 2 0xffff800000100000 0 =
        some 0xffff800000104000 := by
    decide +kernel
  obtain ⟨frame, s', hrun⟩ := allocateFrame_of_pair addressSizeTable
    (s := threePagesMachine 0xffff800000104000) (by decide) (by decide)
    (show fitSearch _ (roundUpToPageBoundary 0x2000) 2 _ = _ by decide +kernel)
    hpair (by decide)
  refine ⟨threePagesMachine 0xffff800000104000, s', _, frame, hlist, rfl,
    hpages.not_fits, hrun, _, 0xffff800000104000, _,
    run_coalesce (s := searchedMachine (threePagesMachine 0xffff800000104000))
      hpair (by decide), hpair, fun hmerge => ?_⟩
  have hq : ((0xffff800000100000, 0xffff800000104000) : Addr × Addr) ∈
      List.neighbours [0xffff800000100000, 0xffff800000104000,
        0xffff800000108000] := List.mem_cons_self
  have hfits : Eligible (threePages 0xffff800000104000)
      (roundUpToPageBoundary 0x2000) (0xffff800000100000, 0xffff800000104000) := by
    rw [Eligible, hpages.combinedSize _ List.mem_cons_self]
    decide
  rw [show (searchedMachine (threePagesMachine 0xffff800000104000)).mem =
    threePages 0xffff800000104000 from rfl, hpages.previous₂] at hmerge
  have hnext := ((hlist.mergesBestPair_iff_pair hpages.not_fits hq hfits).1
    hmerge).1
  rw [hpages.size₁] at hnext
  exact absurd hnext (by decide)

end OptimistOS
