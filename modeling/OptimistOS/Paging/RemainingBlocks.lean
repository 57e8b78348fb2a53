import OptimistOS.Paging.FitSearch

/-!
# The list after an allocation

`allocateFrame` makes the rest of the block it takes the new head, linked to the
block behind the one taken. The blocks in front of it are lost, and the header
of the rest overwrites a block that starts there. No other block is lost or
changed when the block taken is the first one and no header lies in the way
(`LeavesOthers`); between page-aligned blocks this is necessary too
(`allocationKeepsOthers_iff`).
-/

namespace OptimistOS

open ByteMemory ByteMemory.Code

theorem fitSearch_mem {m : Bytes} {r : Word} {p b : Addr} {ps : List Addr}
    (h : BlockList m p ps) (hps : ps ≠ []) {fuel : ℕ}
    (hfuel : ps.length ≤ fuel + 1) (hb : fitSearch m r fuel p = some b)
    (hne : b ≠ 0) : b ∈ ps ∧ Fits m r b := by
  rw [fitSearch] at hb
  split_ifs at hb with hlone
  · obtain rfl := Option.some_injective _ hb
    rw [h.unique (blockList_singleton hne hlone.1)]
    exact ⟨by simp, hlone.2⟩
  · have hscan := bestFit_eq (r := r) h hps hfuel
      (show ∀ b ∈ (none : Option Addr), b ≠ 0 by simp)
    obtain rfl := Option.some_injective _ (hb.symm.trans hscan)
    rcases BestFit.bestOf_spec (Fits m r) (freeBlockSize m) ps.dropLast with
      ⟨hnone, -⟩ | ⟨c, hc, hmem, hfits, -⟩
    · rw [BestFit.bestOf] at hnone
      rw [hnone] at hne
      exact absurd rfl hne
    · rw [BestFit.bestOf] at hc
      rw [hc]
      exact ⟨List.mem_of_mem_dropLast hmem, hfits⟩

section

variable {τ : Type} {T : SizeTable τ} {s : FrameMachine τ} {b c : Addr}
  {r : Word} {bs : List Addr}

/-- An allocation keeps the headers that lie off the frame and the new
header. -/
theorem get_takenMachine (hr : r.toNat % 4096 = 0)
    (hheader : Disjoint (fBlock.recordRegion c) (fBlock.recordRegion (b + r)))
    (hframe : Disjoint (fBlock.recordRegion c) (region b r.toNat))
    (f : FBlock) :
    fBlock.get (takenMachine T b r s).mem c f = fBlock.get s.mem c f := by
  refine fBlock.get_congr (agreeOff_takenMachine T b r s hr) c f ?_
  rw [Set.disjoint_left] at hheader hframe ⊢
  intro x hx hx'
  have hoff := hframe hx
  have hoff' := hheader hx
  rw [Layout.recordRegion, mem_region] at hoff'
  rw [mem_region] at hoff hx'
  have hsub : (x - (b + r)).toNat = (x - b).toNat - r.toNat := by
    bv_omega
  change ¬ (x - (b + r)).toNat < 40 at hoff'
  omega

theorem get_takenMachine_of_subset
    (hframe : fBlock.recordRegion c ⊆ region b r.toNat) (f : FBlock) :
    fBlock.get (takenMachine T b r s).mem c f = 0 :=
  fBlock.get_of_forall_zero (fun _ hx =>
    takenMachine_zero T b r s (hframe hx)) f

/-- The list after an allocation: the rest of the block, and what followed the
block. -/
theorem blockList_takenMachine (hr : r.toNat % 4096 = 0) (hne : b + r ≠ 0)
    (hlist : BlockList s.mem (fBlock.get s.mem b .next) bs)
    (hnext : ∀ c ∈ bs, fBlock.get (takenMachine T b r s).mem c .next =
      fBlock.get s.mem c .next) :
    BlockList (takenMachine T b r s).mem (b + r) ((b + r) :: bs) := by
  refine .cons hne ?_
  rw [(takenMachine_rest T b r s hr).2]
  exact hlist.congr hnext

/-- The list at the new head holds the other blocks and the rest of `b`, and
nothing else, and the sizes are right. -/
structure KeepsOthers (m : Bytes) (s' : FrameMachine τ) (bs : List Addr)
    (b : Addr) (r : Word) : Prop where
  list : ∃ ps, BlockList s'.mem s'.globals.head ps ∧
    ps.Perm ((b + r) :: bs.erase b)
  rest : freeBlockSize s'.mem (b + r) = freeBlockSize m b - r.toNat
  others : ∀ c ∈ bs, c ≠ b → freeBlockSize s'.mem c = freeBlockSize m c

/-- The block is the first one, and no other header meets the new header or, but
for an empty block at the end of the list, the frame. -/
structure LeavesOthers (m : Bytes) (bs : List Addr) (b : Addr) (r : Word) :
    Prop where
  first : bs.head? = some b
  rest_ne : b + r ≠ 0
  header : ∀ c ∈ bs, c ≠ b →
    Disjoint (fBlock.recordRegion c) (fBlock.recordRegion (b + r))
  frame : ∀ c ∈ bs, c ≠ b →
    Disjoint (fBlock.recordRegion c) (region b r.toNat) ∨
      fBlock.recordRegion c ⊆ region b r.toNat ∧ freeBlockSize m c = 0 ∧
        fBlock.get m c .next = 0

theorem freeBlockSize_takenMachine_rest (hr : r.toNat % 4096 = 0)
    (hfits : Fits s.mem r b) :
    freeBlockSize (takenMachine T b r s).mem (b + r) =
      freeBlockSize s.mem b - r.toNat := by
  rw [freeBlockSize, (takenMachine_rest T b r s hr).1]
  exact BitVec.toNat_sub_of_le hfits

theorem keepsOthers_takenMachine {p : Addr} (hr : r.toNat % 4096 = 0)
    (hfits : Fits s.mem r b) (hlist : BlockList s.mem p bs)
    (h : LeavesOthers s.mem bs b r) :
    KeepsOthers s.mem (takenMachine T b r s) bs b r := by
  have hkeep : ∀ c ∈ bs, c ≠ b →
      fBlock.get (takenMachine T b r s).mem c .next =
          fBlock.get s.mem c .next ∧
        freeBlockSize (takenMachine T b r s).mem c = freeBlockSize s.mem c := by
    intro c hc hne
    rcases h.frame c hc hne with hoff | ⟨hsub, hsize, hnext⟩
    · have hget := get_takenMachine (T := T) (s := s) hr (h.header c hc hne)
        hoff
      exact ⟨hget .next, congrArg BitVec.toNat (hget .size)⟩
    · have hget := get_takenMachine_of_subset (T := T) (s := s) hsub
      exact ⟨(hget .next).trans hnext.symm,
        (congrArg BitVec.toNat (hget .size)).trans hsize.symm⟩
  refine ⟨?_, freeBlockSize_takenMachine_rest hr hfits,
    fun c hc hne => (hkeep c hc hne).2⟩
  cases bs with
  | nil => exact absurd h.first (by simp)
  | cons c qs =>
      obtain rfl : c = b := by simpa using h.first
      have hnodup := List.nodup_cons.1 hlist.nodup
      obtain ⟨rfl, hqs⟩ := hlist.tail
      refine ⟨_, blockList_takenMachine hr h.rest_ne hqs fun c hc => ?_, ?_⟩
      · exact (hkeep c (List.mem_cons_of_mem _ hc)
          (ne_of_mem_of_not_mem hc hnodup.1)).1
      · rw [List.erase_cons_head]

end

theorem recordRegion_subset_or_disjoint {b c : Addr} {n : ℕ}
    (hb : b.toNat % 4096 = 0) (hc : c.toNat % 4096 = 0) (hn : n % 4096 = 0) :
    fBlock.recordRegion c ⊆ region b n ∨
      Disjoint (fBlock.recordRegion c) (region b n) := by
  have hdist : (c - b).toNat % 4096 = 0 := by bv_omega
  have hlt := (c - b).isLt
  have hoffset : ∀ x ∈ fBlock.recordRegion c,
      (x - c).toNat < 40 ∧ (x - b).toNat = (c - b).toNat + (x - c).toNat := by
    intro x hx
    have hx' : (x - c).toNat < 40 := hx
    refine ⟨hx', ?_⟩
    have hsplit : x - b = (c - b) + (x - c) := by
      bv_omega
    rw [hsplit, BitVec.toNat_add, Nat.mod_eq_of_lt (by omega)]
  rcases Nat.lt_or_ge (c - b).toNat n with hin | hout
  · left
    intro x hx
    obtain ⟨hx', hsum⟩ := hoffset x hx
    rw [mem_region, hsum]
    omega
  · right
    rw [Set.disjoint_left]
    intro x hx hx'
    obtain ⟨-, hsum⟩ := hoffset x hx
    rw [mem_region, hsum] at hx'
    omega

section

variable {τ : Type} {T : SizeTable τ} {s : FrameMachine τ} {b : Addr}
  {r : Word} {bs : List Addr}

theorem disjoint_header_of_pages {c : Addr} (hb : b.toNat % 4096 = 0)
    (hc : c.toNat % 4096 = 0) (hr : r.toNat % 4096 = 0) (hne : c ≠ b + r) :
    Disjoint (fBlock.recordRegion c) (fBlock.recordRegion (b + r)) := by
  have hrest : (b + r).toNat % 4096 = 0 := by bv_omega
  exact (disjoint_region_of_aligned (by decide) hc hrest hne).mono
    (region_mono c (by decide)) (region_mono _ (by decide))

/-- Between page-aligned blocks the new list is a part of what followed the
block, so nothing stood in front of it. -/
theorem split_of_keepsOthers {p : Addr} {pre post : List Addr}
    (hr : r.toNat % 4096 = 0) (hlist : BlockList s.mem p (pre ++ b :: post))
    (haligned : ∀ c ∈ pre ++ b :: post, c.toNat % 4096 = 0)
    (h : KeepsOthers s.mem (takenMachine T b r s) (pre ++ b :: post) b r) :
    pre = [] ∧ b + r ≠ 0 ∧ b + r ∉ post ∧
      BlockList (takenMachine T b r s).mem (fBlock.get s.mem b .next) post := by
  obtain ⟨ps, hps, hperm⟩ := h.list
  have hpost := hlist.drop.tail.2
  have hpre : b ∉ pre := fun hmem => (List.nodup_cons.1
    (List.nodup_middle.1 hlist.nodup)).1 (List.mem_append_left _ hmem)
  rw [List.erase_append_right _ hpre, List.erase_cons_head] at hperm
  cases ps with
  | nil => exact absurd hperm.length_eq (by simp)
  | cons q qs =>
      have hrest := hps.head_ne_zero List.mem_cons_self
      have hfresh := (List.nodup_cons.1 hps.nodup).1
      obtain ⟨rfl, hqs⟩ := hps.tail
      have hqs' : BlockList (takenMachine T b r s).mem
          (fBlock.get s.mem b .next) qs :=
        (takenMachine_rest T b r s hr).2 ▸ hqs
      have hperm' : qs.Perm (pre ++ post) := hperm.cons_inv
      have hnotin : b + r ∉ pre ++ post := fun hmem =>
        hfresh (hperm'.mem_iff.2 hmem)
      have hb := haligned b (by simp)
      have hprefix := hpost.prefix_of_cut hqs' fun c hc => by
        have hc' := haligned c (by simp [hc])
        have hne : c ≠ b + r :=
          ne_of_mem_of_not_mem (List.mem_append_right pre hc) hnotin
        rcases recordRegion_subset_or_disjoint hb hc' hr with hsub | hoff
        · exact Or.inl (get_takenMachine_of_subset hsub .next)
        · exact Or.inr (get_takenMachine hr
            (disjoint_header_of_pages hb hc' hr hne) hoff .next)
      have hlen := hperm'.length_eq
      rw [List.length_append] at hlen
      have hle := hprefix.length_le
      obtain rfl := hprefix.eq_of_length (by omega)
      exact ⟨List.length_eq_zero_iff.1 (by omega), hrest, hfresh, hqs'⟩

theorem leavesOthers_of_keepsOthers {p : Addr} (hr : r.toNat % 4096 = 0)
    (hlist : BlockList s.mem p bs) (hb : b ∈ bs)
    (haligned : ∀ c ∈ bs, c.toNat % 4096 = 0)
    (h : KeepsOthers s.mem (takenMachine T b r s) bs b r) :
    LeavesOthers s.mem bs b r := by
  obtain ⟨pre, post, rfl⟩ := List.append_of_mem hb
  obtain ⟨rfl, hrest, hnotin, hpost⟩ :=
    split_of_keepsOthers hr hlist haligned h
  have hmem : ∀ c ∈ [] ++ b :: post, c ≠ b → c ∈ post := fun c hc hne =>
    (List.mem_cons.1 hc).resolve_left hne
  refine ⟨rfl, hrest, fun c hc hne => ?_, fun c hc hne => ?_⟩
  · exact disjoint_header_of_pages (haligned b hb) (haligned c hc) hr
      (ne_of_mem_of_not_mem (hmem c hc hne) hnotin)
  · rcases recordRegion_subset_or_disjoint (haligned b hb) (haligned c hc) hr
      with hsub | hoff
    · have hcut := get_takenMachine_of_subset (T := T) (s := s) hsub
      have hnext := hlist.drop.tail.2.next_eq hpost c (hmem c hc hne)
      exact Or.inr ⟨hsub, (h.others c hc hne).symm.trans
        (congrArg BitVec.toNat (hcut .size)), hnext.symm.trans (hcut .next)⟩
    · exact Or.inl hoff

end

/-- The call returns, and afterwards the list holds the blocks other than `b`
and the rest of `b`. -/
def AllocationKeepsOthers {τ : Type} (T : SizeTable τ) (fuel : ℕ)
    (requestSize : Word) (s : FrameMachine τ) (bs : List Addr) (b : Addr) :
    Prop :=
  ∃ frame s', (allocateFrame T fuel requestSize).run s = .ok frame s' ∧
    KeepsOthers s.mem s' bs b (roundUpToPageBoundary requestSize)

theorem allocationKeepsOthers_iff_takenMachine {τ : Type} (T : SizeTable τ)
    {fuel : ℕ} {requestSize : Word} {s : FrameMachine τ} {bs : List Addr}
    {b : Addr} (hhead : s.globals.head ≠ 0)
    (hroom : roundUpToPageBoundary requestSize ≤
      s.globals.globalBootInfo.memory.freeMemSize)
    (hfit : fitSearch s.mem (roundUpToPageBoundary requestSize) fuel
      s.globals.freeBlock = some b) (hb : b ≠ 0) :
    AllocationKeepsOthers T fuel requestSize s bs b ↔
      KeepsOthers s.mem (takenMachine T b (roundUpToPageBoundary requestSize)
        (searchedMachine s)) bs b (roundUpToPageBoundary requestSize) := by
  have hrun := run_allocateFrame T hhead hroom hfit
  rw [if_neg hb, run_takeBlock] at hrun
  constructor
  · rintro ⟨frame, s', hrun', h⟩
    obtain ⟨-, rfl⟩ := EStateM.Result.ok.inj (hrun.symm.trans hrun')
    exact h
  · exact fun h => ⟨_, _, hrun, h⟩

/-- An allocation keeps the other blocks when it takes the first one and no
header lies in the way, and between page-aligned blocks only then. -/
theorem allocationKeepsOthers_iff {τ : Type} (T : SizeTable τ) {fuel : ℕ}
    {requestSize : Word} {s : FrameMachine τ} {bs : List Addr} {b : Addr}
    (hlist : BlockList s.mem s.globals.head bs) (hbs : bs ≠ [])
    (hfree : s.globals.freeBlock = s.globals.head)
    (hfuel : bs.length ≤ fuel + 1)
    (hroom : roundUpToPageBoundary requestSize ≤
      s.globals.globalBootInfo.memory.freeMemSize)
    (hfit : fitSearch s.mem (roundUpToPageBoundary requestSize) fuel
      s.globals.freeBlock = some b) (hb : b ≠ 0) :
    (LeavesOthers s.mem bs b (roundUpToPageBoundary requestSize) →
        AllocationKeepsOthers T fuel requestSize s bs b) ∧
      ((∀ c ∈ bs, c.toNat % 4096 = 0) →
        AllocationKeepsOthers T fuel requestSize s bs b →
        LeavesOthers s.mem bs b (roundUpToPageBoundary requestSize)) := by
  obtain ⟨hmem, hfits⟩ := fitSearch_mem hlist hbs hfuel (hfree ▸ hfit) hb
  have hr := roundUpToPageBoundary_mod requestSize
  rw [allocationKeepsOthers_iff_takenMachine T (hlist.head_ne_zero hmem) hroom
    hfit hb]
  constructor
  · exact keepsOthers_takenMachine (s := searchedMachine s) hr hfits hlist
  · exact leavesOthers_of_keepsOthers (s := searchedMachine s) hr hlist hmem

/-- The first of two blocks is cut in two. -/
theorem allocationKeepsOthers_twoBlocks :
    AllocationKeepsOthers addressSizeTable 1 0x1000
      (linkedMachine (twoBlocks 0x2000 0x1000) 0x3000)
      [0xffff800000100000, 0xffff800000104000] 0xffff800000100000 := by
  have hother : ∀ c ∈ [(0xffff800000100000 : Addr), 0xffff800000104000],
      c ≠ 0xffff800000100000 →
        c = 0xffff800000100000 + BitVec.ofNat 64 0x4000 := by
    simp
  have hround : roundUpToPageBoundary 0x1000 = BitVec.ofNat 64 0x1000 := by
    decide
  have hleaves : LeavesOthers (linkedBlocks (twoBlocks 0x2000 0x1000))
      [0xffff800000100000, 0xffff800000104000] 0xffff800000100000
      (roundUpToPageBoundary 0x1000) := by
    rw [hround]
    refine ⟨rfl, by decide, fun c hc hne => ?_, fun c hc hne => Or.inl ?_⟩
    · rw [hother c hc hne]
      exact (disjoint_region_of_le _ (by decide) (by decide)).symm
    · rw [hother c hc hne]
      have h := disjoint_region_of_le (0xffff800000100000 : Addr) (i := 0)
        (n := 0x1000) (j := 0x4000) (k := 40) (by decide) (by decide)
      rw [BitVec.ofNat_eq_ofNat, BitVec.add_zero] at h
      exact h.symm
  exact (allocationKeepsOthers_iff addressSizeTable
    (blockList_twoBlocks _ _).1 (by simp) rfl le_rfl (by decide)
    (by decide +kernel) (by decide)).1 hleaves

def threeBlocks : List (Addr × Word) :=
  [(0xffff800000100000, 0x1000), (0xffff800000104000, 0x2000),
    (0xffff800000108000, 0x1000)]

theorem disjoint_threeBlocks : threeBlocks.Pairwise fun b c =>
    Disjoint (region b.1 0x2000) (region c.1 0x2000) := by
  have hne : threeBlocks.Pairwise fun b c => b.1 ≠ c.1 := by
    decide +kernel
  have hpages : ∀ b ∈ threeBlocks, b.1.toNat % 0x2000 = 0 := by
    simp [threeBlocks]
  exact hne.imp_of_mem fun hb hc h =>
    disjoint_region_of_aligned (by decide) (hpages _ hb) (hpages _ hc) h

theorem blockList_threeBlocks :
    BlockList (linkedBlocks threeBlocks) 0xffff800000100000
        [0xffff800000100000, 0xffff800000104000, 0xffff800000108000] ∧
      ∀ b ∈ threeBlocks,
        freeBlockSize (linkedBlocks threeBlocks) b.1 = b.2.toNat :=
  blockList_linkedBlocks (show ∀ b ∈ threeBlocks, b.1 ≠ 0 by simp [threeBlocks])
    (disjoint_threeBlocks.imp fun h =>
      h.mono (region_mono _ (by decide)) (region_mono _ (by decide)))

/-- Two pages are asked for: the second of three blocks is taken, and the first
one is lost. -/
theorem exists_not_allocationKeepsOthers :
    ∃ (s : FrameMachine HashTable) (bs : List Addr) (b : Addr),
      BlockList s.mem s.globals.head bs ∧ bs ≠ [] ∧
      bs.Pairwise (fun p q =>
        Disjoint (blockRegion s.mem p) (blockRegion s.mem q)) ∧
      s.globals.freeBlock = s.globals.head ∧
      roundUpToPageBoundary 0x2000 ≤
        s.globals.globalBootInfo.memory.freeMemSize ∧
      fitSearch s.mem (roundUpToPageBoundary 0x2000) bs.length
        s.globals.freeBlock = some b ∧ b ≠ 0 ∧
      ¬ AllocationKeepsOthers addressSizeTable bs.length 0x2000 s bs b := by
  obtain ⟨hlist, hsize⟩ := blockList_threeBlocks
  have hroom : roundUpToPageBoundary 0x2000 ≤ (0x4000 : Word) := by decide
  have hfit : fitSearch (linkedBlocks threeBlocks)
      (roundUpToPageBoundary 0x2000) 3 0xffff800000100000 =
        some 0xffff800000104000 := by
    decide +kernel
  refine ⟨linkedMachine threeBlocks 0x4000, threeBlocks.map Prod.fst,
    0xffff800000104000, hlist, by simp [threeBlocks], ?_, rfl, hroom, hfit,
    by decide, fun h => ?_⟩
  · refine List.pairwise_map.2 (disjoint_threeBlocks.imp_of_mem ?_)
    have hpages : ∀ b ∈ threeBlocks,
        freeBlockSize (linkedBlocks threeBlocks) b.1 ≤ 0x2000 := by
      intro b hb
      rw [hsize b hb]
      revert b
      simp [threeBlocks]
    intro b c hb hc h
    exact h.mono (region_mono _ (hpages b hb)) (region_mono _ (hpages c hc))
  · have hkeeps := (allocationKeepsOthers_iff_takenMachine addressSizeTable
      (s := linkedMachine threeBlocks 0x4000) (by decide) hroom hfit
      (by decide)).1 h
    have hleaves := leavesOthers_of_keepsOthers
      (s := searchedMachine (linkedMachine threeBlocks 0x4000)) (by decide)
      hlist (by simp) (by simp) hkeeps
    exact absurd hleaves.first (by decide)

end OptimistOS
