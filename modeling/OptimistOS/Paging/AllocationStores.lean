import OptimistOS.Foundation.Stores
import OptimistOS.Paging.RemainingBlocks

/-!
# What an allocation writes

The stores of `allocateFrame`, statement by statement (`allocationStores`). Next
to the frame it hands out, a call writes the header of the rest right behind the
frame. That header lies in free memory when enough of the block is left, but
a block that is used up has no room for it (`writesInside_iff`).
-/

namespace OptimistOS

open ByteMemory ByteMemory.Code

def splitStores (m : Bytes) (selectedBlock : Addr) (roundedRequestSize : Word) :
    List (Store 64) :=
  let newBlock := selectedBlock + roundedRequestSize
  let inUse := fBlock.fieldStore selectedBlock .inUse 1
  let m := inUse.apply m
  let size := fBlock.fieldStore newBlock .size
    (fBlock.get m selectedBlock .size - roundedRequestSize)
  let m := size.apply m
  let free := fBlock.fieldStore newBlock .inUse 0
  let m := free.apply m
  let next := fBlock.fieldStore newBlock .next
    (fBlock.get m selectedBlock .next)
  [inUse, size, free, next, fBlock.fieldStore newBlock .prevSize 0]

theorem applyStores_splitStores (m : Bytes) (selectedBlock : Addr)
    (roundedRequestSize : Word) :
    applyStores m (splitStores m selectedBlock roundedRequestSize) =
      splitBlock m selectedBlock roundedRequestSize := rfl

theorem applyStores_byteStores (m : Bytes) (start : Addr) (value : BitVec 8)
    (num : ℕ) :
    applyStores m (byteStores start num value.toNat) =
      memoryset m start value num := by
  induction num with
  | zero => rfl
  | succ num ih =>
      rw [byteStores, List.range_succ, List.map_append, applyStores_append]
      rw [byteStores] at ih
      rw [ih]
      rfl

def takeStores (m : Bytes) (selectedBlock : Addr) (roundedRequestSize : Word) :
    List (Store 64) :=
  splitStores m selectedBlock roundedRequestSize ++
    byteStores selectedBlock roundedRequestSize.toNat 0

def coalesceStores (m : Bytes) (selectedBlock : Addr) : List (Store 64) :=
  let prevBlock := fBlock.get m selectedBlock .previous
  let size := fBlock.fieldStore prevBlock .size
    (fBlock.get m prevBlock .size + fBlock.get m selectedBlock .size)
  let m := size.apply m
  [size, fBlock.fieldStore prevBlock .next (fBlock.get m selectedBlock .next)]

/-- The block an allocation takes, and its stores up to there: the one the
search answers, or the predecessor of the one to merge. -/
def blockTaken (m : Bytes) (fuel : ℕ) (roundedRequestSize : Word)
    (freeBlock head : Addr) : Option (Addr × List (Store 64)) :=
  match fitSearch m roundedRequestSize fuel freeBlock with
  | none => none
  | some selectedBlock =>
      if selectedBlock = 0 then
        match pairSearch m roundedRequestSize fuel head 0 with
        | none => none
        | some selectedBlock =>
            if selectedBlock = 0 then none
            else some (fBlock.get m selectedBlock .previous,
              coalesceStores m selectedBlock)
      else some (selectedBlock, [])

def allocationStores (m : Bytes) (fuel : ℕ) (roundedRequestSize : Word)
    (freeBlock head : Addr) : List (Store 64) :=
  match blockTaken m fuel roundedRequestSize freeBlock head with
  | none => []
  | some (selectedBlock, stores) =>
      stores ++ takeStores (applyStores m stores) selectedBlock
        roundedRequestSize

def mergedBlocks (m : Bytes) (p c : Addr) : Bytes :=
  fBlock.set (fBlock.set m p .size (fBlock.get m p .size + fBlock.get m c .size))
    p .next (fBlock.get (fBlock.set m p .size
      (fBlock.get m p .size + fBlock.get m c .size)) c .next)

theorem run_coalesce {τ : Type} {fuel : ℕ} {r : Word} {c : Addr}
    {s : FrameMachine τ}
    (hpair : pairSearch s.mem r fuel s.globals.freeBlock 0 = some c)
    (hc : c ≠ 0) :
    (coalesce fuel r).run s = .ok (fBlock.get s.mem c .previous)
      { s with mem := mergedBlocks s.mem (fBlock.get s.mem c .previous) c } := by
  rw [coalesce, EStateM.run_bind, EStateM.run_get]
  simp only [hpair, if_neg hc, EStateM.run_bind, run_modifyMem, EStateM.run_pure]
  rfl

theorem run_coalesce_eq_ok {τ : Type} {fuel : ℕ} {r : Word} {prevBlock : Addr}
    {s s' : FrameMachine τ}
    (hrun : (coalesce fuel r).run s = .ok prevBlock s') :
    ∃ c, pairSearch s.mem r fuel s.globals.freeBlock 0 = some c ∧ c ≠ 0 ∧
      prevBlock = fBlock.get s.mem c .previous ∧
      s' = { s with mem := applyStores s.mem (coalesceStores s.mem c) } := by
  rw [coalesce, EStateM.run_bind, EStateM.run_get] at hrun
  cases hpair : pairSearch s.mem r fuel s.globals.freeBlock 0 with
  | none =>
      simp only [hpair, run_throw] at hrun
      exact absurd hrun (by simp)
  | some c =>
      by_cases hc : c = 0
      · simp only [hpair, if_pos hc, run_throw] at hrun
        exact absurd hrun (by simp)
      · simp only [hpair, if_neg hc, EStateM.run_bind, run_modifyMem,
          EStateM.run_pure] at hrun
        obtain ⟨rfl, rfl⟩ := EStateM.Result.ok.inj hrun
        exact ⟨c, rfl, hc, rfl, rfl⟩

theorem takenMachine_mem_eq_applyStores {τ : Type} (T : SizeTable τ) (b : Addr)
    (r : Word) (s : FrameMachine τ) :
    (takenMachine T b r s).mem = applyStores s.mem (takeStores s.mem b r) := by
  rw [takeStores, applyStores_append, applyStores_splitStores]
  exact (applyStores_byteStores _ b 0 r.toNat).symm

theorem blockTaken_of_fitSearch {m : Bytes} {fuel : ℕ} {r : Word}
    {freeBlock b : Addr} (hfit : fitSearch m r fuel freeBlock = some b)
    (hb : b ≠ 0) (head : Addr) :
    blockTaken m fuel r freeBlock head = some (b, []) := by
  simp only [blockTaken, hfit, if_neg hb]

theorem blockTaken_of_pairSearch {m : Bytes} {fuel : ℕ} {r : Word}
    {freeBlock head c : Addr} (hfit : fitSearch m r fuel freeBlock = some 0)
    (hpair : pairSearch m r fuel head 0 = some c) (hc : c ≠ 0) :
    blockTaken m fuel r freeBlock head =
      some (fBlock.get m c .previous, coalesceStores m c) := by
  simp only [blockTaken, hfit, if_pos, hpair, if_neg hc]

/-- A granted request is not beyond the free memory, and its search has come to
an end. -/
theorem fitSearch_of_granted {τ : Type} {T : SizeTable τ} {fuel : ℕ}
    {requestSize frame : Word} {s s' : FrameMachine τ}
    (hhead : s.globals.head ≠ 0)
    (hrun : (allocateFrame T fuel requestSize).run s = .ok frame s') :
    roundUpToPageBoundary requestSize ≤
        s.globals.globalBootInfo.memory.freeMemSize ∧
      ∃ b, fitSearch s.mem (roundUpToPageBoundary requestSize) fuel
        s.globals.freeBlock = some b := by
  rw [allocateFrame, run_bind_of_ok (run_ensureFreeList_of_ne hhead)] at hrun
  simp only [EStateM.run_bind, run_modifyGlobals, EStateM.run_get] at hrun
  by_cases hroom : s.globals.globalBootInfo.memory.freeMemSize <
      roundUpToPageBoundary requestSize
  · simp only [if_pos hroom, run_throw] at hrun
    exact absurd hrun (by simp)
  · refine ⟨BitVec.not_lt.1 hroom, ?_⟩
    cases hfit : fitSearch s.mem (roundUpToPageBoundary requestSize) fuel
        s.globals.freeBlock with
    | none =>
        simp only [if_neg hroom, hfit, run_throw] at hrun
        exact absurd hrun (by simp)
    | some b => exact ⟨b, rfl⟩

/-- A granted request has taken a block, and its effect on the memory is that of
its stores. -/
theorem exists_blockTaken {τ : Type} {T : SizeTable τ} {fuel : ℕ}
    {requestSize frame : Word} {s s' : FrameMachine τ}
    (hhead : s.globals.head ≠ 0)
    (hrun : (allocateFrame T fuel requestSize).run s = .ok frame s') :
    ∃ b stores,
      blockTaken s.mem fuel (roundUpToPageBoundary requestSize)
          s.globals.freeBlock s.globals.head = some (b, stores) ∧
        frame + s.globals.globalBootInfo.memory.hhdmOffset = b ∧
        s'.mem = applyStores s.mem (allocationStores s.mem fuel
          (roundUpToPageBoundary requestSize) s.globals.freeBlock
          s.globals.head) := by
  obtain ⟨hroom, b, hfit⟩ := fitSearch_of_granted hhead hrun
  rw [run_allocateFrame T hhead hroom hfit] at hrun
  by_cases hb : b = 0
  · subst hb
    rw [if_pos rfl] at hrun
    obtain ⟨prevBlock, t, hcoalesce, htake⟩ := run_bind_eq_ok.1 hrun
    obtain ⟨c, hpair, hc, rfl, rfl⟩ := run_coalesce_eq_ok hcoalesce
    rw [run_takeBlock] at htake
    obtain ⟨rfl, rfl⟩ := EStateM.Result.ok.inj htake
    change pairSearch s.mem _ fuel s.globals.head 0 = some c at hpair
    have htaken := blockTaken_of_pairSearch hfit hpair hc
    refine ⟨_, _, htaken, BitVec.sub_add_cancel _ _, ?_⟩
    rw [allocationStores, htaken, takenMachine_mem_eq_applyStores]
    exact (applyStores_append _ _ _).symm
  · rw [if_neg hb, run_takeBlock] at hrun
    obtain ⟨rfl, rfl⟩ := EStateM.Result.ok.inj hrun
    have htaken := blockTaken_of_fitSearch hfit hb s.globals.head
    refine ⟨_, _, htaken, BitVec.sub_add_cancel _ _, ?_⟩
    rw [allocationStores, htaken, takenMachine_mem_eq_applyStores]
    rfl

def headerBytes (p : Addr) : Set Addr :=
  fBlock.fieldRegion p .size ∪ (fBlock.fieldRegion p .inUse ∪
    (fBlock.fieldRegion p .next ∪ fBlock.fieldRegion p .prevSize))

section

variable {m : Bytes} {fuel : ℕ} {b freeBlock head : Addr} {r : Word}
  {stores : List (Store 64)}

/-- The header of the block taken lies in the frame, or is the header of the
rest of a request for no bytes. -/
theorem fieldRegion_subset_taken (hr : r.toNat % 4096 = 0) {f : FBlock}
    (hf : f ≠ .previous) :
    fBlock.fieldRegion b f ⊆ region b r.toNat ∪ headerBytes (b + r) := by
  rcases eq_zero_or_of_mod hr with rfl | ⟨hlow, -⟩
  · have hzero : b + 0 = b := by simp
    rw [hzero]
    refine Set.subset_union_of_subset_right ?_ _
    cases f with
    | previous => exact absurd rfl hf
    | _ => intro x hx; simp [headerBytes, hx]
  · exact Set.subset_union_of_subset_left
      ((fBlock.fieldRegion_subset b f).trans (region_mono b hlow)) _

theorem storedBytes_takeStores (hr : r.toNat % 4096 = 0) :
    storedBytes (takeStores m b r) =
      region b r.toNat ∪ headerBytes (b + r) := by
  rw [takeStores, storedBytes_append,
    storedBytes_byteStores b r.isLt.le]
  simp only [splitStores, storedBytes_cons, storedBytes_nil,
    Layout.bytes_fieldStore, Set.union_empty]
  rw [Set.union_comm, Set.union_left_comm]
  exact Set.union_eq_right.2 (fieldRegion_subset_taken hr (by decide))

theorem blockTaken_cases
    (h : blockTaken m fuel r freeBlock head = some (b, stores)) :
    (fitSearch m r fuel freeBlock = some b ∧ b ≠ 0 ∧ stores = []) ∨
      (fitSearch m r fuel freeBlock = some 0 ∧
        ∃ c, pairSearch m r fuel head 0 = some c ∧
          b = fBlock.get m c .previous ∧ stores = coalesceStores m c) := by
  rw [blockTaken] at h
  split at h
  · exact absurd h (by simp)
  · next d hfit =>
      split_ifs at h with hd
      · right
        subst hd
        refine ⟨hfit, ?_⟩
        split at h
        · exact absurd h (by simp)
        · next c hpair =>
            split_ifs at h with hc
            obtain ⟨rfl, rfl⟩ := Prod.mk.inj (Option.some_injective _ h)
            exact ⟨c, hpair, rfl, rfl⟩
      · obtain ⟨rfl, rfl⟩ := Prod.mk.inj (Option.some_injective _ h)
        exact Or.inl ⟨hfit, hd, rfl⟩

theorem storedBytes_allocationStores (hr : r.toNat % 4096 = 0)
    (h : blockTaken m fuel r freeBlock head = some (b, stores)) :
    storedBytes (allocationStores m fuel r freeBlock head) =
      region b r.toNat ∪ headerBytes (b + r) := by
  have hstores : storedBytes stores ⊆
      region b r.toNat ∪ headerBytes (b + r) := by
    rcases blockTaken_cases h with ⟨-, -, rfl⟩ | ⟨-, c, -, rfl, rfl⟩
    · simp
    · simp only [coalesceStores, storedBytes_cons, storedBytes_nil,
        Layout.bytes_fieldStore, Set.union_empty]
      exact Set.union_subset (fieldRegion_subset_taken hr (by decide))
        (fieldRegion_subset_taken hr (by decide))
  rw [allocationStores, h]
  change storedBytes (stores ++ takeStores _ b r) = _
  rw [storedBytes_append, storedBytes_takeStores hr]
  exact Set.union_eq_right.2 hstores

theorem headerBytes_subset (p : Addr) :
    headerBytes p ⊆ fBlock.recordRegion p := by
  simp only [headerBytes, Set.union_subset_iff]
  exact ⟨fBlock.fieldRegion_subset _ _, fBlock.fieldRegion_subset _ _,
    fBlock.fieldRegion_subset _ _, fBlock.fieldRegion_subset _ _⟩

theorem disjoint_headerBytes (hr : r.toNat % 4096 = 0) :
    Disjoint (region b r.toNat) (headerBytes (b + r)) := by
  have hlt := r.isLt
  have hdisj : Disjoint (region b r.toNat) (fBlock.recordRegion (b + r)) := by
    have h := disjoint_region_of_le b (i := 0) (n := r.toNat) (j := r.toNat)
      (k := 40) (by omega) (by omega)
    rw [BitVec.ofNat_toNat, BitVec.setWidth_eq] at h
    simpa [Layout.recordRegion, fBlock] using h
  exact hdisj.mono_right (headerBytes_subset (b + r))

end

def freeBytes (m : Bytes) (bs : List Addr) : Set Addr :=
  {x | ∃ c ∈ bs, x ∈ blockRegion m c}

/-- Every byte written lies in the frame or was free, in no live frame, and in
the usable region. -/
def WritesInside (written frame free live usable : Set Addr) : Prop :=
  ∀ x ∈ written, (x ∈ frame ∨ x ∈ free) ∧ x ∉ live ∧ x ∈ usable

/-- The header of the rest is written to free memory, and a frame won by
coalescing lies in the usable region and off the live frames. -/
structure RestIsFree (m : Bytes) (fuel : ℕ) (r : Word) (freeBlock head : Addr)
    (bs : List Addr) (live usable : Set Addr) : Prop where
  header : ∀ b stores,
    blockTaken m fuel r freeBlock head = some (b, stores) →
      headerBytes (b + r) ⊆ freeBytes m bs
  coalesced : fitSearch m r fuel freeBlock = some 0 → ∀ b stores,
    blockTaken m fuel r freeBlock head = some (b, stores) →
      region b r.toNat ⊆ usable \ live

theorem fitSearch_mem_of_mem {m : Bytes} {r : Word} {head freeBlock b : Addr}
    {bs : List Addr} (hlist : BlockList m head bs) (hfree : freeBlock ∈ bs)
    {fuel : ℕ} (hfuel : bs.length ≤ fuel + 1)
    (hb : fitSearch m r fuel freeBlock = some b) (hne : b ≠ 0) :
    b ∈ bs ∧ Fits m r b := by
  obtain ⟨pre, post, rfl⟩ := List.append_of_mem hfree
  have hlen : (freeBlock :: post).length ≤ fuel + 1 := by
    rw [List.length_append] at hfuel
    omega
  obtain ⟨hmem, hfits⟩ := fitSearch_mem hlist.drop (by simp) hlen hb hne
  exact ⟨List.mem_append_right _ hmem, hfits⟩

/-- A granted request writes to its frame and to free memory only exactly when
there is free memory for the header of the rest. -/
theorem writesInside_iff {τ : Type} {T : SizeTable τ} {fuel : ℕ}
    {requestSize frame : Word} {s s' : FrameMachine τ} {bs : List Addr}
    {live usable : Set Addr} (hlist : BlockList s.mem s.globals.head bs)
    (hfree : s.globals.freeBlock ∈ bs) (hfuel : bs.length ≤ fuel + 1)
    (husable : freeBytes s.mem bs ⊆ usable)
    (hlive : Disjoint (freeBytes s.mem bs) live)
    (hrun : (allocateFrame T fuel requestSize).run s = .ok frame s') :
    WritesInside
        (storedBytes (allocationStores s.mem fuel
          (roundUpToPageBoundary requestSize) s.globals.freeBlock
          s.globals.head))
        (region (frame + s.globals.globalBootInfo.memory.hhdmOffset)
          (roundUpToPageBoundary requestSize).toNat)
        (freeBytes s.mem bs) live usable ↔
      RestIsFree s.mem fuel (roundUpToPageBoundary requestSize)
        s.globals.freeBlock s.globals.head bs live usable := by
  have hr := roundUpToPageBoundary_mod requestSize
  obtain ⟨b, stores, htaken, hframe, -⟩ :=
    exists_blockTaken (hlist.head_ne_zero hfree) hrun
  have hthis : ∀ c stores', blockTaken s.mem fuel
      (roundUpToPageBoundary requestSize) s.globals.freeBlock s.globals.head =
        some (c, stores') → c = b := fun c stores' h =>
    congrArg Prod.fst (Option.some_injective _ (h.symm.trans htaken))
  rw [storedBytes_allocationStores hr htaken, hframe]
  constructor
  · intro h
    refine ⟨fun c stores' hc x hx => ?_, fun _ c stores' hc x hx => ?_⟩
    · rw [hthis c stores' hc] at hx
      exact (h x (Or.inr hx)).1.resolve_left
        (Set.disjoint_right.1 (disjoint_headerBytes hr) hx)
    · rw [hthis c stores' hc] at hx
      exact ⟨(h x (Or.inl hx)).2.2, (h x (Or.inl hx)).2.1⟩
  · intro h x hx
    have hsafe : ∀ y ∈ freeBytes s.mem bs, y ∉ live ∧ y ∈ usable :=
      fun y hy => ⟨Set.disjoint_left.1 hlive hy, husable hy⟩
    rcases hx with hx | hx
    · refine ⟨Or.inl hx, ?_⟩
      rcases blockTaken_cases htaken with ⟨hfit, hb, -⟩ | ⟨hfit, -⟩
      · obtain ⟨hmem, hfits⟩ := fitSearch_mem_of_mem hlist hfree hfuel hfit hb
        exact hsafe x ⟨b, hmem, region_mono b hfits hx⟩
      · have hin := h.coalesced hfit b stores htaken hx
        exact ⟨hin.2, hin.1⟩
    · have hin := h.header b stores htaken hx
      exact ⟨Or.inr hin, hsafe x hin⟩

/-- Two blocks of two pages, which lie side by side, and one of a page. -/
def adjacentBlocks : Bytes :=
  let m := linkedBlocks [(0xffff800000100000, 0x2000),
    (0xffff800000102000, 0x2000), (0xffff800000108000, 0x1000)]
  let m := fBlock.set m 0xffff800000102000 .previous 0xffff800000100000
  fBlock.set m 0xffff800000102000 .prevSize 0x2000

theorem blockList_adjacentBlocks :
    BlockList adjacentBlocks 0xffff800000100000
      [0xffff800000100000, 0xffff800000102000, 0xffff800000108000] := by
  have hnext₁ : fBlock.get adjacentBlocks 0xffff800000100000 .next =
      0xffff800000102000 := by decide +kernel
  have hnext₂ : fBlock.get adjacentBlocks 0xffff800000102000 .next =
      0xffff800000108000 := by decide +kernel
  have hnext₃ : fBlock.get adjacentBlocks 0xffff800000108000 .next = 0 := by
    decide +kernel
  exact blockList_iff_chain.2 ⟨rfl, by decide, hnext₁, by decide, hnext₂,
    by decide, hnext₃⟩

theorem freeBytes_adjacentBlocks :
    freeBytes adjacentBlocks
        [0xffff800000100000, 0xffff800000102000, 0xffff800000108000] =
      region (0xffff800000100000 + BitVec.ofNat 64 0) 0x2000 ∪
        (region (0xffff800000100000 + BitVec.ofNat 64 0x2000) 0x2000 ∪
          region (0xffff800000100000 + BitVec.ofNat 64 0x8000) 0x1000) := by
  have hregion : ∀ b i n, b = 0xffff800000100000 + BitVec.ofNat 64 i →
      freeBlockSize adjacentBlocks b = n → blockRegion adjacentBlocks b =
        region (0xffff800000100000 + BitVec.ofNat 64 i) n := by
    rintro b i n rfl rfl
    rfl
  rw [← hregion 0xffff800000100000 0 0x2000 (by decide) (by decide +kernel),
    ← hregion 0xffff800000102000 0x2000 0x2000 (by decide) (by decide +kernel),
    ← hregion 0xffff800000108000 0x8000 0x1000 (by decide) (by decide +kernel)]
  ext x
  simp only [freeBytes, Set.mem_ofPred_eq, List.mem_cons, List.not_mem_nil,
    or_false, exists_eq_or_imp, exists_eq_left, Set.mem_union]

/-- Three pages are cut off the first two blocks, which are merged. The page
behind them is a frame in use. -/
theorem writesInside_mergedPair :
    ∃ frame s',
      (allocateFrame addressSizeTable 2 0x3000).run
          { linkedMachine [(0xffff800000100000, 0x2000)] 0x5000 with
            mem := adjacentBlocks } = .ok frame s' ∧
        WritesInside
          (storedBytes (allocationStores adjacentBlocks 2
            (roundUpToPageBoundary 0x3000) 0xffff800000100000
            0xffff800000100000))
          (region (frame + 0xffff800000000000)
            (roundUpToPageBoundary 0x3000).toNat)
          (freeBytes adjacentBlocks
            [0xffff800000100000, 0xffff800000102000, 0xffff800000108000])
          (region 0xffff800000104000 0x1000)
          (region 0xffff800000100000 0x10000) := by
  have hfit : fitSearch adjacentBlocks (roundUpToPageBoundary 0x3000) 2
      0xffff800000100000 = some 0 := by
    decide +kernel
  have hpair : pairSearch adjacentBlocks (roundUpToPageBoundary 0x3000) 2
      0xffff800000100000 0 = some 0xffff800000102000 := by
    decide +kernel
  have hprevious : fBlock.get adjacentBlocks 0xffff800000102000 .previous =
      0xffff800000100000 + BitVec.ofNat 64 0 := by
    decide +kernel
  have hlive : (0xffff800000104000 : Addr) =
      0xffff800000100000 + BitVec.ofNat 64 0x4000 := by decide
  have htaken : ∀ b stores, blockTaken adjacentBlocks 2
      (roundUpToPageBoundary 0x3000) 0xffff800000100000 0xffff800000100000 =
        some (b, stores) → b = 0xffff800000100000 + BitVec.ofNat 64 0 := by
    intro b stores hb
    rw [blockTaken_of_pairSearch hfit hpair (by decide), Option.some.injEq,
      Prod.mk.injEq] at hb
    exact hb.1.symm.trans hprevious
  let s : FrameMachine HashTable :=
    { linkedMachine [(0xffff800000100000, 0x2000)] 0x5000 with
      mem := adjacentBlocks }
  have hrun := run_allocateFrame addressSizeTable (s := s) (by decide)
    (by decide) hfit
  rw [if_pos rfl, run_bind_of_ok (run_coalesce (s := searchedMachine s) hpair
    (by decide)), run_takeBlock] at hrun
  have husable : ∀ i n, i + n ≤ 0x10000 →
      region (0xffff800000100000 + BitVec.ofNat 64 i) n ⊆
        region 0xffff800000100000 0x10000 := fun i n h =>
    region_subset_of_le _ h (by decide)
  have hapart : ∀ i n j k, i + n ≤ j → j + k ≤ 2 ^ 64 →
      Disjoint (region (0xffff800000100000 + BitVec.ofNat 64 i) n)
        (region (0xffff800000100000 + BitVec.ofNat 64 j) k) := fun i n j k =>
    disjoint_region_of_le _
  refine ⟨_, _, hrun, (writesInside_iff (s := s) blockList_adjacentBlocks
    List.mem_cons_self le_rfl ?_ ?_ hrun).2 ⟨?_, ?_⟩⟩
  · refine freeBytes_adjacentBlocks.le.trans (Set.union_subset ?_
      (Set.union_subset ?_ ?_))
    all_goals exact husable _ _ (by decide)
  · rw [hlive]
    refine Disjoint.mono_left freeBytes_adjacentBlocks.le ?_
    rw [Set.disjoint_union_left, Set.disjoint_union_left]
    exact ⟨hapart _ _ _ _ (by decide) (by decide),
      hapart _ _ _ _ (by decide) (by decide),
      (hapart _ _ _ _ (by decide) (by decide)).symm⟩
  · intro b stores hb x hx
    rw [htaken b stores hb] at hx
    refine freeBytes_adjacentBlocks.ge (Or.inr (Or.inl ?_))
    rw [BitVec.add_assoc, show BitVec.ofNat 64 0 + roundUpToPageBoundary 0x3000 =
      BitVec.ofNat 64 0x2000 + BitVec.ofNat 64 0x1000 by decide,
      ← BitVec.add_assoc] at hx
    exact region_subset_of_le _ (by decide) (by decide)
      (headerBytes_subset _ hx)
  · intro _ b stores hb
    rw [htaken b stores hb, hlive]
    refine Set.subset_sdiff.2 ⟨husable _ _ (by decide), ?_⟩
    exact hapart _ _ _ _ (by decide) (by decide)

/-- A block of one page is used up: the header of the rest is written behind the
usable region. -/
theorem exists_not_writesInside :
    ∃ (s s' : FrameMachine HashTable) (bs : List Addr) (frame : Word)
        (live usable : Set Addr),
      BlockList s.mem s.globals.head bs ∧
      bs.Pairwise (fun p q =>
        Disjoint (blockRegion s.mem p) (blockRegion s.mem q)) ∧
      s.globals.freeBlock ∈ bs ∧ freeBytes s.mem bs ⊆ usable ∧
      Disjoint (freeBytes s.mem bs) live ∧
      (allocateFrame addressSizeTable bs.length 0x1000).run s =
        .ok frame s' ∧
      ¬ WritesInside
        (storedBytes (allocationStores s.mem bs.length
          (roundUpToPageBoundary 0x1000) s.globals.freeBlock s.globals.head))
        (region (frame + s.globals.globalBootInfo.memory.hhdmOffset)
          (roundUpToPageBoundary 0x1000).toNat)
        (freeBytes s.mem bs) live usable := by
  obtain ⟨hlist, hsize⟩ := blockList_linkedBlocks
    (show ∀ b ∈ [((0xffff800000100000 : Addr), (0x1000 : Word))], b.1 ≠ 0 by
      simp) (by simp)
  have hfit : fitSearch (linkedBlocks [(0xffff800000100000, 0x1000)])
      (roundUpToPageBoundary 0x1000) 1 0xffff800000100000 =
        some 0xffff800000100000 := by
    decide +kernel
  have hrun := run_allocateFrame addressSizeTable
    (s := linkedMachine [(0xffff800000100000, 0x1000)] 0x1000) (by decide)
    (by decide) hfit
  rw [if_neg (by decide), run_takeBlock] at hrun
  refine ⟨linkedMachine [(0xffff800000100000, 0x1000)] 0x1000, _,
    [0xffff800000100000], _, ∅,
    freeBytes (linkedBlocks [(0xffff800000100000, 0x1000)])
      [0xffff800000100000], hlist, by simp, List.mem_singleton.2 rfl,
    subset_rfl, Set.disjoint_empty _, hrun, fun h => ?_⟩
  have hstored := storedBytes_allocationStores (by decide)
    (blockTaken_of_fitSearch hfit (by decide) 0xffff800000100000)
  have hheader : 0xffff800000101000 ∈
      headerBytes (0xffff800000100000 + roundUpToPageBoundary 0x1000) :=
    Or.inl (by
      rw [Layout.fieldRegion, mem_region]
      decide)
  obtain ⟨c, hc, hin⟩ := (h _ (hstored.ge (Or.inr hheader))).2.2
  rw [List.mem_singleton.1 hc, blockRegion, mem_region] at hin
  exact absurd (hin.trans_eq (hsize (0xffff800000100000, 0x1000) (by simp)))
    (by decide)

end OptimistOS
