import OptimistOS.Paging.KernelFrames
import OptimistOS.Paging.Levels
import OptimistOS.Paging.Pages

/-!
# Runs of `map`

The address space that a list of `map` calls is meant to build sends a virtual
address to where the last call that covers it says (`mappedTo`). Started on a
blank top level table, the calls build exactly that space, provided every 2 MB
region is used with one page size only (`translate_mapAll`). `ViewsCalls` is the
invariant between the calls.
-/

namespace OptimistOS

open ByteMemory ByteMemory.Code RadixTree

/-- A well-formed call of `map`, for a 4 KB page or a 2 MB page. -/
structure PageMapping where
  large : Bool
  physicalAddr : Word
  virtualAddr : Word
  flags : Word
  canonical : Canonical virtualAddr
  physical_aligned : physicalAddr.toNat % 2 ^ (if large then 21 else 12) = 0
  virtual_aligned : virtualAddr.toNat % 2 ^ (if large then 21 else 12) = 0
  physical_lt : physicalAddr.toNat < 2 ^ 52
  present : flags.getLsbD 0 = true
  flags_mask : flags &&& addressMask = 0
  largerPages : flags.getLsbD 7 = large

namespace PageMapping

def bits (c : PageMapping) : ℕ := if c.large then 21 else 12

/-- The page of the call covers `v`. -/
def Covers (c : PageMapping) (v : Word) : Prop :=
  v ∈ region c.virtualAddr (2 ^ c.bits)

instance (c : PageMapping) (v : Word) : Decidable (c.Covers v) :=
  inferInstanceAs (Decidable ((v - c.virtualAddr).toNat < 2 ^ c.bits))

theorem bits_cases (c : PageMapping) : 12 ≤ c.bits ∧ c.bits ≤ 21 := by
  rw [bits]
  split_ifs <;> decide

theorem covers_iff (c : PageMapping) {v : Word} :
    c.Covers v ↔ SamePage c.bits v c.virtualAddr :=
  mem_region_iff_samePage (by have := c.bits_cases; omega) c.virtual_aligned

theorem covers_self (c : PageMapping) : c.Covers c.virtualAddr :=
  c.covers_iff.2 fun _ _ => rfl

theorem Covers.canonical {c : PageMapping} {v : Word} (h : c.Covers v) :
    Canonical v :=
  c.canonical.of_samePage (by have := c.bits_cases; omega) (c.covers_iff.1 h)

/-- What a walk sees of the page: the entry that `map` has written and the
index that a 2 MB page leaves over. -/
def IsView (c : PageMapping)
    (x : Option (PageDirectoryEntry × List (BitVec 9))) : Prop :=
  ∃ e r, x = some (pageEntry e c.physicalAddr c.flags, r) ∧
    r.length = if c.large then 1 else 0

theorem pageOf_of_isView {c : PageMapping}
    {x : Option (PageDirectoryEntry × List (BitVec 9))} {v : Word}
    (h : c.IsView x) (hv : c.Covers v) :
    pageOf v x = some (c.physicalAddr + (v - c.virtualAddr)) := by
  obtain ⟨e, r, rfl, hr⟩ := h
  have hpresent : isPresent (pageEntry e c.physicalAddr c.flags) = true := by
    rw [isPresent, getLsbD_pageEntry e c.flags_mask, if_neg (by omega),
      c.present, Bool.or_true]
  have hbits := c.bits_cases
  have htranslate := pageTranslate_pageEntry hbits.1 (by omega) e c.flags_mask
    c.physical_aligned c.physical_lt c.virtual_aligned (c.covers_iff.1 hv)
  rw [bits] at htranslate
  cases hlarge : c.large
  · rw [hlarge] at hr htranslate
    obtain rfl := List.eq_nil_of_length_eq_zero hr
    simpa [pageOf, hpresent] using htranslate
  · rw [hlarge] at hr htranslate
    obtain ⟨i, rfl⟩ := List.length_eq_one_iff.1 hr
    simpa [pageOf, hpresent] using htranslate

end PageMapping

def lastCovering (calls : List PageMapping) (v : Word) : Option PageMapping :=
  (calls.filter fun c => decide (c.Covers v)).getLast?

def mappedTo (calls : List PageMapping) (v : Word) : Option Word :=
  (lastCovering calls v).map fun c => c.physicalAddr + (v - c.virtualAddr)

theorem lastCovering_snoc (calls : List PageMapping) (c : PageMapping)
    (v : Word) :
    lastCovering (calls ++ [c]) v =
      if c.Covers v then some c else lastCovering calls v := by
  rw [lastCovering, List.filter_append, List.filter_singleton]
  split_ifs with h
  · rw [decide_eq_true h, cond_true, List.getLast?_concat]
  · rw [decide_eq_false h, cond_false, List.append_nil, lastCovering]

theorem mem_of_lastCovering {calls : List PageMapping} {v : Word}
    {c : PageMapping} (h : lastCovering calls v = some c) :
    c ∈ calls ∧ c.Covers v := by
  have hmem := List.mem_of_getLast? h
  rw [List.mem_filter, decide_eq_true_iff] at hmem
  exact hmem

/-- Every 2 MB region is used with one page size. -/
def OnePageSize (calls : List PageMapping) : Prop :=
  ∀ c ∈ calls, ∀ d ∈ calls,
    c.virtualAddr.toNat / 2 ^ 21 = d.virtualAddr.toNat / 2 ^ 21 →
      c.large = d.large

def mapAll {α : Type} (A : FrameAllocator α) :
    List PageMapping → Code 64 (PagingGlobals α) (List Bool)
  | [] => pure []
  | c :: calls => do
      let b ← map A c.physicalAddr c.virtualAddr c.flags
      let bs ← mapAll A calls
      return b :: bs

def ViewsCalls (hhdmOffset root : Word) (m : Bytes)
    (calls : List PageMapping) : Prop :=
  ∀ v, Canonical v →
    match lastCovering calls v with
    | none => pageView hhdmOffset root m (levelIndices v) = none
    | some c => c.IsView (pageView hhdmOffset root m (levelIndices v))

/-- The translation of every address when the walks see the pages of the
calls. -/
theorem translate_of_viewsCalls {hhdmOffset root : Word} {m : Bytes}
    {calls : List PageMapping} (h : ViewsCalls hhdmOffset root m calls)
    (v : Word) : translate m hhdmOffset root v = mappedTo calls v := by
  rw [translate_eq_pageOf_pageView, mappedTo]
  cases hc : lastCovering calls v with
  | none =>
      by_cases hv : Canonical v
      · have hview := h v hv
        rw [hc] at hview
        rw [if_pos hv, hview]
        rfl
      · rw [if_neg hv]
        rfl
  | some c =>
      have hcover := (mem_of_lastCovering hc).2
      have hview := h v hcover.canonical
      rw [hc] at hview
      rw [if_pos hcover.canonical, c.pageOf_of_isView hview hcover]
      rfl

theorem viewsCalls_snoc {hhdmOffset root : Word} {m m' : Bytes}
    {calls : List PageMapping} {c : PageMapping}
    (h : ViewsCalls hhdmOffset root m calls)
    (hnew : ∀ v, c.Covers v →
      c.IsView (pageView hhdmOffset root m' (levelIndices v)))
    (hold : ∀ v, Canonical v → ¬ c.Covers v →
      pageView hhdmOffset root m' (levelIndices v) =
        pageView hhdmOffset root m (levelIndices v)) :
    ViewsCalls hhdmOffset root m' (calls ++ [c]) := by
  intro v hv
  rw [lastCovering_snoc]
  by_cases hc : c.Covers v
  · rw [if_pos hc]
    exact hnew v hc
  · rw [if_neg hc, hold v hv hc]
    exact h v hv

/-- Between the calls: the tables are those of the current top level table, the
allocator has `n` more frames, the walks see the pages of the calls, and the top
level table has entries for the calls only. -/
structure MapsCalls {α : Type} {A : FrameAllocator α} {hhdmOffset : Word}
    (S : FrameSource A hhdmOffset) (root : Word) (n : ℕ)
    (s : Machine 64 (PagingGlobals α)) (calls : List PageMapping) : Prop where
  mapped : ∃ frames owner, Mapped S root n s frames owner
  PML4 : s.globals.PML4 = root
  views : ViewsCalls hhdmOffset root s.mem calls
  top : ∀ i, (∀ c ∈ calls, levelIndex c.virtualAddr 3 ≠ i) →
    tableEntry s.mem hhdmOffset root i = 0

section

variable {α : Type} {A : FrameAllocator α} {hhdmOffset : Word}
  {S : FrameSource A hhdmOffset} {root : Word} {n : ℕ}
  {s : Machine 64 (PagingGlobals α)} {frames : List Word}
  {calls : List PageMapping} {c : PageMapping}

/-- With one page size in every region, no 4 KB page is asked for inside a 2 MB
page. -/
theorem MapsCalls.pageView_ne (h : MapsCalls S root n s calls)
    (hsize : ∀ d ∈ calls,
      c.virtualAddr.toNat / 2 ^ 21 = d.virtualAddr.toNat / 2 ^ 21 →
        c.large = d.large) (hlarge : c.large = false)
    (e : PageDirectoryEntry) (i : BitVec 9) :
    pageView hhdmOffset root s.mem (levelIndices c.virtualAddr) ≠
      some (e, [i]) := by
  intro heq
  have hview := h.views c.virtualAddr c.canonical
  cases hd : lastCovering calls c.virtualAddr with
  | none =>
      rw [hd, heq] at hview
      exact absurd hview (by simp)
  | some d =>
      rw [hd, heq] at hview
      obtain ⟨e', r, hsome, hr⟩ := hview
      obtain ⟨hmem, hcover⟩ := mem_of_lastCovering hd
      have hpage := (d.covers_iff.1 hcover).mono d.bits_cases.2
      have hd' := hsize d hmem (samePage_iff_div.1 hpage)
      rw [← hd', hlarge] at hr
      rw [Option.some.injEq, Prod.mk.injEq] at hsome
      rw [← hsome.2] at hr
      exact absurd hr (by simp)

theorem MapsCalls.top_of_run (h : MapsCalls S root n s calls)
    (hsize : ∀ d ∈ calls,
      c.virtualAddr.toNat / 2 ^ 21 = d.virtualAddr.toNat / 2 ^ 21 →
        c.large = d.large) {b : Bool} {s' : Machine 64 (PagingGlobals α)}
    (hrun : (map A c.physicalAddr c.virtualAddr c.flags).run s = .ok b s') :
    ∀ i, (∀ d ∈ calls ++ [c], levelIndex d.virtualAddr 3 ≠ i) →
      tableEntry s'.mem hhdmOffset root i = 0 := by
  obtain ⟨frames, owner, hmapped⟩ := h.mapped
  have hpage : c.flags &&& PageTableFlag.largerPages = 0 →
      ¬ FindsPage s.mem hhdmOffset root c.virtualAddr := by
    intro hsmall hfinds
    have hbit : c.flags.getLsbD 7 = false := by
      by_contra hbit
      exact (and_one_shiftLeft_ne_zero c.flags (by decide)).2
        (by simpa using hbit) hsmall
    obtain ⟨e, i, hview⟩ := hmapped.pageView_of_findsPage hfinds
    exact h.pageView_ne hsize (c.largerPages.symm.trans hbit) e i hview
  obtain ⟨-, frames', level', -, hgrows⟩ := (returns_map_levels hmapped.leveled
    h.PML4 c.physicalAddr c.virtualAddr hpage).of_run hrun
  intro i hi
  rw [hgrows.top i (Or.inl fun hc => hi c (by simp) hc.symm)]
  exact h.top i fun d hd => hi d (List.mem_append_left _ hd)

/-- One call of `map` after the calls so far. -/
theorem returns_map (h : MapsCalls S root n s calls)
    (hsize : ∀ d ∈ calls,
      c.virtualAddr.toNat / 2 ^ 21 = d.virtualAddr.toNat / 2 ^ 21 →
        c.large = d.large) :
    (map A c.physicalAddr c.virtualAddr c.flags).Returns s (n < 3)
      fun b s' => b = true ∧ SameGlobals s s' ∧
        MapsCalls S root (n - 3) s' (calls ++ [c]) := by
  obtain ⟨frames, owner, hmapped⟩ := h.mapped
  have hflag := c.largerPages
  cases hlarge : c.large
  · have hbits : c.bits = 12 := by rw [PageMapping.bits, hlarge]; rfl
    rcases run_map_small hmapped h.PML4 c.physicalAddr c.virtualAddr c.present
      (hflag.trans hlarge) c.flags_mask (h.pageView_ne hsize hlarge) with
      ⟨s', frames', owner', e, hrun, hmapped', hglobals, hview⟩ | hshort
    · have hroot' : s'.globals.PML4 = root := by rw [hglobals, h.PML4]
      have hiff : ∀ v, Canonical v →
          (levelIndices v = levelIndices c.virtualAddr ↔ c.Covers v) := by
        intro v hv
        rw [samePage_small_iff hv c.canonical, c.covers_iff, hbits]
      refine .of_ok hrun ⟨rfl, hglobals, ⟨frames', owner', hmapped'⟩, hroot',
        viewsCalls_snoc h.views (fun v hv => ⟨e, [], ?_, by rw [hlarge]; rfl⟩)
          (fun v hv hc => ?_), h.top_of_run hsize hrun⟩
      · rw [hview _ rfl, if_pos ((hiff v hv.canonical).2 hv)]
      · rw [hview _ rfl, if_neg (mt (hiff v hv).1 hc)]
    · exact Or.inr hshort
  · have hbits : c.bits = 21 := by rw [PageMapping.bits, hlarge]; rfl
    rcases run_map_large hmapped h.PML4 c.physicalAddr c.virtualAddr c.present
      (hflag.trans hlarge) c.flags_mask with
      ⟨s', frames', owner', e, hrun, hmapped', hglobals, hview⟩ | ⟨hn, hstop⟩
    · have hroot' : s'.globals.PML4 = root := by rw [hglobals, h.PML4]
      have hiff : ∀ v, Canonical v → ([levelIndex c.virtualAddr 3,
          levelIndex c.virtualAddr 2, levelIndex c.virtualAddr 1] <+:
            levelIndices v ↔ c.Covers v) := by
        intro v hv
        rw [samePage_large_iff hv c.canonical, c.covers_iff, hbits]
      refine .of_ok hrun ⟨rfl, hglobals, ⟨frames', owner',
        S.mono _ _ _ _ hmapped'.ready (by omega), hmapped'.tables⟩, hroot',
        viewsCalls_snoc h.views (fun v hv => ⟨e, [levelIndex v 0], ?_,
          by rw [hlarge]; rfl⟩) (fun v hv hc => ?_), h.top_of_run hsize hrun⟩
      · rw [hview _ rfl, if_pos ((hiff v hv.canonical).2 hv)]
        rfl
      · rw [hview _ rfl, if_neg (mt (hiff v hv).1 hc)]
    · exact Or.inr ⟨by omega, hstop⟩

theorem run_mapAll (rest : List PageMapping) {done : List PageMapping}
    (h : MapsCalls S root (3 * rest.length) s done)
    (hsize : OnePageSize (done ++ rest)) :
    ∃ s', (mapAll A rest).run s =
        .ok (List.replicate rest.length true) s' ∧
      ViewsCalls hhdmOffset root s'.mem (done ++ rest) := by
  induction rest generalizing s done with
  | nil => exact ⟨s, rfl, by simpa only [List.append_nil] using h.views⟩
  | cons c rest ih =>
      have hc : c ∈ done ++ c :: rest := by simp
      have hlen : 3 * (c :: rest).length = 3 * rest.length + 3 := by
        rw [List.length_cons, Nat.mul_add]
      rw [hlen] at h
      obtain ⟨b, s₁, hrun, rfl, -, hmaps⟩ := (returns_map (c := c) h fun d hd =>
        hsize c hc d (List.mem_append_left _ hd)).exists_run (by omega)
      have happ : done ++ [c] ++ rest = done ++ c :: rest := by
        rw [List.append_assoc, List.singleton_append]
      obtain ⟨s₂, hrun₂, hviews₂⟩ := ih hmaps (by rwa [happ])
      refine ⟨s₂, ?_, by rwa [happ] at hviews₂⟩
      rw [mapAll, run_bind_of_ok hrun, run_bind_of_ok hrun₂]
      rfl

theorem mapsCalls_nil (hready : S.Ready n ⟨s.mem, s.globals.frames⟩ frames)
    (hroot : s.globals.PML4 ∈ frames)
    (hzero : ∀ x ∈ region (s.globals.PML4 + hhdmOffset) 4096, s.mem x = 0) :
    MapsCalls S s.globals.PML4 n s [] := by
  have hblank := tableEntry_of_zero hzero
  refine ⟨⟨frames, _, hready,
    Tables.of_blank (S.frame _ _ _ hready) hroot hzero⟩, rfl, fun v _ => ?_,
    fun i _ => hblank i⟩
  simp only [lastCovering, List.filter_nil, List.getLast?_nil]
  rw [pageView, levelIndices, resolve_of_child_eq_none (by rw [hblank]; rfl),
    hblank]
  rfl

end

/-- Calls of `map` on a blank top level table all succeed, and the processor
then translates every address as the last call that covers it says. -/
theorem translate_mapAll {α : Type} {A : FrameAllocator α} {hhdmOffset : Word}
    (S : FrameSource A hhdmOffset) {calls : List PageMapping}
    {s : Machine 64 (PagingGlobals α)} {frames : List Word}
    (hready : S.Ready (3 * calls.length) ⟨s.mem, s.globals.frames⟩ frames)
    (hroot : s.globals.PML4 ∈ frames)
    (hzero : ∀ x ∈ region (s.globals.PML4 + hhdmOffset) 4096, s.mem x = 0)
    (hsize : OnePageSize calls) :
    ∃ s', (mapAll A calls).run s =
        .ok (List.replicate calls.length true) s' ∧
      ∀ v, translate s'.mem hhdmOffset s.globals.PML4 v = mappedTo calls v := by
  obtain ⟨s', hrun, hviews⟩ := run_mapAll calls
    (mapsCalls_nil hready hroot hzero) (by simpa using hsize)
  rw [List.nil_append] at hviews
  exact ⟨s', hrun, translate_of_viewsCalls hviews⟩

/-- A 4 KB page in the upper half. -/
def samplePage : PageMapping where
  large := false
  physicalAddr := 0x200000
  virtualAddr := 0xffff900000001000
  flags := 3
  canonical := by decide
  physical_aligned := by decide
  virtual_aligned := by decide
  physical_lt := by decide
  present := by decide
  flags_mask := by decide
  largerPages := by decide

/-- The kernel's allocator has handed out a blank top level table from
`smallRegion`. -/
theorem exists_blankTable :
    ∃ s : Machine 64 (PagingGlobals (FrameGlobals HashTable)),
      (kernelSource addressSizeTable 0 smallRegion (by decide)).Ready 15
        ⟨s.mem, s.globals.frames⟩ [s.globals.PML4] ∧
      ∀ x ∈ region (s.globals.PML4 + smallRegion.hhdmOffset) 4096,
        s.mem x = 0 := by
  obtain ⟨t, -, hg⟩ := allocateFrame_first smallRegion (fun _ => 0)
    HashTable.zero addressSizeTable 0 0x1000 (by decide)
  refine ⟨⟨t.mem, ⟨smallRegion.start, smallRegion.start, smallRegion.hhdmOffset,
    t.globals⟩⟩, ⟨fun _ => 0, HashTable.zero, 4096, Or.inr hg.state, by decide,
      by decide, fun f hf => ⟨0, ?_, by decide, by decide⟩⟩, fun x hx => ?_⟩
  · rw [List.mem_singleton.1 hf]
    change smallRegion.start = _
    decide
  · refine hg.zero x ?_
    rw [smallRegion.addr_zero]
    exact hx

def movedPage : PageMapping :=
  { samplePage with
    physicalAddr := 0x300000
    physical_aligned := by decide
    physical_lt := by decide }

def wholeRegionPage : PageMapping where
  large := true
  physicalAddr := 0x400000
  virtualAddr := 0xffff900000200000
  flags := 0x83
  canonical := by decide
  physical_aligned := by decide
  virtual_aligned := by decide
  physical_lt := by decide
  present := by decide
  flags_mask := by decide
  largerPages := by decide

/-- A page is mapped, then one of 2 MB, and then the first one again. -/
theorem translate_mapAll_smallRegion :
    ∃ s s' : Machine 64 (PagingGlobals (FrameGlobals HashTable)),
      (mapAll (kernelAllocator addressSizeTable 0)
          [samplePage, wholeRegionPage, movedPage]).run s =
        .ok [true, true, true] s' ∧
      (∀ v, translate s'.mem smallRegion.hhdmOffset s.globals.PML4 v =
        mappedTo [samplePage, wholeRegionPage, movedPage] v) ∧
      mappedTo [samplePage, wholeRegionPage, movedPage]
        samplePage.virtualAddr = some movedPage.physicalAddr := by
  obtain ⟨s, hready, hzero⟩ := exists_blankTable
  have hsize : OnePageSize [samplePage, wholeRegionPage, movedPage] := by
    unfold OnePageSize
    decide
  obtain ⟨s', hrun, htranslate⟩ := translate_mapAll _
    (FrameSource.mono _ 15
      (3 * [samplePage, wholeRegionPage, movedPage].length) _ _ hready
      (by decide)) (List.mem_singleton_self _) hzero hsize
  exact ⟨s, s', hrun, htranslate, by decide⟩

end OptimistOS
