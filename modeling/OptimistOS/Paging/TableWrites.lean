import OptimistOS.Foundation.Run
import OptimistOS.Paging.AllocationLog
import OptimistOS.Paging.CodeTrees
import OptimistOS.Paging.KernelFrames

/-!
# What a call of `map` writes to

Runs of `map` on a blank top level table, with 2 MB and 4 KB pages in any mix.
The walk takes every valid entry for a pointer to a table. So a 4 KB call in a
region that was last mapped as a 2 MB page writes into that page
(`exists_not_writesTables`); in a run without such calls, everything that a call
writes lies in tables (`writesTables_of_avoidsLeaves`).
-/

namespace OptimistOS

open ByteMemory ByteMemory.Code RadixTree PageDirectoryEntry Transition

structure MapCall where
  physicalAddr : Word
  virtualAddr : Word
  flags : Word

/-- A 2 MB page is asked for. -/
def MapCall.large (c : MapCall) : Bool := c.flags.getLsbD 7

def LastLarge (calls : List MapCall) (q : List (BitVec 9)) : Prop :=
  ∃ c, (calls.filter fun c => decide (regionPath c.virtualAddr = q)).getLast? =
    some c ∧ c.large = true

theorem lastLarge_snoc_self (calls : List MapCall) (c : MapCall) :
    LastLarge (calls ++ [c]) (regionPath c.virtualAddr) ↔ c.large = true := by
  rw [LastLarge, List.filter_append, List.filter_singleton,
    decide_eq_true rfl, cond_true, List.getLast?_concat]
  simp

theorem lastLarge_snoc_of_ne (calls : List MapCall) {c : MapCall}
    {q : List (BitVec 9)} (h : q ≠ regionPath c.virtualAddr) :
    LastLarge (calls ++ [c]) q ↔ LastLarge calls q := by
  rw [LastLarge, List.filter_append, List.filter_singleton,
    decide_eq_false fun hc => h hc.symm, cond_false, List.append_nil, LastLarge]

/-- A machine with its allocator's log, and the calls of `map` so far. -/
structure MapHistory (α : Type) where
  machine : Machine 64 (PagingGlobals (α × AllocationLog))
  calls : List MapCall

def MapHistory.tables {α : Type} (h : MapHistory α) : List Word :=
  h.machine.globals.frames.2.frames

def MapHistory.start {α : Type} (h : MapHistory α) :
    Machine 64 (PagingGlobals (α × AllocationLog)) :=
  ⟨h.machine.mem, { h.machine.globals with
    frames := (h.machine.globals.frames.1, { frames := h.tables,
                                             changed := ∅ }) }⟩

/-- A call that returns. -/
def MapStep {α : Type} (A : FrameAllocator α) (h : MapHistory α) (c : MapCall)
    (h' : MapHistory α) : Prop :=
  ∃ b t, (map A.logged c.physicalAddr c.virtualAddr c.flags).run h.start =
    .ok b t ∧ h' = ⟨t, h.calls ++ [c]⟩

/-- A 4 KB call does not arrive at a valid entry that was last written for a 2 MB
page. -/
def AvoidsLeaves {α : Type} (hhdmOffset : Word) (h : MapHistory α)
    (c : MapCall) : Prop :=
  c.large = false → ¬ FollowsLeaf hhdmOffset h.machine.globals.PML4
    (LastLarge h.calls) h.machine.mem c.virtualAddr

/-- What the call from `h` to `h'` has changed, but for the allocator's own
writes, lies in the top level table or in frames that `map` has allocated, and
the frames in `handedOut`, which others use, are as they were. -/
structure WritesTables {α : Type} (hhdmOffset : Word) (handedOut : List Word)
    (h h' : MapHistory α) : Prop where
  tables : ∀ x, h'.machine.mem x ≠ h.machine.mem x →
    x ∈ frameBytes hhdmOffset (h'.tables ++ [h.machine.globals.PML4]) ∨
      x ∈ h'.machine.globals.frames.2.changed
  handedOut : ∀ x ∈ frameBytes hhdmOffset handedOut,
    h'.machine.mem x = h.machine.mem x

/-- The start of a run: the top level table is blank, and the allocator has
handed it out, as well as the frames in `handedOut`. -/
structure StartsTables {α : Type} {A : FrameAllocator α} {hhdmOffset : Word}
    (S : FrameSource A hhdmOffset) (handedOut : List Word) (n : ℕ)
    (s : Machine 64 (PagingGlobals (α × AllocationLog))) : Prop where
  ready : ∃ base, S.Ready n ⟨s.mem, s.globals.frames.1⟩ base ∧
    s.globals.PML4 ∈ base ∧ handedOut ⊆ base
  blank : ∀ x ∈ region (s.globals.PML4 + hhdmOffset) 4096, s.mem x = 0
  frames : s.globals.frames.2.frames = []
  notMem : s.globals.PML4 ∉ handedOut

section

variable {α : Type} {A : FrameAllocator α} {hhdmOffset : Word}
  {S : FrameSource A hhdmOffset} {handedOut : List Word} {h h' : MapHistory α}
  {c : MapCall} {n : ℕ} {owner : Word → Option (List (BitVec 9))}

/-- The invariant of the runs that avoid leaves. -/
structure TablesApart (S : FrameSource A hhdmOffset) (handedOut : List Word)
    (h : MapHistory α) (n : ℕ)
    (owner : Word → Option (List (BitVec 9))) : Prop where
  ready : ∃ base, S.Ready n ⟨h.machine.mem, h.machine.globals.frames.1⟩ base ∧
    h.tables ++ [h.machine.globals.PML4] ⊆ base ∧ handedOut ⊆ base
  notMem : ∀ d ∈ handedOut, d ∉ h.tables ++ [h.machine.globals.PML4]
  tree : CodeTree hhdmOffset h.machine.globals.PML4 (LastLarge h.calls)
    h.machine.mem (h.tables ++ [h.machine.globals.PML4]) owner

theorem StartsTables.tablesApart
    {s : Machine 64 (PagingGlobals (α × AllocationLog))}
    (hs : StartsTables S handedOut n s) :
    ∃ owner, TablesApart S handedOut ⟨s, []⟩ n owner := by
  obtain ⟨base, hready, hroot, hhanded⟩ := hs.ready
  have hframes : (⟨s, []⟩ : MapHistory α).tables ++ [s.globals.PML4] =
      [s.globals.PML4] := by
    rw [MapHistory.tables, hs.frames, List.nil_append]
  have hframe : ∀ f ∈ [s.globals.PML4], IsTableFrame hhdmOffset f := by
    intro f hf
    rw [List.mem_singleton.1 hf]
    exact S.frame _ _ _ hready _ hroot
  have hblank := tableEntry_of_zero hs.blank
  have htree : CodeTree hhdmOffset s.globals.PML4 (LastLarge []) s.mem
      [s.globals.PML4] _ :=
    .of_blank hframe (List.mem_singleton_self _) hblank
  refine ⟨_, ⟨base, hready, ?_, hhanded⟩, ?_, hframes.symm ▸ htree⟩
  · rw [hframes]
    simpa using hroot
  · rw [hframes]
    rintro d hd hmem
    rw [List.mem_singleton.1 hmem] at hd
    exact hs.notMem hd

/-- One call. After a call for a 2 MB page the entry for it is known. -/
theorem TablesApart.returns_map
    (hi : TablesApart S handedOut h n owner)
    (hguard : AvoidsLeaves hhdmOffset h c) :
    (map A.logged c.physicalAddr c.virtualAddr c.flags).Returns h.start (n < 3)
      fun _ t => WritesTables hhdmOffset handedOut h ⟨t, h.calls ++ [c]⟩ ∧
        t.globals.PML4 = h.machine.globals.PML4 ∧
        ∃ owner', TablesApart S handedOut ⟨t, h.calls ++ [c]⟩ (n - 3) owner' ∧
          (c.large = true → ∃ t₁ e, owner' t₁ = some
            [levelIndex c.virtualAddr 3, levelIndex c.virtualAddr 2] ∧
            tableEntry t.mem hhdmOffset t₁ (levelIndex c.virtualAddr 1) =
              pageEntry e c.physicalAddr c.flags) := by
  obtain ⟨root, hroot⟩ : ∃ root, h.machine.globals.PML4 = root := ⟨_, rfl⟩
  have hready : (S.logged root h.machine.mem handedOut).Ready n
      ⟨h.start.mem, h.start.globals.frames⟩ (h.tables ++ [root]) := by
    refine ⟨rfl, AgreeOff.refl _ _, ?_, ?_, fun x _ => rfl⟩
    · exact hroot ▸ hi.ready
    · exact hroot ▸ hi.notMem
  let s₀ : Machine 64 (α × AllocationLog) :=
    ⟨h.start.mem, h.start.globals.frames⟩
  have htree : CodeTree hhdmOffset root (LastLarge h.calls) s₀.mem
      (h.tables ++ [root]) owner := hroot ▸ hi.tree
  have hfollows : c.flags.getLsbD 7 = false → ¬ FollowsLeaf hhdmOffset root
      (LastLarge h.calls) s₀.mem c.virtualAddr := hroot ▸ hguard
  refine (returns_map_walk hready hroot c.physicalAddr
    (htree.canWalk hfollows)).mono id ?_
  rintro b t ⟨t₀, i, frames', s₁, -, -, hglobals, hready', hwalk, -, hmem⟩
  obtain ⟨owner', htree', -, hlarge⟩ := htree.mapPage hfollows hwalk
    (lastLarge_snoc_self h.calls c)
    (fun q hq => lastLarge_snoc_of_ne h.calls hq) c.physicalAddr c.flags
  have hPML4 : t.globals.PML4 = root := by
    rw [hglobals]
    exact hroot
  have hframes' : frames' = t.globals.frames.2.frames ++ [root] :=
    hready'.frames_eq
  rw [← hmem] at htree'
  refine ⟨⟨fun x hx => ?_, hready'.data_eq⟩, hPML4.trans hroot.symm, owner',
    ⟨?_, ?_, ?_⟩, fun hc => ?_⟩
  · change x ∈ frameBytes hhdmOffset (t.globals.frames.2.frames ++
      [h.machine.globals.PML4]) ∪ t.globals.frames.2.changed
    rw [hroot, ← hframes']
    by_contra hnot
    exact hx (hready'.agreeOff x hnot).symm
  · change ∃ base, _ ∧ t.globals.frames.2.frames ++ [t.globals.PML4] ⊆ base ∧ _
    rw [hPML4, ← hframes']
    exact hready'.ready
  · change ∀ d ∈ handedOut, d ∉ t.globals.frames.2.frames ++ [t.globals.PML4]
    rw [hPML4, ← hframes']
    exact hready'.notMem
  · change CodeTree hhdmOffset t.globals.PML4 _ t.mem
      (t.globals.frames.2.frames ++ [t.globals.PML4]) owner'
    rw [hPML4, ← hframes']
    exact htree'
  · obtain ⟨howner, rfl⟩ := hlarge hc
    refine ⟨t₀, word s₁.mem (tableSlot hhdmOffset t₀ (levelIndex c.virtualAddr
      1)), howner, ?_⟩
    rw [hmem]
    exact word_writePage _ _ _ _

theorem TablesApart.step
    (hi : TablesApart S handedOut h n owner)
    (hstep : Guarded (AvoidsLeaves hhdmOffset) (MapStep A) h c h') :
    (∃ n owner, TablesApart S handedOut h' n owner) ∧
      WritesTables hhdmOffset handedOut h h' := by
  obtain ⟨hguard, b, t, hrun, rfl⟩ := hstep
  obtain ⟨hwrites, -, owner', hi', -⟩ := (hi.returns_map hguard).of_run hrun
  exact ⟨⟨_, owner', hi'⟩, hwrites⟩

/-- In a run whose 4 KB calls never arrive at a 2 MB page, every call writes to
tables only. -/
theorem writesTables_of_avoidsLeaves
    {s : Machine 64 (PagingGlobals (α × AllocationLog))}
    (hs : StartsTables S handedOut n s) {cs : List MapCall}
    (hrun : Run (Guarded (AvoidsLeaves hhdmOffset) (MapStep A)) ⟨s, []⟩ cs h)
    (hstep : Guarded (AvoidsLeaves hhdmOffset) (MapStep A) h c h') :
    WritesTables hhdmOffset handedOut h h' := by
  obtain ⟨n, owner, hi⟩ := hrun.invariant
    (fun h => ∃ n owner, TablesApart S handedOut h n owner) ⟨n, hs.tablesApart⟩
    fun _ _ _ ⟨_, _, hi⟩ hstep => (hi.step hstep).1
  exact (hi.step hstep).2

end

def wideRegion : UsableRegion where
  start := 0x200000
  length := 0x400000
  hhdmOffset := 0xffff800000000000
  start_ne := by decide
  start_aligned := by decide
  length_aligned := by decide
  physical := by decide
  base_ne := by decide
  window := by decide

/-- The kernel's allocator has handed out a page of 2 MB, the first one of
`wideRegion`, and then a top level table. -/
theorem exists_startsTables :
    ∃ s, StartsTables (kernelSource addressSizeTable 0 wideRegion (by decide))
        [wideRegion.start] 511 s ∧
      ∀ i, tableEntry s.mem wideRegion.hhdmOffset wideRegion.start i = 0 := by
  let S := kernelSource addressSizeTable 0 wideRegion (by decide)
  obtain ⟨t, -, hg⟩ := allocateFrame_first wideRegion (fun _ => 0)
    HashTable.zero addressSizeTable 0 0x200000 (by decide)
  have hready : S.Ready 512 t [wideRegion.start] := by
    refine ⟨fun _ => 0, HashTable.zero, 0x200000, Or.inr hg.state, by decide,
      by decide, fun f hf => ⟨0, ?_, by decide, by decide⟩⟩
    rw [List.mem_singleton.1 hf]
    decide
  have hzero : ∀ x ∈ region (wideRegion.start + wideRegion.hhdmOffset) 4096,
      t.mem x = 0 := by
    intro x hx
    refine hg.zero x ?_
    rw [wideRegion.addr_zero]
    exact region_mono _ (by decide) hx
  rcases S.allocateFrame 512 t _ hready with
    ⟨f, s₁, -, hfresh, hready₁⟩ | ⟨hn, -⟩
  · refine ⟨⟨s₁.mem, ⟨f, f, wideRegion.hhdmOffset, (s₁.globals, ⟨[], ∅⟩)⟩⟩,
      ⟨⟨_, hready₁, List.mem_cons_self, by simp⟩, hfresh.zero, rfl,
        hfresh.notMem⟩, fun i => ?_⟩
    rw [tableEntry_congr hfresh.kept (List.mem_singleton_self _)]
    exact tableEntry_of_zero hzero i
  · exact absurd hn (by decide)

def dataPage : MapCall where
  physicalAddr := 0x200000
  virtualAddr := 0xffff900000000000
  flags := 0x83

/-- A 4 KB page in the same region. -/
def pageInData : MapCall where
  physicalAddr := 0x600000
  virtualAddr := 0xffff900000000000
  flags := 3

theorem exists_not_writesTables :
    ∃ s h h', StartsTables (kernelSource addressSizeTable 0 wideRegion
          (by decide)) [wideRegion.start] 511 s ∧
      Run (MapStep (kernelAllocator addressSizeTable 0)) ⟨s, []⟩ [dataPage] h ∧
      MapStep (kernelAllocator addressSizeTable 0) h pageInData h' ∧
      ¬ WritesTables wideRegion.hhdmOffset [wideRegion.start] h h' := by
  obtain ⟨s, hs, hzero⟩ := exists_startsTables
  obtain ⟨owner, hi⟩ := hs.tablesApart
  obtain ⟨b, t, hrun, hwrites, -, owner', hi', hlarge⟩ := (hi.returns_map
    (c := dataPage) fun hc => absurd hc (by decide)).exists_run (by omega)
  obtain ⟨t₁, e, howner₁, hentry⟩ := hlarge (by decide)
  have htree := hi'.tree
  -- the entries on the way to the data page
  have hchild₁ : codeChild (tableEntry t.mem wideRegion.hhdmOffset t₁
      (levelIndex pageInData.virtualAddr 1)) = some wideRegion.start := by
    change tableEntry t.mem _ t₁ (levelIndex pageInData.virtualAddr 1) = _
      at hentry
    have haddress : pageEntry e dataPage.physicalAddr dataPage.flags &&&
        addressMask = wideRegion.start := by
      rw [pageEntry_and_addressMask e (by decide)]
      decide
    rw [hentry, codeChild_eq_some_iff, isValid_iff, getAddress_eq, haddress,
      getLsbD_pageEntry e (by decide), if_neg (by decide)]
    refine ⟨⟨?_, by decide⟩, rfl⟩
    rw [show dataPage.flags.getLsbD 0 = true by decide, Bool.or_true]
  have hreach := htree.reach t₁ _ howner₁ (by simp)
  obtain ⟨t₂, hchild₃, hchild₂⟩ : ∃ t₂,
      codeChild (tableEntry t.mem wideRegion.hhdmOffset t.globals.PML4
        (levelIndex pageInData.virtualAddr 3)) = some t₂ ∧
      codeChild (tableEntry t.mem wideRegion.hhdmOffset t₂
        (levelIndex pageInData.virtualAddr 2)) = some t₁ := by
    rw [follow, Option.bind_eq_some_iff] at hreach
    obtain ⟨t₂, h₃, hrest⟩ := hreach
    rw [follow, Option.bind_eq_some_iff] at hrest
    obtain ⟨u, h₂, hu⟩ := hrest
    exact ⟨t₂, h₃, Option.some.inj hu ▸ h₂⟩
  have howner₂ := htree.unshared.child _ _ _ _ htree.unshared.root (by simp)
    hchild₃
  obtain ⟨base, hready, hsub, hdata⟩ := hi'.ready
  have hmem : [t.globals.PML4, t₂, t₁, wideRegion.start] ⊆ base := by
    simp only [List.cons_subset, List.nil_subset, and_true]
    exact ⟨hsub (htree.owned _ _ htree.unshared.root),
      hsub (htree.owned _ _ howner₂), hsub (htree.owned _ _ howner₁),
      hdata (List.mem_singleton_self _)⟩
  let h : MapHistory (FrameGlobals HashTable) := ⟨t, [dataPage]⟩
  obtain ⟨b', u, hrun', hu⟩ := (returns_map_of_children (s := eraseLog h.start)
    hready rfl pageInData.physicalAddr (show pageInData.flags.getLsbD 7 = false
      by decide) hchild₃ hchild₂ hchild₁ hmem).exists_run (by omega)
  obtain ⟨u', hrunLog, rfl⟩ := (run_map_eraseLog _ _ _ _).1 hrun'
  have hstep : MapStep (kernelAllocator addressSizeTable 0) ⟨s, []⟩ dataPage h :=
    ⟨b, t, hrun, rfl⟩
  refine ⟨s, h, ⟨u', [dataPage, pageInData]⟩, hs, .single hstep,
    ⟨b', u', hrunLog, rfl⟩, fun hbad => ?_⟩
  -- the page of the data has changed
  have hdataPage : wideRegion.start ∈ [wideRegion.start] :=
    List.mem_singleton_self _
  have hold := tableEntry_congr hwrites.handedOut hdataPage
    (levelIndex pageInData.virtualAddr 0)
  have hkept := tableEntry_congr hbad.handedOut hdataPage
    (levelIndex pageInData.virtualAddr 0)
  have hnew : tableEntry u'.mem wideRegion.hhdmOffset wideRegion.start
      (levelIndex pageInData.virtualAddr 0) = pageEntry 0
        pageInData.physicalAddr pageInData.flags := by
    rw [← hzero (levelIndex pageInData.virtualAddr 0), ← hold]
    change u'.mem = _ at hu
    rw [hu]
    exact word_writePage _ _ _ _
  change tableEntry u'.mem _ _ _ = tableEntry t.mem _ _ _ at hkept
  rw [hnew, hold, hzero] at hkept
  exact absurd hkept (by decide)

def pageBehindData : MapCall where
  physicalAddr := 0x600000
  virtualAddr := 0xffff900000200000
  flags := 3

/-- A 4 KB page in another region than the data page. -/
theorem writesTables_of_avoidsLeaves_pageBehindData :
    ∃ s h h', StartsTables (kernelSource addressSizeTable 0 wideRegion
          (by decide)) [wideRegion.start] 511 s ∧
      Run (MapStep (kernelAllocator addressSizeTable 0)) ⟨s, []⟩ [dataPage] h ∧
      MapStep (kernelAllocator addressSizeTable 0) h pageBehindData h' ∧
      WritesTables wideRegion.hhdmOffset [wideRegion.start] h h' := by
  obtain ⟨s, hs, -⟩ := exists_startsTables
  obtain ⟨owner, hi⟩ := hs.tablesApart
  have hfirst : AvoidsLeaves wideRegion.hhdmOffset ⟨s, []⟩ dataPage :=
    fun hc => absurd hc (by decide)
  obtain ⟨b, t, hrun, -, -, owner', hi', -⟩ :=
    (hi.returns_map hfirst).exists_run (by omega)
  have hsecond : AvoidsLeaves wideRegion.hhdmOffset ⟨t, [dataPage]⟩
      pageBehindData := by
    rintro - ⟨hlast, -⟩
    have hregion : regionPath pageBehindData.virtualAddr ≠
      regionPath dataPage.virtualAddr := by decide
    have hnone := (lastLarge_snoc_of_ne [] hregion).1 hlast
    obtain ⟨c, hc, -⟩ := hnone
    exact absurd hc (by simp)
  obtain ⟨b', t', hrun', -⟩ := (hi'.returns_map hsecond).exists_run (by omega)
  have hstep : MapStep (kernelAllocator addressSizeTable 0) ⟨s, []⟩ dataPage
      ⟨t, [dataPage]⟩ := ⟨b, t, hrun, rfl⟩
  have hstep' : MapStep (kernelAllocator addressSizeTable 0) ⟨t, [dataPage]⟩
      pageBehindData ⟨t', [dataPage, pageBehindData]⟩ := ⟨b', t', hrun', rfl⟩
  exact ⟨s, _, _, hs, .single hstep, hstep',
    writesTables_of_avoidsLeaves hs (.single ⟨hfirst, hstep⟩)
      ⟨hsecond, hstep'⟩⟩

end OptimistOS
