import OptimistOS.Foundation.Run
import OptimistOS.Paging.BootMappings
import OptimistOS.Paging.NewPML4

/-!
# Sharing the upper half

Runs of `map` and `newPML4` on the top level table that `init` has made; the
first calls are those of `initPaging` (`initTables_run`). The top level tables
share the upper half as long as their upper entries agree, and `newPML4` copies
the entries only once. So the sharing ends when a later `map` needs a new entry
(`exists_not_sharesMappings`), and it lasts while every `map` finds the entry
that it needs (`sharesMappings_of_keepsShared`).
-/

namespace OptimistOS

open ByteMemory ByteMemory.Code RadixTree PageDirectoryEntry Transition

inductive PagingCall
  | map (physicalAddr virtualAddr flags : Word)
  | newPML4

/-- The machine with what the run has done so far: the tables that `newPML4` has
returned, and the addresses and flags that `map` was called with. -/
structure PagingHistory (α : Type) where
  machine : Machine 64 (PagingGlobals α)
  copies : List Word
  mapped : List (Word × Word)

def PagingStep {α : Type} (A : FrameAllocator α)
    (toPhysicalAddr : Addr → Code 64 α Word) (h : PagingHistory α) :
    PagingCall → PagingHistory α → Prop
  | .map physicalAddr v flags, h' => ∃ b t,
      (map A physicalAddr v flags).run h.machine = .ok b t ∧
        h' = ⟨t, h.copies, (v, flags) :: h.mapped⟩
  | .newPML4, h' => ∃ p t,
      (newPML4 A toPhysicalAddr).run h.machine = .ok p t ∧
        h' = ⟨t, p :: h.copies, h.mapped⟩

/-- `v` lies in a page that `map` was called for. -/
def PagingHistory.Maps {α : Type} (h : PagingHistory α) (v : Word) : Prop :=
  ∃ c ∈ h.mapped,
    SamePage (if c.2 &&& PageTableFlag.largerPages = 0 then 12 else 21) v c.1

/-- The address belongs to the entries 256 to 511 of the top level table. -/
def IsUpper (v : Word) : Prop := 256 ≤ (levelIndex v 3).toNat

/-- All top level tables translate the mapped addresses of the upper half as the
current one does. -/
def SharesMappings {α : Type} (hhdmOffset : Word) (h : PagingHistory α) : Prop :=
  ∀ v, IsUpper v → h.Maps v →
    ∀ p ∈ h.machine.globals.kernelPML4 :: h.copies,
      translate h.machine.mem hhdmOffset p v =
        translate h.machine.mem hhdmOffset h.machine.globals.PML4 v

/-- A call of `map` for an address of the upper half finds its entry in the top
level table, unless there is no copy of the table yet, and a call for a 4 KB
page does not take a 2 MB page for a table. -/
def KeepsShared {α : Type} (hhdmOffset : Word) (h : PagingHistory α) :
    PagingCall → Prop
  | .map _ v flags =>
      (IsUpper v → h.copies ≠ [] →
        isValid (tableEntry h.machine.mem hhdmOffset h.machine.globals.PML4
          (levelIndex v 3)) = true) ∧
      (flags &&& PageTableFlag.largerPages = 0 →
        ¬ FindsPage h.machine.mem hhdmOffset h.machine.globals.PML4 v)
  | .newPML4 => True

theorem translate_congr_top {m : Bytes} {hhdmOffset p q v : Word}
    (h : tableEntry m hhdmOffset p (levelIndex v 3) =
      tableEntry m hhdmOffset q (levelIndex v 3)) :
    translate m hhdmOffset p v = translate m hhdmOffset q v := by
  rw [translate, translate, h]

section

variable {α : Type} {A : FrameAllocator α} {hhdmOffset : Word}
  {S : FrameSource A hhdmOffset} {toPhysicalAddr : Addr → Code 64 α Word}
  {h h' : PagingHistory α} {c : PagingCall}

/-- The invariant of the runs that keep the upper half shared. -/
structure SharedTables (S : FrameSource A hhdmOffset) (h : PagingHistory α)
    (n : ℕ) (frames : List Word) (level : Word → Option ℕ) : Prop where
  leveled : Leveled S h.machine.globals.PML4 n h.machine frames level
  kernelPML4 : h.machine.globals.kernelPML4 = h.machine.globals.PML4
  mem : ∀ p ∈ h.copies, p ∈ frames ∧ level p = none
  entry : ∀ p ∈ h.copies, ∀ j : BitVec 9, 256 ≤ j.toNat →
    tableEntry h.machine.mem hhdmOffset p j =
      tableEntry h.machine.mem hhdmOffset h.machine.globals.PML4 j

variable {n : ℕ} {frames : List Word} {level : Word → Option ℕ}

theorem SharedTables.sharesMappings (hs : SharedTables S h n frames level) :
    SharesMappings hhdmOffset h := by
  intro v hv _ p hp
  rcases List.mem_cons.1 hp with rfl | hp
  · rw [hs.kernelPML4]
  · exact translate_congr_top (hs.entry p hp _ hv)

/-- A call of `map` that finds its entry. -/
theorem SharedTables.map {physicalAddr v flags : Word} {b : Bool}
    {t : Machine 64 (PagingGlobals α)} (hs : SharedTables S h n frames level)
    (hkeeps : KeepsShared hhdmOffset h (.map physicalAddr v flags))
    (hrun : (OptimistOS.map A physicalAddr v flags).run h.machine =
      .ok b t) :
    ∃ n frames level, SharedTables S ⟨t, h.copies, (v, flags) :: h.mapped⟩ n
      frames level := by
  obtain ⟨hslot, hpage⟩ := hkeeps
  obtain ⟨-, frames', level', hleveled, hgrows⟩ := (returns_map_levels
    hs.leveled rfl physicalAddr v hpage).of_run hrun
  have hPML4 : t.globals.PML4 = h.machine.globals.PML4 := by
    rw [hgrows.globals]
  have hkernel : t.globals.kernelPML4 = h.machine.globals.kernelPML4 := by
    rw [hgrows.globals]
  refine ⟨n - 3, frames', level', hPML4.symm ▸ hleveled, ?_, fun p hp => ?_,
    fun p hp j hj => ?_⟩
  · exact hkernel.trans (hs.kernelPML4.trans hPML4.symm)
  · obtain ⟨hmem, hlevel⟩ := hs.mem p hp
    exact ⟨hgrows.frames_subset hmem, (hgrows.level_eq p hmem).trans hlevel⟩
  · obtain ⟨hmem, hlevel⟩ := hs.mem p hp
    have htop : j ≠ levelIndex v 3 ∨ isValid (tableEntry h.machine.mem
        hhdmOffset h.machine.globals.PML4 j) = true := by
      by_cases hjv : j = levelIndex v 3
      · subst hjv
        exact Or.inr (hslot hj (List.ne_nil_of_mem hp))
      · exact Or.inl hjv
    change tableEntry t.mem hhdmOffset p j =
      tableEntry t.mem hhdmOffset t.globals.PML4 j
    rw [hPML4, hgrows.other p hmem hlevel j, hgrows.top j htop,
      hs.entry p hp j hj]

theorem SharedTables.newPML4 {p : Word} {t : Machine 64 (PagingGlobals α)}
    (hback : TakesBack S toPhysicalAddr)
    (hs : SharedTables S h n frames level)
    (hrun : (OptimistOS.newPML4 A toPhysicalAddr).run h.machine = .ok p t) :
    ∃ n frames level, SharedTables S ⟨t, p :: h.copies, h.mapped⟩ n frames
      level := by
  obtain ⟨hcopy, hlevel, hleveled⟩ :=
    (returns_newPML4 hs.leveled rfl hback).of_run hrun
  have hPML4 : t.globals.PML4 = h.machine.globals.PML4 := by
    rw [hcopy.globals]
  have hkernel : t.globals.kernelPML4 = h.machine.globals.kernelPML4 := by
    rw [hcopy.globals]
  have hroot := hs.leveled.levels.root_mem
  refine ⟨n - 1, p :: frames, level, hPML4.symm ▸ hleveled, ?_, fun q hq => ?_,
    fun q hq j hj => ?_⟩
  · exact hkernel.trans (hs.kernelPML4.trans hPML4.symm)
  · rcases List.mem_cons.1 hq with rfl | hq
    · exact ⟨List.mem_cons_self, hlevel⟩
    · exact ⟨List.mem_cons_of_mem p (hs.mem q hq).1, (hs.mem q hq).2⟩
  · change tableEntry t.mem hhdmOffset q j =
      tableEntry t.mem hhdmOffset t.globals.PML4 j
    rw [hPML4, hcopy.kept _ hroot]
    rcases List.mem_cons.1 hq with rfl | hq
    · rw [hcopy.entry, if_pos (Or.inl hj)]
    · rw [hcopy.kept q (hs.mem q hq).1, hs.entry q hq j hj]

theorem SharedTables.step (hback : TakesBack S toPhysicalAddr)
    (hs : ∃ n frames level, SharedTables S h n frames level)
    (hstep : Guarded (KeepsShared hhdmOffset) (PagingStep A toPhysicalAddr) h c
      h') : ∃ n frames level, SharedTables S h' n frames level := by
  obtain ⟨n, frames, level, hs⟩ := hs
  obtain ⟨hkeeps, hstep⟩ := hstep
  cases c with
  | map physicalAddr v flags =>
      obtain ⟨b, t, hrun, rfl⟩ := hstep
      exact hs.map hkeeps hrun
  | newPML4 =>
      obtain ⟨p, t, hrun, rfl⟩ := hstep
      exact hs.newPML4 hback hrun

/-- The top level table is blank, and it is the kernel's. -/
structure StartsBlank (S : FrameSource A hhdmOffset)
    (s : Machine 64 (PagingGlobals α)) : Prop where
  maps : ∃ n, MapsCalls S s.globals.PML4 n s []
  kernelPML4 : s.globals.kernelPML4 = s.globals.PML4

/-- As long as no call needs a new entry of the top level table for a mapping of
the upper half, all top level tables share the mappings of the upper half. -/
theorem sharesMappings_of_keepsShared (hback : TakesBack S toPhysicalAddr)
    {s : Machine 64 (PagingGlobals α)} (hblank : StartsBlank S s)
    {cs : List PagingCall}
    (hrun : Run (Guarded (KeepsShared hhdmOffset) (PagingStep A toPhysicalAddr))
      ⟨s, [], []⟩ cs h) : SharesMappings hhdmOffset h := by
  obtain ⟨⟨n, ⟨frames, owner, hmapped⟩, -, -, -⟩, hkernel⟩ := hblank
  have hstart : ∃ n frames level, SharedTables S ⟨s, [], []⟩ n frames level :=
    ⟨n, frames, _, hmapped.leveled, hkernel, by simp, by simp⟩
  obtain ⟨n, frames, level, hs⟩ := hrun.invariant
    (fun h => ∃ n frames level, SharedTables S h n frames level) hstart
    fun _ _ _ hs hstep => SharedTables.step hback hs hstep
  exact hs.sharesMappings

def ReachedByMaps (A : FrameAllocator α)
    (toPhysicalAddr : Addr → Code 64 α Word)
    (s t : Machine 64 (PagingGlobals α)) : Prop :=
  ∃ cs mapped, Run (PagingStep A toPhysicalAddr) ⟨s, [], []⟩ cs ⟨t, [], mapped⟩

theorem ReachedByMaps.map {s t u : Machine 64 (PagingGlobals α)}
    (h : ReachedByMaps A toPhysicalAddr s t) {physicalAddr v flags : Word}
    {b : Bool}
    (hrun : (OptimistOS.map A physicalAddr v flags).run t = .ok b u) :
    ReachedByMaps A toPhysicalAddr s u := by
  obtain ⟨cs, mapped, h⟩ := h
  have hstep : PagingStep A toPhysicalAddr ⟨t, [], mapped⟩
      (.map physicalAddr v flags) ⟨u, [], (v, flags) :: mapped⟩ :=
    ⟨b, u, hrun, rfl⟩
  exact ⟨_, _, h.snoc hstep⟩

theorem ReachedByMaps.mapEntry {s t u : Machine 64 (PagingGlobals α)}
    {fuel : ℕ} {mmap : MemmapEntry} (h : ReachedByMaps A toPhysicalAddr s t)
    (hrun : (OptimistOS.mapEntry A fuel hhdmOffset mmap).run t = .ok () u) :
    ReachedByMaps A toPhysicalAddr s u := by
  by_cases hlow : mmap.start < _4GB
  · rw [mapEntry_of_lt A hlow, EStateM.run_pure,
      EStateM.Result.ok.injEq] at hrun
    exact hrun.2 ▸ h
  · rw [mapEntry_of_le A hlow] at hrun
    obtain ⟨_, t₁, hwhole, hrest⟩ := run_bind_eq_ok.1 hrun
    refine forLoop_invariant (ReachedByMaps A toPhysicalAddr s)
      (fun k t₂ t₃ _ h₂ hbody => ?_)
      (forLoop_invariant (ReachedByMaps A toPhysicalAddr s)
        (fun k t₂ t₃ _ h₂ hbody => ?_) h hwhole) hrest
    · obtain ⟨b, t₄, hmap, hend⟩ := run_bind_eq_ok.1 hbody
      cases b with
      | false => exact absurd hend (by simp)
      | true =>
          rw [if_pos rfl, EStateM.run_pure, EStateM.Result.ok.injEq] at hend
          exact hend.2 ▸ h₂.map hmap
    · split_ifs at hbody with hk
      · rw [EStateM.run_pure, EStateM.Result.ok.injEq] at hbody
        exact hbody.2 ▸ h₂
      · obtain ⟨b, t₄, hmap, hend⟩ := run_bind_eq_ok.1 hbody
        rw [EStateM.run_pure, EStateM.Result.ok.injEq] at hend
        exact hend.2 ▸ h₂.map hmap

theorem ReachedByMaps.mapMemmap {s t u : Machine 64 (PagingGlobals α)}
    {fuel : ℕ} (entries : List MemmapEntry)
    (h : ReachedByMaps A toPhysicalAddr s t)
    (hrun : (OptimistOS.mapMemmap A fuel hhdmOffset entries).run t =
      .ok () u) : ReachedByMaps A toPhysicalAddr s u := by
  induction entries generalizing t with
  | nil =>
      rw [OptimistOS.mapMemmap, EStateM.run_pure,
        EStateM.Result.ok.injEq] at hrun
      exact hrun.2 ▸ h
  | cons mmap entries ih =>
      rw [OptimistOS.mapMemmap] at hrun
      obtain ⟨_, t₁, hentry, hrest⟩ := run_bind_eq_ok.1 hrun
      exact ih (h.mapEntry hentry) hrest

/-- `initPaging` consists of `init` and a run of `map`, whatever the bootloader
has answered. -/
theorem initTables_run {fuel : ℕ} {r : BootResponses}
    {s t : Machine 64 (PagingGlobals α)}
    (hrun : (initTables A fuel r).run s = .ok () t) :
    ∃ s₁, (init A).run s = .ok () s₁ ∧ ReachedByMaps A toPhysicalAddr
      ⟨s₁.mem, { s₁.globals with hhdmOffset := r.hhdmOffset }⟩ t := by
  rw [initTables] at hrun
  obtain ⟨_, s₁, hinit, hrun⟩ := run_bind_eq_ok.1 hrun
  rw [EStateM.run_bind, run_modifyGlobals] at hrun
  obtain ⟨_, t₁, hfirst, hrun⟩ := run_bind_eq_ok.1 hrun
  obtain ⟨_, t₂, hmemmap, hkernel⟩ := run_bind_eq_ok.1 hrun
  refine ⟨s₁, hinit, ?_⟩
  have h₁ := forLoop_invariant (ReachedByMaps A toPhysicalAddr
    ⟨s₁.mem, { s₁.globals with hhdmOffset := r.hhdmOffset }⟩)
    (fun i u u' _ hu hbody => ?_) ⟨[], [], .nil⟩ hfirst
  · have h₂ := h₁.mapMemmap r.memmap hmemmap
    refine forLoop_invariant _ (fun i u u' _ hu hbody => ?_) h₂ hkernel
    obtain ⟨b, u₁, hmap, hend⟩ := run_bind_eq_ok.1 hbody
    rw [EStateM.run_pure, EStateM.Result.ok.injEq] at hend
    exact hend.2 ▸ hu.map hmap
  · obtain ⟨b, u₁, hmap, hbody⟩ := run_bind_eq_ok.1 hbody
    obtain ⟨b', u₂, hmap', hend⟩ := run_bind_eq_ok.1 hbody
    rw [EStateM.run_pure, EStateM.Result.ok.injEq] at hend
    exact hend.2 ▸ (hu.map hmap).map hmap'

theorem MapsCalls.newPML4 {root : Word} {s : Machine 64 (PagingGlobals α)}
    {calls : List PageMapping} (hmaps : MapsCalls S root n s calls)
    (hback : TakesBack S toPhysicalAddr) :
    (OptimistOS.newPML4 A toPhysicalAddr).Returns s (n = 0) fun p t =>
      MapsCalls S root (n - 1) t calls ∧ ∃ frames level,
        CopiesTable hhdmOffset root s frames p t ∧ level p = none ∧
        root ∈ frames ∧ Leveled S root (n - 1) t (p :: frames) level := by
  obtain ⟨frames, owner, hmapped⟩ := hmaps.mapped
  refine (returns_newPML4 hmapped.leveled hmaps.PML4 hback).mono id ?_
  rintro p t ⟨hcopy, hlevel, hleveled⟩
  obtain ⟨htables, hview⟩ := hmapped.tables.congr hleveled.levels.frame
    (List.subset_cons_self p frames) hcopy.kept
  have hroot := hmapped.tables.root_mem
  refine ⟨⟨⟨p :: frames, owner, hleveled.ready, htables⟩, ?_, fun v hv => ?_,
    fun i hi => ?_⟩, frames, _, hcopy, hlevel, hroot, hleveled⟩
  · rw [hcopy.globals, hmaps.PML4]
  · rw [hview _ rfl]
    exact hmaps.views v hv
  · rw [hcopy.kept root hroot, hmaps.top i hi]

theorem MapsCalls.isValid_top {root v w : Word}
    {s : Machine 64 (PagingGlobals α)} {calls : List PageMapping}
    (hmaps : MapsCalls S root n s calls)
    (htranslate : translate s.mem hhdmOffset root v = some w) :
    isValid (tableEntry s.mem hhdmOffset root (levelIndex v 3)) = true := by
  obtain ⟨frames, owner, -, htables⟩ := hmaps.mapped
  dsimp only [translate] at htranslate
  split_ifs at htranslate with hcanonical hpresent hpage
  have hchild : childTable (tableEntry s.mem hhdmOffset root (levelIndex v 3)) =
      some (tableEntry s.mem hhdmOffset root (levelIndex v 3) &&& addressMask) :=
    if_pos ⟨hpresent, hpage⟩
  have howner := htables.unshared.child root [] _ _ htables.unshared.root
    (by decide) hchild
  exact (isValid_of_childTable hchild
    (htables.frame _ (htables.owned _ _ howner)).ne_zero).1

theorem MapsCalls.not_findsPage {root : Word}
    {s : Machine 64 (PagingGlobals α)} {calls : List PageMapping}
    {c : PageMapping} (hmaps : MapsCalls S root n s calls)
    (hsize : ∀ d ∈ calls,
      c.virtualAddr.toNat / 2 ^ 21 = d.virtualAddr.toNat / 2 ^ 21 →
        c.large = d.large) (hlarge : c.large = false) :
    ¬ FindsPage s.mem hhdmOffset root c.virtualAddr := by
  intro hfinds
  obtain ⟨frames, owner, hmapped⟩ := hmaps.mapped
  obtain ⟨e, i, hview⟩ := hmapped.pageView_of_findsPage hfinds
  exact hmaps.pageView_ne hsize hlarge e i hview

theorem MapsCalls.translate_last {root : Word}
    {s : Machine 64 (PagingGlobals α)} {calls : List PageMapping}
    {c : PageMapping} (hmaps : MapsCalls S root n s (calls ++ [c])) :
    translate s.mem hhdmOffset root c.virtualAddr = some c.physicalAddr := by
  rw [translate_of_viewsCalls hmaps.views, mappedTo, lastCovering_snoc,
    if_pos c.covers_self, Option.map_some, BitVec.sub_self, BitVec.add_zero]

theorem startsBlank_init {r : BootResponses} {S : FrameSource A r.hhdmOffset}
    {s t : Machine 64 (PagingGlobals α)}
    (hready : S.Ready n ⟨s.mem, s.globals.frames⟩ frames)
    (hkernel : s.globals.kernelPML4 = 0)
    (hinit : (init A).run s = .ok () t) (offset : Word) :
    StartsBlank S ⟨t.mem, { t.globals with hhdmOffset := offset }⟩ := by
  obtain ⟨⟨⟨frames, owner, hready, htables⟩, hroot, hviews, htop⟩, heq⟩ :=
    (returns_init hready).of_run hinit
  exact ⟨⟨n - 1, ⟨frames, owner, hready, htables⟩, hroot, hviews, htop⟩,
    heq hkernel⟩

end

/-- A page of the upper half whose entry in the top level table `initPaging`
does not make. -/
def latePage : PageMapping where
  large := false
  physicalAddr := 0x200000
  virtualAddr := 0xffff960000000000
  flags := kernelFlags
  canonical := by decide
  physical_aligned := samplePage.physical_aligned
  virtual_aligned := by decide
  physical_lt := samplePage.physical_lt
  present := kernelFlags_present
  flags_mask := kernelFlags_mask
  largerPages := kernelFlags_largerPages

theorem levelIndex_ne_latePage {calls : List PageMapping} {j : ℕ}
    (h : BootCalls bootResponses calls j bootResponses.pages) :
    ∀ c ∈ calls,
      levelIndex c.virtualAddr 3 ≠ levelIndex latePage.virtualAddr 3 := by
  have hindex : ∀ v : Word,
      (levelIndex v 3).toNat = v.toNat / 2 ^ 39 % 2 ^ 9 := by
    intro v
    rw [levelIndex, BitVec.extractLsb'_toNat, Nat.shiftRight_eq_div_pow]
  have hlate : (levelIndex latePage.virtualAddr 3).toNat = 300 := by decide
  have hoffset : bootResponses.hhdmOffset.toNat = 0xffff800000000000 := rfl
  have hbase : bootResponses.virtualBase.toNat = 0xffffffff80000000 := rfl
  have hpages : bootResponses.pages = 5 := by decide
  intro c hc heq
  have hnat := congrArg BitVec.toNat heq
  rw [hindex, hlate] at hnat
  rcases h.kind c hc with hc | hc | hc
  · have hlt := hc.lt
    omega
  · have hlt := hc.lt
    rw [hc.virtualAddr, bootLayout_bootResponses.toNat_direct hlt,
      hoffset] at hnat
    omega
  · obtain ⟨i, hi, haddr⟩ := hc.page
    rw [haddr, bootLayout_bootResponses.toNat_image hi, hbase] at hnat
    omega

theorem exists_not_sharesMappings :
    ∃ t h, (initTables (kernelAllocator addressSizeTable 0) 2048
        bootResponses).run ⟨bootKernel.mem, bootKernel.globals.paging⟩ =
          .ok () t ∧
      Run (PagingStep (kernelAllocator addressSizeTable 0) toPhysicalAddr)
        ⟨t, [], []⟩ [.newPML4, .map 0x200000 0xffff960000000000 kernelFlags]
        h ∧
      ¬ SharesMappings bootResponses.hhdmOffset h := by
  have hback := takesBack_kernelSource addressSizeTable 0 bootRegion (by decide)
  obtain ⟨t, hrun, calls, hmaps, hcalls⟩ :=
    exists_run_initTables (k := 4) (by decide)
  obtain ⟨p, t₂, hrun₂, hmaps₂, frames, level, hcopy, hlevel, hroot, hleveled⟩ :=
    (hmaps.newPML4 hback).exists_run (by omega)
  have hother := levelIndex_ne_latePage hcalls
  have hsize : ∀ d ∈ calls, latePage.virtualAddr.toNat / 2 ^ 21 =
      d.virtualAddr.toNat / 2 ^ 21 → latePage.large = d.large := by
    intro d hd hdiv
    refine absurd (levelIndex_eq_iff.2 fun i hi _ => ?_) (hother d hd)
    exact samePage_iff_div.2 hdiv.symm i (by omega)
  obtain ⟨_, t₃, hrun₃, rfl, hglobals₃, hmaps₃⟩ :=
    (returns_map (c := latePage) hmaps₂ hsize).exists_run (by omega)
  have hPML4 : t₃.globals.PML4 = t.globals.PML4 := hmaps₃.PML4
  refine ⟨t, ⟨t₃, [p], [(latePage.virtualAddr, latePage.flags)]⟩, hrun, ?_,
    fun hshares => ?_⟩
  · have hfirst : PagingStep (kernelAllocator addressSizeTable 0)
        toPhysicalAddr ⟨t, [], []⟩ .newPML4 ⟨t₂, [p], []⟩ := ⟨p, t₂, hrun₂, rfl⟩
    exact (Run.single hfirst).snoc ⟨true, t₃, hrun₃, rfl⟩
  · -- the current table translates the page, the copy does not
    have htranslate : translate t₃.mem bootResponses.hhdmOffset
        t₃.globals.PML4 latePage.virtualAddr = some latePage.physicalAddr := by
      rw [hPML4]
      exact hmaps₃.translate_last
    obtain ⟨-, frames₃, level₃, -, hgrows⟩ := (returns_map_levels hleveled
      hmaps₂.PML4 latePage.physicalAddr latePage.virtualAddr fun _ =>
        hmaps₂.not_findsPage hsize rfl).of_run hrun₃
    have hentry : tableEntry t₃.mem bootResponses.hhdmOffset p
        (levelIndex latePage.virtualAddr 3) = 0 := by
      rw [hgrows.other p List.mem_cons_self hlevel, hcopy.entry,
        if_pos (by decide), hmaps.top _ hother]
    have hnone : translate t₃.mem bootResponses.hhdmOffset p
        latePage.virtualAddr = none := by
      rw [translate, if_pos latePage.canonical, hentry]
      rfl
    have heq := hshares latePage.virtualAddr (by unfold IsUpper; decide)
      ⟨_, List.mem_singleton_self _, fun _ _ => rfl⟩ p
      (List.mem_cons_of_mem _ (List.mem_singleton_self p))
    rw [hnone] at heq
    exact absurd (heq.trans htranslate) (by simp)

def nextPage : PageMapping :=
  { latePage with
    physicalAddr := 0x201000
    virtualAddr := 0xffff960000001000
    canonical := by decide
    physical_aligned := by decide
    virtual_aligned := by decide
    physical_lt := by decide }

/-- A run that keeps the tables shared: the first page makes the top level entry
before `newPML4`, and the page behind it is mapped afterwards. -/
theorem sharesMappings_of_keepsShared_nextPage :
    ∃ s h p, Run (PagingStep (kernelAllocator addressSizeTable 0) toPhysicalAddr)
        ⟨s, [], []⟩ [.map 0x200000 0xffff960000000000 kernelFlags, .newPML4,
          .map 0x201000 0xffff960000001000 kernelFlags] h ∧
      h.copies = [p] ∧
      translate h.machine.mem bootResponses.hhdmOffset h.machine.globals.PML4
        nextPage.virtualAddr = some nextPage.physicalAddr ∧
      SharesMappings bootResponses.hhdmOffset h := by
  let S := kernelSource addressSizeTable 0 bootRegion (by decide)
  have hready : S.Ready 8
      ⟨bootKernel.mem, bootKernel.globals.paging.frames⟩ [] :=
    ready_bootKernel (by decide)
  have hback := takesBack_kernelSource addressSizeTable 0 bootRegion (by decide)
  obtain ⟨_, t, hinit, hmaps, -⟩ := (returns_init (r := bootResponses) (S := S)
    (s := ⟨bootKernel.mem, bootKernel.globals.paging⟩) hready).exists_run
      (by omega)
  have hblank : StartsBlank S t := startsBlank_init (r := bootResponses)
    (S := S) (s := ⟨bootKernel.mem, bootKernel.globals.paging⟩) hready rfl hinit
    t.globals.hhdmOffset
  obtain ⟨_, t₁, hrun₁, rfl, -, hmaps₁⟩ :=
    (returns_map (c := latePage) hmaps (by simp)).exists_run (by omega)
  obtain ⟨p, t₂, hrun₂, hmaps₂, -⟩ :=
    (hmaps₁.newPML4 hback).exists_run (by omega)
  have hsize : ∀ d ∈ [latePage], nextPage.virtualAddr.toNat / 2 ^ 21 =
      d.virtualAddr.toNat / 2 ^ 21 → nextPage.large = d.large := by
    intro d hd _
    rw [List.mem_singleton.1 hd]
    rfl
  obtain ⟨_, t₃, hrun₃, rfl, hglobals₃, hmaps₃⟩ :=
    (returns_map (c := nextPage) hmaps₂ hsize).exists_run (by omega)
  have hPML4 : t₂.globals.PML4 = t.globals.PML4 := hmaps₂.PML4
  have hPML4' : t₃.globals.PML4 = t.globals.PML4 := hmaps₃.PML4
  have hstep₁ : Guarded (KeepsShared bootResponses.hhdmOffset)
      (PagingStep (kernelAllocator addressSizeTable 0) toPhysicalAddr)
      ⟨t, [], []⟩ (.map 0x200000 0xffff960000000000 kernelFlags)
      ⟨t₁, [], [(0xffff960000000000, kernelFlags)]⟩ :=
    ⟨⟨fun _ hne => absurd rfl hne, fun _ =>
      hmaps.not_findsPage (c := latePage) (by simp) rfl⟩, true, t₁, hrun₁, rfl⟩
  have hstep₂ : Guarded (KeepsShared bootResponses.hhdmOffset)
      (PagingStep (kernelAllocator addressSizeTable 0) toPhysicalAddr)
      ⟨t₁, [], [(0xffff960000000000, kernelFlags)]⟩ .newPML4
      ⟨t₂, [p], [(0xffff960000000000, kernelFlags)]⟩ :=
    ⟨trivial, p, t₂, hrun₂, rfl⟩
  have hkeeps : KeepsShared bootResponses.hhdmOffset
      ⟨t₂, [p], [(0xffff960000000000, kernelFlags)]⟩
      (.map 0x201000 0xffff960000001000 kernelFlags) := by
    rw [KeepsShared, hPML4, show levelIndex 0xffff960000001000 3 =
      levelIndex latePage.virtualAddr 3 by decide]
    exact ⟨fun _ _ => hmaps₂.isValid_top hmaps₂.translate_last, fun _ =>
      hmaps₂.not_findsPage (c := nextPage) hsize rfl⟩
  have hstep₃ : Guarded (KeepsShared bootResponses.hhdmOffset)
      (PagingStep (kernelAllocator addressSizeTable 0) toPhysicalAddr)
      ⟨t₂, [p], [(0xffff960000000000, kernelFlags)]⟩
      (.map 0x201000 0xffff960000001000 kernelFlags)
      ⟨t₃, [p], [(0xffff960000001000, kernelFlags),
        (0xffff960000000000, kernelFlags)]⟩ :=
    ⟨hkeeps, true, t₃, hrun₃, rfl⟩
  have hrun := ((Run.single hstep₁).snoc hstep₂).snoc hstep₃
  refine ⟨t, _, p, hrun.of_guarded, rfl, ?_,
    sharesMappings_of_keepsShared hback hblank hrun⟩
  rw [hPML4']
  exact hmaps₃.translate_last

end OptimistOS
