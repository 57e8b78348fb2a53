import OptimistOS.Smp.ProcessorTables

/-!
# The interleavings of `initPaging`

All interleavings of the application processors in `initPaging`. Each one that
has left it runs on a tree of its own, which translates the first 4 GB, their
direct map and the kernel image, also while other trees are being built
(`tables_of_run`). The global variable `PML4` stays with the tree that was built
last, so what `map` adds later is seen by one processor only
(`translate_mapAll_of_run`).
-/

namespace OptimistOS

open ByteMemory ByteMemory.Code Transition

section

variable {ι α : Type} {A : FrameAllocator α} {r : BootResponses}
  {S : FrameSource A r.hhdmOffset} {kernel : Word} {n : ℕ}
  {calls : List PageMapping} {v : PagedProcessors ι α}

/-- The boot processor has been through `initPaging`, the others are sent
there. -/
def sentToPaging (s : Machine 64 (InitGlobals α)) :
    Locked ι (PagedProcessors ι α) PagingPoint where
  word := s.globals.mutex
  shared := ⟨⟨s.mem, s.globals.paging⟩,
    fun p => if p = none then some s.globals.cr3 else none⟩
  place _ := .before

theorem cr3_sentToPaging {s : Machine 64 (InitGlobals α)} {p : Option ι}
    {root : Word} : (sentToPaging s).shared.cr3 p = some root ↔
      p = none ∧ s.globals.cr3 = root := by
  change (if p = none then some s.globals.cr3 else none) = some root ↔ _
  simp [ite_eq_iff]

theorem cr3_of_pagingStep [DecidableEq ι] {fuel : ℕ} {i : ι} {t : PagingPoint}
    {x : PagingPoint × PagedProcessors ι α}
    (h : pagingStep A fuel r i t v = some x) {p : Option ι} (hp : p ≠ some i) :
    x.2.cr3 p = v.cr3 p := by
  cases t with
  | init | memmap | direct =>
      obtain ⟨t, -, rfl⟩ := call_eq_some h
      rfl
  | identity | kernel =>
      rw [pagingStep] at h
      split_ifs at h
      · obtain ⟨t, -, rfl⟩ := call_eq_some h
        rfl
      · rw [← Option.some.inj h]
  | load =>
      rw [pagingStep] at h
      split_ifs at h
      rw [← Option.some.inj h]
      exact Function.update_of_ne hp _ _
  | unlock => cases h

/-- What holds in every state of the interleavings. -/
structure PagingRun (S : FrameSource A r.hhdmOffset) (kernel : Word)
    (s : Locked ι (PagedProcessors ι α) PagingPoint) : Prop where
  holds : s.Holds (TablesIdle S kernel) (BodyState S kernel)
  after : ∀ i, s.place i = .after → ∃ root, s.shared.cr3 (some i) = some root

theorem globals_of_initPaging {fuel : ℕ} {s t : Machine 64 (InitGlobals α)}
    (h : (initPaging A fuel r).run s = .ok () t) :
    ∃ u, (initTables A fuel r).run ⟨s.mem, s.globals.paging⟩ = .ok () u ∧
      t = ⟨u.mem, ⟨0, u.globals.PML4, u.globals⟩⟩ := by
  obtain ⟨_, t₁, hlock, h⟩ := run_bind_eq_ok.1 h
  obtain ⟨_, t₂, htables, h⟩ := run_bind_eq_ok.1 h
  obtain ⟨u, hu, rfl⟩ := run_zoom_eq_ok.1 htables
  rw [run_lock_eq_ok] at hlock
  obtain ⟨-, rfl⟩ := hlock
  refine ⟨u, hu, ?_⟩
  rw [EStateM.run_bind, EStateM.run_get] at h
  dsimp only at h
  split_ifs at h with hzero
  · rw [EStateM.run_bind, run_throw] at h
    exact absurd h (by simp)
  · rw [EStateM.run_bind, run_modifyGlobals] at h
    dsimp only at h
    rw [run_unlock, EStateM.Result.ok.injEq] at h
    exact h.2.symm

theorem MapsCalls.beyond_nil {root : Word} {s : Machine 64 (PagingGlobals α)}
    (h : MapsCalls S root n s calls) :
    MapsCalls (S.beyond [] s.mem) root n s calls := by
  obtain ⟨⟨frames, owner, hmapped⟩, hroot, hviews, htop⟩ := h
  refine ⟨⟨frames, owner, ⟨?_, fun _ _ => List.not_mem_nil, ?_⟩,
    hmapped.tables⟩, hroot, hviews, htop⟩
  · rw [List.append_nil]
    exact hmapped.ready
  · rintro x ⟨f, hf, -⟩
    exact absurd hf List.not_mem_nil

theorem PagingRun.start {fuel : ℕ} {s₀ s₁ : Machine 64 (InitGlobals α)}
    {frames : List Word} (hlayout : BootLayout r)
    (hmemmap : ∀ e ∈ r.memmap, e.base < _4GB) (hfuel : 2048 ≤ fuel)
    (hpages : r.pages ≤ fuel)
    (hready : S.Ready n ⟨s₀.mem, s₀.globals.paging.frames⟩ frames)
    (hkernel : s₀.globals.paging.kernelPML4 = 0)
    (hboot : (initPaging A fuel r).run s₀ = .ok () s₁) :
    PagingRun S s₁.globals.cr3
      (sentToPaging s₁ : Locked ι (PagedProcessors ι α) PagingPoint) := by
  obtain ⟨u, hrun, rfl⟩ := globals_of_initPaging hboot
  obtain ⟨⟨calls, hmaps, hcalls⟩, hkernel'⟩ := (returns_initTables
    (s := ⟨s₀.mem, s₀.globals.paging⟩) hlayout hmemmap hfuel hpages
    hready).of_run hrun
  refine ⟨Locked.holds_start ⟨[], u.mem, _, calls, ⟨?_,
    cr3_sentToPaging.2 ⟨rfl, rfl⟩, hkernel' hkernel, ?_⟩, ?_, hmaps.beyond_nil, hcalls,
      .inl fun _ => rfl⟩, fun i hi => ?_⟩
  · exact hmaps.root_ne_zero
  · intro p q root hp hq
    rw [(cr3_sentToPaging.1 hp).1, (cr3_sentToPaging.1 hq).1]
  · intro p root hp hne
    exact absurd (cr3_sentToPaging.1 hp).2.symm hne
  · cases hi

theorem PagingRun.step [DecidableEq ι] {fuel : ℕ} {i : ι}
    {s s' : Locked ι (PagedProcessors ι α) PagingPoint}
    (h : PagingRun S kernel s) (hlayout : BootLayout r)
    (hmemmap : ∀ e ∈ r.memmap, e.base < _4GB)
    (hstep : Locked.Step (initPagingBody A fuel r) s i s') :
    PagingRun S kernel s' := by
  refine ⟨h.holds.step (fun j v hv => .init hv)
    (fun j t v x hv hended hx => hv.step hlayout hmemmap hended hx)
    (fun j t v hv hended => ?_) hstep, fun j hj => ?_⟩
  · obtain rfl := of_decide_eq_true hended
    cases hv with
    | unlock hidle => exact hidle
    | building _ ht => cases ht
  · cases Locked.step_iff.1 hstep with
    | spin => exact h.after j hj
    | enter =>
        rcases of_update_eq hj with ⟨-, hp⟩ | ⟨-, hj⟩
        · cases hp
        · exact h.after j hj
    | body hplace hended hbody =>
        rcases of_update_eq hj with ⟨-, hp⟩ | ⟨hji, hj⟩
        · cases hp
        · obtain ⟨root, hroot⟩ := h.after j hj
          have hne : some j ≠ some i := fun heq => hji (Option.some.inj heq)
          exact ⟨root, (cr3_of_pagingStep hbody hne).trans hroot⟩
    | leave hplace hended =>
        rcases of_update_eq hj with ⟨rfl, -⟩ | ⟨-, hj⟩
        · have hstate := h.holds.held j _ hplace
          obtain rfl := of_decide_eq_true hended
          cases hstate with
          | unlock _ hcr3 => exact hcr3
          | building _ ht => cases ht
        · exact h.after j hj

theorem PagingRun.of_run [DecidableEq ι] {fuel : ℕ}
    {s₀ s₁ : Machine 64 (InitGlobals α)} {frames : List Word}
    (hlayout : BootLayout r) (hmemmap : ∀ e ∈ r.memmap, e.base < _4GB)
    (hfuel : 2048 ≤ fuel) (hpages : r.pages ≤ fuel)
    (hready : S.Ready n ⟨s₀.mem, s₀.globals.paging.frames⟩ frames)
    (hkernel : s₀.globals.paging.kernelPML4 = 0)
    (hboot : (initPaging A fuel r).run s₀ = .ok () s₁) {is : List ι}
    {s : Locked ι (PagedProcessors ι α) PagingPoint}
    (hrun : Run (Locked.Step (initPagingBody A fuel r)) (sentToPaging s₁) is s) :
    PagingRun S s₁.globals.cr3 s :=
  hrun.invariant (PagingRun S s₁.globals.cr3)
    (.start hlayout hmemmap hfuel hpages hready hkernel hboot)
    fun _ _ _ hs hstep => hs.step hlayout hmemmap hstep

theorem PagingRun.treesLoaded
    {s : Locked ι (PagedProcessors ι α) PagingPoint}
    (h : PagingRun S kernel s) :
    TreesLoaded S s.shared ∧ Registers kernel s.shared := by
  by_cases hword : s.word = 0
  · obtain ⟨base, m₀, n, calls, hidle⟩ := h.holds.free hword
    exact ⟨hidle.treesLoaded, hidle.registers⟩
  · obtain ⟨i, t, ht⟩ := h.holds.exclusion.word.1 hword
    exact (h.holds.held i t ht).treesLoaded

/-- In every interleaving of the processors in `initPaging`, each one that has
left it runs on a tree of its own, the boot processor still runs on `kernelPML4`,
and all these trees translate what the kernel relies on, also while another
tree is being built. -/
theorem tables_of_run [DecidableEq ι] {fuel : ℕ}
    {s₀ s₁ : Machine 64 (InitGlobals α)} {frames : List Word}
    (S : FrameSource A r.hhdmOffset) (hlayout : BootLayout r)
    (hmemmap : ∀ e ∈ r.memmap, e.base < _4GB) (hfuel : 2048 ≤ fuel)
    (hpages : r.pages ≤ fuel)
    (hready : S.Ready n ⟨s₀.mem, s₀.globals.paging.frames⟩ frames)
    (hkernel : s₀.globals.paging.kernelPML4 = 0)
    (hboot : (initPaging A fuel r).run s₀ = .ok () s₁) {is : List ι}
    {s : Locked ι (PagedProcessors ι α) PagingPoint}
    (hrun : Run (Locked.Step (initPagingBody A fuel r)) (sentToPaging s₁) is s) :
    (∀ i, s.place i = .after → ∃ root, s.shared.cr3 (some i) = some root) ∧
      s.shared.cr3 none = some s.shared.machine.globals.kernelPML4 ∧
      s.shared.machine.globals.kernelPML4 = s₁.globals.cr3 ∧
      (∀ p q root, s.shared.cr3 p = some root → s.shared.cr3 q = some root →
        p = q) ∧
      ∀ p root, s.shared.cr3 p = some root →
        KernelTranslates r s.shared.machine.mem root := by
  have hstate := PagingRun.of_run hlayout hmemmap hfuel hpages hready hkernel
    hboot hrun
  obtain ⟨⟨k, frames', -, hloaded⟩, hregisters⟩ := hstate.treesLoaded
  refine ⟨hstate.after, ?_, hregisters.kernelPML4, hregisters.apart,
    fun p root hp => (hloaded p root hp).translates hlayout⟩
  rw [hregisters.kernelPML4]
  exact hregisters.boot

/-- The calls use one page size in every 2 MB region, also together with the
pages of `initPaging`. -/
structure FitsBoot (r : BootResponses) (calls : List PageMapping) : Prop where
  onePageSize : OnePageSize calls
  boot : ∀ c ∈ calls, ∀ d,
    IdentityPage d ∨ DirectPage r d ∨ ImagePage r r.pages d →
      c.virtualAddr.toNat / 2 ^ 21 = d.virtualAddr.toNat / 2 ^ 21 →
        c.large = d.large

theorem MapsCalls.of_mapAll {root : Word} {s t : Machine 64 (PagingGlobals α)}
    {bs : List Bool} (rest : List PageMapping) {done : List PageMapping}
    (h : MapsCalls S root n s done)
    (hsize : ∀ c ∈ rest, ∀ d ∈ done ++ rest,
      c.virtualAddr.toNat / 2 ^ 21 = d.virtualAddr.toNat / 2 ^ 21 →
        c.large = d.large)
    (hrun : (mapAll A rest).run s = .ok bs t) :
    ∃ k, MapsCalls S root k t (done ++ rest) := by
  induction rest generalizing n s bs done with
  | nil =>
      rw [mapAll, EStateM.run_pure, EStateM.Result.ok.injEq] at hrun
      obtain rfl := hrun.2
      exact ⟨n, by rwa [List.append_nil]⟩
  | cons c rest ih =>
      obtain ⟨b, u, hmap, hrun⟩ := run_bind_eq_ok.1 hrun
      obtain ⟨bs', t', hrest, hpure⟩ := run_bind_eq_ok.1 hrun
      rw [EStateM.run_pure, EStateM.Result.ok.injEq] at hpure
      obtain rfl := hpure.2
      have happ : done ++ [c] ++ rest = done ++ c :: rest := by
        rw [List.append_assoc, List.singleton_append]
      obtain ⟨-, -, hmaps⟩ := (returns_map (c := c) h fun d hd =>
        hsize c List.mem_cons_self d (List.mem_append_left _ hd)).of_run hmap
      obtain ⟨k, hk⟩ := ih hmaps (fun d hd e he => hsize d
        (List.mem_cons_of_mem _ hd) e (happ ▸ he)) hrest
      exact ⟨k, happ ▸ hk⟩

theorem mappedTo_append {done calls : List PageMapping} {v : Word}
    (h : ∃ c ∈ calls, c.Covers v) :
    mappedTo (done ++ calls) v = mappedTo calls v := by
  obtain ⟨c, hc, hv⟩ := h
  have hne : calls.filter (fun c => decide (c.Covers v)) ≠ [] :=
    List.ne_nil_of_mem (List.mem_filter.2 ⟨hc, decide_eq_true hv⟩)
  rw [mappedTo, mappedTo, lastCovering, lastCovering, List.filter_append,
    List.getLast?_append_of_ne_nil _ hne]

/-- When other processors have been in `initPaging` and nobody is inside, `PML4` is
the tree of one of these, and what the boot processor maps with `map` goes there.
All processors but that one, also the boot processor itself, translate every
address as before. -/
theorem translate_mapAll_of_run [DecidableEq ι] {fuel : ℕ}
    {s₀ s₁ : Machine 64 (InitGlobals α)} {frames : List Word}
    (S : FrameSource A r.hhdmOffset) (hlayout : BootLayout r)
    (hmemmap : ∀ e ∈ r.memmap, e.base < _4GB) (hfuel : 2048 ≤ fuel)
    (hpages : r.pages ≤ fuel)
    (hready : S.Ready n ⟨s₀.mem, s₀.globals.paging.frames⟩ frames)
    (hkernel : s₀.globals.paging.kernelPML4 = 0)
    (hboot : (initPaging A fuel r).run s₀ = .ok () s₁) {is : List ι}
    {s : Locked ι (PagedProcessors ι α) PagingPoint}
    (hrun : Run (Locked.Step (initPagingBody A fuel r)) (sentToPaging s₁) is s)
    (hword : s.word = 0) {j : ι} (hj : s.place j = .after)
    {calls : List PageMapping} (hcalls : FitsBoot r calls) {bs : List Bool}
    {t : Machine 64 (PagingGlobals α)}
    (hmap : (mapAll A calls).run s.shared.machine = .ok bs t) :
    ∃ i root, s.shared.machine.globals.PML4 = root ∧
      s.shared.cr3 (some i) = some root ∧
      (∀ v, (∃ c ∈ calls, c.Covers v) →
        translate t.mem r.hhdmOffset root v = mappedTo calls v) ∧
      ∀ p root', p ≠ some i → s.shared.cr3 p = some root' →
        ∀ v, translate t.mem r.hhdmOffset root' v =
          translate s.shared.machine.mem r.hhdmOffset root' v := by
  have hstate := PagingRun.of_run hlayout hmemmap hfuel hpages hready hkernel
    hboot hrun
  obtain ⟨base, m₀, k, done, hidle⟩ := hstate.holds.free hword
  obtain ⟨root, hroot⟩ := hstate.after j hj
  obtain ⟨i, hi⟩ := hidle.last.resolve_left fun hnone => by
    rw [hnone j] at hroot
    cases hroot
  have hsize : ∀ c ∈ calls, ∀ d ∈ done ++ calls,
      c.virtualAddr.toNat / 2 ^ 21 = d.virtualAddr.toNat / 2 ^ 21 →
        c.large = d.large := by
    intro c hc d hd
    rcases List.mem_append.1 hd with hd | hd
    · exact hcalls.boot c hc d (hidle.pages.kind d hd)
    · exact hcalls.onePageSize c hc d hd
  obtain ⟨k', hmaps⟩ := hidle.current.of_mapAll calls hsize hmap
  refine ⟨i, _, rfl, hi, fun v hv => ?_, fun p root' hp hroot' v => ?_⟩
  · rw [translate_of_viewsCalls hmaps.views, mappedTo_append hv]
  · have hne : root' ≠ s.shared.machine.globals.PML4 := by
      rintro rfl
      exact hp (hidle.registers.apart p (some i) _ hroot' hi)
    obtain ⟨calls', htree, -⟩ := hidle.others p root' hroot' hne
    obtain ⟨frames₁, hready₁, -, -⟩ := hidle.current.exists_frames
    obtain ⟨frames₂, hready₂, -, -⟩ := hmaps.exists_frames
    rw [translate_of_viewsCalls (hready₁.tree htree).views,
      translate_of_viewsCalls (hready₂.tree htree).views]

end

def processorRegion : UsableRegion where
  start := 0x100000
  length := 0x8000000
  hhdmOffset := 0xffff800000000000
  start_ne := smallRegion.start_ne
  start_aligned := smallRegion.start_aligned
  length_aligned := by decide
  physical := by decide
  base_ne := smallRegion.base_ne
  window := by decide

/-- A machine with this region and the kernel image behind it. -/
def processorResponses : BootResponses :=
  { bootResponses with
    memmap := [⟨0x100000, 0x8000000⟩, ⟨0x8100000, 0x5000⟩]
    physicalBase := 0x8100000 }

theorem bootLayout_processorResponses : BootLayout processorResponses where
  direct_aligned := by decide
  direct_upper := by decide
  direct_fits := by decide
  virtualBase_eq := rfl
  virtual_aligned := by decide
  virtual_upper := by decide
  virtual_fits := by decide
  physical_aligned := by decide
  physical_fits := by decide
  apart := bootLayout_bootResponses.apart

def processorKernel : Machine 64 (InitGlobals (FrameGlobals HashTable)) where
  mem _ := 0
  globals :=
    { mutex := 0
      cr3 := 0
      paging :=
        { PML4 := 0
          kernelPML4 := 0
          hhdmOffset := 0
          frames := (bootMachine processorRegion (fun _ => 0)
            HashTable.zero).globals } }

def processorSource : FrameSource (kernelAllocator addressSizeTable 0)
    processorResponses.hhdmOffset :=
  kernelSource addressSizeTable 0 processorRegion (by decide)

theorem below_processorResponses :
    ∀ e ∈ processorResponses.memmap, e.base < _4GB := by
  simp only [processorResponses, List.forall_mem_cons]
  decide

theorem ready_processorKernel : processorSource.Ready 32768
    ⟨processorKernel.mem, processorKernel.globals.paging.frames⟩ [] :=
  ⟨fun _ => 0, HashTable.zero, 0, Or.inl ⟨rfl, rfl⟩, rfl, by decide,
    by simp [PagesBelow]⟩

theorem exists_run_processorTables {n : ℕ} {frames : List Word}
    {s : Machine 64 (PagingGlobals (FrameGlobals HashTable))}
    (hready : processorSource.Ready n ⟨s.mem, s.globals.frames⟩ frames)
    (hn : 12304 ≤ n) :
    ∃ t, (initTables (kernelAllocator addressSizeTable 0) 2048
        processorResponses).run s = .ok () t ∧
      BootTables (r := processorResponses) processorSource (n - 12304) t := by
  have hframes : processorResponses.frames = 12304 := by decide
  obtain ⟨_, t, hrun, ht, -⟩ := (returns_initTables
    bootLayout_processorResponses below_processorResponses le_rfl (by decide)
    hready).exists_run (by omega)
  exact ⟨t, hrun, hframes ▸ ht⟩

theorem root_ne_zero_of_bootTables {n : ℕ}
    {t : Machine 64 (PagingGlobals (FrameGlobals HashTable))}
    (h : BootTables (r := processorResponses) processorSource n t) :
    t.globals.PML4 ≠ 0 := by
  obtain ⟨calls, hmaps, -⟩ := h
  exact hmaps.root_ne_zero

theorem exists_run_bootProcessor :
    ∃ s₁ frames, (initPaging (kernelAllocator addressSizeTable 0) 2048
        processorResponses).run processorKernel = .ok () s₁ ∧
      processorSource.Ready 20464 ⟨s₁.mem, s₁.globals.paging.frames⟩ frames := by
  obtain ⟨t₁, hrun₁, ht₁⟩ := exists_run_processorTables
    (s := ⟨processorKernel.mem, processorKernel.globals.paging⟩)
    ready_processorKernel (by decide)
  have hreturns : (initPaging (kernelAllocator addressSizeTable 0) 2048
      processorResponses).Returns processorKernel False fun _ t =>
        (⟨t.mem, t.globals.paging⟩ : Machine 64 _) = t₁ ∧
          t.globals.cr3 = t.globals.paging.PML4 :=
    returns_initPaging_of (Q := (· = t₁)) rfl
      (.of_ok hrun₁ ⟨rfl, root_ne_zero_of_bootTables ht₁⟩)
  obtain ⟨_, s₁, hboot, heq, -⟩ := hreturns.exists_run id
  rw [← heq] at ht₁
  obtain ⟨calls, hmaps, -⟩ := ht₁
  obtain ⟨frames, owner, hmapped⟩ := hmaps.mapped
  exact ⟨s₁, frames, hboot, hmapped.ready⟩

/-- One application processor has been through `initPaging` after the boot
processor, and more pages can be mapped. -/
theorem exists_run_ownTables :
    ∃ s₁ is s,
      (initPaging (kernelAllocator addressSizeTable 0) 2048
        processorResponses).run processorKernel = .ok () s₁ ∧
      Run (Locked.Step (initPagingBody (kernelAllocator addressSizeTable 0) 2048
        processorResponses)) (sentToPaging s₁ : Locked Unit _ _) is s ∧
      s.word = 0 ∧ s.place () = .after ∧
      BootTables (r := processorResponses) processorSource 8160
        s.shared.machine := by
  obtain ⟨s₁, frames, hboot, hready⟩ := exists_run_bootProcessor
  obtain ⟨t₂, hrun₂, ht₂⟩ := exists_run_processorTables
    (s := ⟨s₁.mem, s₁.globals.paging⟩) hready (by decide)
  have hperforms := performs_of_run (i := ()) (v := (sentToPaging s₁).shared)
    hrun₂ (root_ne_zero_of_bootTables ht₂)
  have hword : s₁.globals.mutex = 0 := by
    obtain ⟨u, -, rfl⟩ := globals_of_initPaging hboot
    rfl
  obtain ⟨is, hrun⟩ := Locked.exists_run_of_performs (s := sentToPaging s₁) hword
    rfl hperforms
  exact ⟨s₁, is, _, hboot, hrun, rfl, by simp, ht₂⟩

theorem tables_of_run_processorKernel :
    ∃ s : Locked Unit
        (PagedProcessors Unit (FrameGlobals HashTable)) PagingPoint,
      s.place () = .after ∧ ∃ root, s.shared.cr3 (some ()) = some root ∧
        KernelTranslates processorResponses s.shared.machine.mem root := by
  obtain ⟨s₁, is, s, hboot, hrun, -, hplace, -⟩ := exists_run_ownTables
  obtain ⟨hafter, -, -, -, htranslates⟩ := tables_of_run processorSource
    bootLayout_processorResponses below_processorResponses le_rfl (by decide)
    ready_processorKernel rfl hboot hrun
  obtain ⟨root, hroot⟩ := hafter () hplace
  exact ⟨s, hplace, root, hroot, htranslates _ root hroot⟩

theorem fitsBoot_samplePage : FitsBoot processorResponses [samplePage] := by
  have hsample : samplePage.virtualAddr.toNat = 0xffff900000001000 := rfl
  have hoffset : processorResponses.hhdmOffset.toNat = 0xffff800000000000 := rfl
  refine ⟨fun c hc d hd _ => ?_, fun c hc d hd heq => ?_⟩
  · rw [List.mem_singleton.1 hc, List.mem_singleton.1 hd]
  · rw [List.mem_singleton.1 hc] at heq ⊢
    rcases hd with hd | hd | hd
    · have hlt := hd.lt
      omega
    · have hlt := hd.lt
      rw [hd.virtualAddr, bootLayout_processorResponses.toNat_direct hlt] at heq
      omega
    · exact hd.small.symm

/-- The boot processor maps a page and does not see it. -/
theorem translate_mapAll_of_run_processorKernel :
    ∃ (s : Locked Unit (PagedProcessors Unit (FrameGlobals HashTable))
        PagingPoint) (t : Machine 64 (PagingGlobals (FrameGlobals HashTable)))
      (root kernel : Word),
      (mapAll (kernelAllocator addressSizeTable 0) [samplePage]).run
          s.shared.machine = .ok [true] t ∧
        s.shared.cr3 (some ()) = some root ∧ s.shared.cr3 none = some kernel ∧
        translate t.mem processorResponses.hhdmOffset root
            samplePage.virtualAddr = some samplePage.physicalAddr ∧
        ∀ v, translate t.mem processorResponses.hhdmOffset kernel v =
          translate s.shared.machine.mem processorResponses.hhdmOffset kernel
            v := by
  obtain ⟨s₁, is, s, hboot, hrun, hword, hplace, htables⟩ := exists_run_ownTables
  obtain ⟨calls, hmaps, hcalls⟩ := htables
  obtain ⟨b, t, hmap, rfl, -⟩ := (returns_map (c := samplePage) hmaps
    fun d hd => fitsBoot_samplePage.boot samplePage (List.mem_singleton_self _) d
      (hcalls.kind d hd)).exists_run (by decide)
  have hall : (mapAll (kernelAllocator addressSizeTable 0) [samplePage]).run
      s.shared.machine = .ok [true] t := by
    rw [mapAll, run_bind_of_ok hmap]
    rfl
  obtain ⟨⟨⟩, root, -, hroot, hpages, hothers⟩ := translate_mapAll_of_run
    processorSource bootLayout_processorResponses below_processorResponses le_rfl
    (by decide) ready_processorKernel rfl hboot hrun hword hplace
    fitsBoot_samplePage hall
  have hkernel := (PagingRun.of_run bootLayout_processorResponses
    below_processorResponses le_rfl (by decide) ready_processorKernel rfl hboot
    hrun).treesLoaded.2.boot
  refine ⟨s, t, root, _, hall, hroot, hkernel, ?_,
    hothers none _ (by simp) hkernel⟩
  rw [hpages _ ⟨samplePage, List.mem_singleton_self _, samplePage.covers_self⟩]
  decide

end OptimistOS
