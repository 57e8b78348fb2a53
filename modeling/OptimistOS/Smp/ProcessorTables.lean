import OptimistOS.Smp.PagingSteps

/-!
# The page tables of the processors

Every application processor builds a tree of its own in `initPaging`, while the
processors that have been there run on theirs. `Idle` is what the lock guards
and `BodyState` what the processor inside relies on; in both, the trees that are
loaded are finished (`TreesLoaded`). Every step of the body keeps this
(`BodyState.step`).
-/

namespace OptimistOS

open ByteMemory ByteMemory.Code Transition

/-- The tree at `root` translates what the kernel relies on. -/
structure KernelTranslates (r : BootResponses) (m : Bytes) (root : Word) :
    Prop where
  identity : ∀ p : Word, p.toNat < 2 ^ 32 →
    translate m r.hhdmOffset root p = some p
  direct : ∀ p : Word, p.toNat < 2 ^ 32 →
    translate m r.hhdmOffset root (p + r.hhdmOffset) = some p
  image : ∀ v ∈ region r.virtualBase r.KERNEL_BLOB_SIZE.toNat,
    translate m r.hhdmOffset root v = some (v - r.virtualBase + r.physicalBase)

def LoadedTree (r : BootResponses) (m : Bytes) (frames : List Word)
    (root : Word) : Prop :=
  ∃ calls, PageTree r.hhdmOffset root m frames calls ∧
    BootCalls r calls 2048 r.pages

theorem LoadedTree.translates {r : BootResponses} {m : Bytes}
    {frames : List Word} {root : Word} (h : LoadedTree r m frames root)
    (hlayout : BootLayout r) : KernelTranslates r m root := by
  obtain ⟨calls, htree, hcalls⟩ := h
  have htranslate := translate_of_viewsCalls htree.views
  refine ⟨fun p hp => ?_, fun p hp => ?_, fun v hv => ?_⟩
  · exact (htranslate p).trans (hcalls.mappedTo_identity hlayout hp)
  · exact (htranslate _).trans (hcalls.mappedTo_direct hlayout hp)
  · exact (htranslate v).trans (hcalls.mappedTo_image hlayout hv)

section

variable {ι α : Type} {A : FrameAllocator α} {r : BootResponses}
  {S : FrameSource A r.hhdmOffset} {kernel : Word} {base : List Word}
  {m₀ : Bytes} {n : ℕ} {calls : List PageMapping} {v : PagedProcessors ι α}

/-- The boot processor runs on the tree at `kernel`, which is `kernelPML4`, and
no two processors run on the same tree. -/
structure Registers (kernel : Word) (v : PagedProcessors ι α) : Prop where
  ne_zero : kernel ≠ 0
  boot : v.cr3 none = some kernel
  kernelPML4 : v.machine.globals.kernelPML4 = kernel
  apart : ∀ p q root, v.cr3 p = some root → v.cr3 q = some root → p = q

/-- Nobody is inside: the tree at `PML4` was built last, on top of the frames of
the others. -/
structure Idle (S : FrameSource A r.hhdmOffset) (kernel : Word)
    (base : List Word) (m₀ : Bytes) (n : ℕ) (calls : List PageMapping)
    (v : PagedProcessors ι α) : Prop where
  registers : Registers kernel v
  others : ∀ p root, v.cr3 p = some root → root ≠ v.machine.globals.PML4 →
    LoadedTree r m₀ base root
  current : MapsCalls (S.beyond base m₀) v.machine.globals.PML4 n v.machine calls
  pages : BootCalls r calls 2048 r.pages
  last : (∀ i, v.cr3 (some i) = none) ∨
    ∃ i, v.cr3 (some i) = some v.machine.globals.PML4

/-- What the lock guards. -/
def TablesIdle (S : FrameSource A r.hhdmOffset) (kernel : Word)
    (v : PagedProcessors ι α) : Prop :=
  ∃ base m₀ n calls, Idle S kernel base m₀ n calls v

/-- A tree is being built; those that are loaded lie in `base`. -/
structure Building (S : FrameSource A r.hhdmOffset) (kernel : Word)
    (base : List Word) (m₀ : Bytes) (n : ℕ) (calls : List PageMapping)
    (v : PagedProcessors ι α) : Prop where
  registers : Registers kernel v
  others : ∀ p root, v.cr3 p = some root → LoadedTree r m₀ base root
  current : MapsCalls (S.beyond base m₀) v.machine.globals.PML4 n v.machine calls

inductive Mapping (r : BootResponses) (calls : List PageMapping) :
    PagingPoint → Prop
  | identity {j : ℕ} (hj : j ≤ 2048) (h : BootCalls r calls j 0) :
      Mapping r calls (.identity (BitVec.ofNat 64 j * _2MB))
  | direct {j : ℕ} (hj : j < 2048) (h : BootCalls r calls j 0)
      (hmem : identityCall j hj ∈ calls) :
      Mapping r calls (.direct (BitVec.ofNat 64 j * _2MB))
  | memmap (h : BootCalls r calls 2048 0) : Mapping r calls .memmap
  | kernel {j : ℕ} (hj : j ≤ r.pages) (h : BootCalls r calls 2048 j) :
      Mapping r calls
        (.kernel (r.virtualBase + BitVec.ofNat 64 j * pageSize4KB))
  | load (h : BootCalls r calls 2048 r.pages) : Mapping r calls .load

inductive BodyState (S : FrameSource A r.hhdmOffset) (kernel : Word) (i : ι) :
    PagingPoint → PagedProcessors ι α → Prop
  | init {v : PagedProcessors ι α} (h : TablesIdle S kernel v) :
      BodyState S kernel i .init v
  | building {v : PagedProcessors ι α} {t : PagingPoint} {base : List Word}
      {m₀ : Bytes} {n : ℕ} {calls : List PageMapping}
      (h : Building S kernel base m₀ n calls v) (ht : Mapping r calls t) :
      BodyState S kernel i t v
  | unlock {v : PagedProcessors ι α} (h : TablesIdle S kernel v)
      (hcr3 : ∃ root, v.cr3 (some i) = some root) :
      BodyState S kernel i .unlock v

def TreesLoaded (S : FrameSource A r.hhdmOffset) (v : PagedProcessors ι α) :
    Prop :=
  ∃ n frames, S.Ready n ⟨v.machine.mem, v.machine.globals.frames⟩ frames ∧
    ∀ p root, v.cr3 p = some root → LoadedTree r v.machine.mem frames root

theorem Building.treesLoaded (h : Building S kernel base m₀ n calls v) :
    TreesLoaded S v := by
  obtain ⟨frames, hready, -, -⟩ := h.current.exists_frames
  refine ⟨n, frames ++ base, hready.ready, fun p root hp => ?_⟩
  obtain ⟨calls', htree, hcalls⟩ := h.others p root hp
  exact ⟨calls', hready.tree htree, hcalls⟩

theorem Idle.treesLoaded (h : Idle S kernel base m₀ n calls v) :
    TreesLoaded S v := by
  obtain ⟨frames, hready, -, htree⟩ := h.current.exists_frames
  refine ⟨n, frames ++ base, hready.ready, fun p root hp => ?_⟩
  by_cases hroot : root = v.machine.globals.PML4
  · exact ⟨calls, hroot ▸ htree, h.pages⟩
  · obtain ⟨calls', htree', hcalls⟩ := h.others p root hp hroot
    exact ⟨calls', hready.tree htree', hcalls⟩

theorem BodyState.treesLoaded {i : ι} {t : PagingPoint}
    (h : BodyState S kernel i t v) : TreesLoaded S v ∧ Registers kernel v := by
  cases h with
  | init h | unlock h =>
      obtain ⟨base, m₀, n, calls, h⟩ := h
      exact ⟨h.treesLoaded, h.registers⟩
  | building h => exact ⟨h.treesLoaded, h.registers⟩

theorem kernelPML4_of_startTables {s t : Machine 64 (PagingGlobals α)}
    (hne : s.globals.kernelPML4 ≠ 0)
    (h : (startTables A r).run s = .ok () t) :
    t.globals.kernelPML4 = s.globals.kernelPML4 := by
  obtain ⟨_, u, hinit, h⟩ := run_bind_eq_ok.1 h
  rw [run_modifyGlobals, EStateM.Result.ok.injEq] at h
  obtain ⟨f, u₁, hframe, hinit⟩ := run_bind_eq_ok.1 hinit
  obtain ⟨u₂, -, rfl⟩ := run_zoom_eq_ok.1 hframe
  rw [EStateM.run_bind, run_modifyGlobals] at hinit
  dsimp only at hinit
  rw [EStateM.run_bind, EStateM.run_get] at hinit
  dsimp only at hinit
  rw [if_neg hne, EStateM.run_pure, EStateM.Result.ok.injEq] at hinit
  rw [← h.2, ← hinit.2]

theorem TreesLoaded.startTables {t : Machine 64 (PagingGlobals α)}
    (h : TreesLoaded S v) (hregisters : Registers kernel v)
    (hrun : (startTables A r).run v.machine = .ok () t) :
    ∃ base m₀ n, Building S kernel base m₀ n [] { v with machine := t } := by
  obtain ⟨n, frames, hready, hloaded⟩ := h
  have hkernel : t.globals.kernelPML4 = kernel :=
    (kernelPML4_of_startTables (hregisters.kernelPML4.symm ▸ hregisters.ne_zero)
      hrun).trans hregisters.kernelPML4
  obtain ⟨_, u, hinit, hoffset⟩ := run_bind_eq_ok.1 hrun
  rw [run_modifyGlobals, EStateM.Result.ok.injEq] at hoffset
  obtain rfl := hoffset.2
  have hmaps := ((returns_init (FrameSource.ready_beyond hready)).of_run hinit).1
  exact ⟨frames, v.machine.mem, n - 1, ⟨hregisters.ne_zero, hregisters.boot,
    hkernel, hregisters.apart⟩, hloaded, hmaps.setOffset r.hhdmOffset⟩

theorem Building.mapPage {c : PageMapping} {t : Machine 64 (PagingGlobals α)}
    (h : Building S kernel base m₀ n calls v)
    (hsize : ∀ d ∈ calls,
      c.virtualAddr.toNat / 2 ^ 21 = d.virtualAddr.toNat / 2 ^ 21 →
        c.large = d.large)
    (hrun : (mapPage A c.physicalAddr c.virtualAddr c.flags).run v.machine =
      .ok () t) :
    Building S kernel base m₀ (n - 3) (calls ++ [c]) { v with machine := t } := by
  obtain ⟨b, u, hmap, hpure⟩ := run_bind_eq_ok.1 hrun
  rw [EStateM.run_pure, EStateM.Result.ok.injEq] at hpure
  obtain rfl := hpure.2
  obtain ⟨-, hglobals, hmaps⟩ := (returns_map h.current hsize).of_run hmap
  have hPML4 : u.globals.PML4 = v.machine.globals.PML4 := by rw [hglobals]
  have hkernel : u.globals.kernelPML4 = v.machine.globals.kernelPML4 := by
    rw [hglobals]
  exact ⟨⟨h.registers.ne_zero, h.registers.boot,
    hkernel.trans h.registers.kernelPML4, h.registers.apart⟩, h.others,
    hPML4.symm ▸ hmaps⟩

theorem BootCalls.snoc_identity {j : ℕ} (hb : BootCalls r calls j 0)
    (hj : j < 2048) : BootCalls r (calls ++ [identityCall j hj]) j 0 := by
  have hidentity : IdentityPage (identityCall j hj) :=
    ⟨rfl, rfl, (toNat_mul_2MB hj.le).trans_lt (by omega)⟩
  refine ⟨fun c hc => ?_, fun i hi => ?_, fun i hi => ?_, by simp⟩
  · rcases List.mem_append.1 hc with hc | hc
    · exact hb.kind c hc
    · exact .inl (List.mem_singleton.1 hc ▸ hidentity)
  · obtain ⟨c, hc, hc'⟩ := hb.identity i hi
    exact ⟨c, List.mem_append_left _ hc, hc'⟩
  · obtain ⟨c, hc, hc'⟩ := hb.direct i hi
    exact ⟨c, List.mem_append_left _ hc, hc'⟩

theorem BootCalls.snoc_direct {j : ℕ} (hb : BootCalls r calls j 0)
    (h : BootLayout r) (hj : j < 2048) (hmem : identityCall j hj ∈ calls) :
    BootCalls r (calls ++ [h.directCall j hj]) (j + 1) 0 := by
  have hidentity : IdentityPage (identityCall j hj) :=
    ⟨rfl, rfl, (toNat_mul_2MB hj.le).trans_lt (by omega)⟩
  have hdirect : DirectPage r (h.directCall j hj) :=
    ⟨rfl, rfl, (toNat_mul_2MB hj.le).trans_lt (by omega)⟩
  refine ⟨fun c hc => ?_, fun i hi => ?_, fun i hi => ?_, by simp⟩
  · rcases List.mem_append.1 hc with hc | hc
    · exact hb.kind c hc
    · exact .inr (.inl (List.mem_singleton.1 hc ▸ hdirect))
  · rcases Nat.lt_succ_iff_lt_or_eq.1 hi with hlt | rfl
    · obtain ⟨c, hc, hc'⟩ := hb.identity i hlt
      exact ⟨c, List.mem_append_left _ hc, hc'⟩
    · exact ⟨_, List.mem_append_left _ hmem, hidentity, rfl⟩
  · rcases Nat.lt_succ_iff_lt_or_eq.1 hi with hlt | rfl
    · obtain ⟨c, hc, hc'⟩ := hb.direct i hlt
      exact ⟨c, List.mem_append_left _ hc, hc'⟩
    · exact ⟨h.directCall i hj, by simp, hdirect, rfl⟩

theorem identity_lt_iff {j : ℕ} (hj : j ≤ 2048) :
    BitVec.ofNat 64 j * _2MB < _4GB ↔ j < 2048 := by
  have hsize : _4GB.toNat = 2 ^ 32 := by decide
  rw [BitVec.lt_def, toNat_mul_2MB hj, hsize]
  omega

theorem BootLayout.kernelStart_eq (h : BootLayout r) :
    r.kernelStart = r.virtualBase := by
  rw [BootResponses.kernelStart, ← h.virtualBase_eq]
  exact roundDown_4KB_of_mod h.virtual_aligned

theorem BootLayout.kernel_lt_iff (h : BootLayout r) {j : ℕ} (hj : j ≤ r.pages) :
    r.virtualBase + BitVec.ofNat 64 j * pageSize4KB < r.kernelEnd ↔
      j < r.pages := by
  have hfits := h.virtual_fits
  have hsize : r.KERNEL_BLOB_SIZE + (r.KERNEL_BLOB_BEGIN - r.virtualBase) =
      r.KERNEL_BLOB_SIZE := by
    rw [h.virtualBase_eq, BitVec.sub_self]
    exact BitVec.add_zero _
  rw [BootResponses.kernelEnd, h.kernelStart_eq, hsize, BitVec.lt_def,
    BitVec.toNat_add, BitVec.toNat_add, toNat_mul_4KB (by omega)]
  rw [BootResponses.pages] at hj hfits ⊢
  rw [toNat_roundUp_4KB (by omega)]
  omega

theorem Building.bodyState_identity {i : ι}
    {x : PagingPoint × PagedProcessors ι α} [DecidableEq ι] {fuel j : ℕ}
    (h : Building S kernel base m₀ n calls v) (hj : j ≤ 2048)
    (hcalls : BootCalls r calls j 0)
    (hstep : pagingStep A fuel r i (.identity (BitVec.ofNat 64 j * _2MB)) v =
      some x) : BodyState S kernel i x.1 x.2 := by
  rw [pagingStep] at hstep
  split_ifs at hstep with hlt
  · rw [identity_lt_iff hj] at hlt
    obtain ⟨t, hrun, rfl⟩ := call_eq_some hstep
    refine .building (h.mapPage (c := identityCall j hlt)
      (fun d hd _ => (hcalls.large d hd).symm) hrun) ?_
    exact .direct hlt (hcalls.snoc_identity hlt) (by simp)
  · rw [identity_lt_iff hj] at hlt
    obtain rfl : j = 2048 := by omega
    obtain rfl := Option.some.inj hstep
    exact .building h (.memmap hcalls)

theorem Building.bodyState_direct {i : ι} {x : PagingPoint × PagedProcessors ι α}
    [DecidableEq ι] {fuel j : ℕ} (hlayout : BootLayout r)
    (h : Building S kernel base m₀ n calls v) (hj : j < 2048)
    (hcalls : BootCalls r calls j 0) (hmem : identityCall j hj ∈ calls)
    (hstep : pagingStep A fuel r i (.direct (BitVec.ofNat 64 j * _2MB)) v =
      some x) : BodyState S kernel i x.1 x.2 := by
  obtain ⟨t, hrun, rfl⟩ := call_eq_some hstep
  have hnext : BitVec.ofNat 64 j * _2MB + _2MB =
      BitVec.ofNat 64 (j + 1) * _2MB := by
    rw [BitVec.ofNat_add, BitVec.add_mul]
    rw [BitVec.one_mul]
  refine .building (h.mapPage (c := hlayout.directCall j hj)
    (fun d hd _ => (hcalls.large d hd).symm) hrun) ?_
  rw [hnext]
  exact .identity hj (hcalls.snoc_direct hlayout hj hmem)

theorem Building.bodyState_kernel {i : ι} {x : PagingPoint × PagedProcessors ι α}
    [DecidableEq ι] {fuel j : ℕ} (hlayout : BootLayout r)
    (h : Building S kernel base m₀ n calls v) (hj : j ≤ r.pages)
    (hcalls : BootCalls r calls 2048 j)
    (hstep : pagingStep A fuel r i
      (.kernel (r.virtualBase + BitVec.ofNat 64 j * pageSize4KB)) v = some x) :
    BodyState S kernel i x.1 x.2 := by
  rw [pagingStep] at hstep
  split_ifs at hstep with hlt
  · rw [hlayout.kernel_lt_iff hj] at hlt
    obtain ⟨t, hrun, rfl⟩ := call_eq_some hstep
    have hnext : r.virtualBase + BitVec.ofNat 64 j * pageSize4KB + pageSize4KB =
        r.virtualBase + BitVec.ofNat 64 (j + 1) * pageSize4KB := by
      rw [BitVec.ofNat_add, BitVec.add_mul, BitVec.one_mul, BitVec.add_assoc]
    refine .building (h.mapPage (c := hlayout.imageCall j hlt)
      (hcalls.large_eq_of_image hlayout hlt) hrun) ?_
    rw [hnext]
    exact .kernel hlt (hcalls.snoc_image hlayout hlt)
  · rw [hlayout.kernel_lt_iff hj] at hlt
    obtain rfl : j = r.pages := by omega
    obtain rfl := Option.some.inj hstep
    exact .building h (.load hcalls)

/-- The processor loads its own tree, whose top level table is none of the
others'. -/
theorem Building.load [DecidableEq ι]
    (h : Building S kernel base m₀ n calls v)
    (hcalls : BootCalls r calls 2048 r.pages) (i : ι) :
    Idle S kernel base m₀ n calls
      { v with
        cr3 := Function.update v.cr3 (some i)
          (some v.machine.globals.PML4) } := by
  obtain ⟨frames, hready, hmem, -⟩ := h.current.exists_frames
  have hnot : ∀ p, v.cr3 p ≠ some v.machine.globals.PML4 := by
    intro p hp
    obtain ⟨calls', htree, -⟩ := h.others p _ hp
    exact hready.notMem _ hmem htree.root_mem
  refine ⟨⟨h.registers.ne_zero, ?_, h.registers.kernelPML4, ?_⟩, ?_, h.current,
    hcalls, .inr ⟨i, Function.update_self _ _ _⟩⟩
  · have hne : (none : Option ι) ≠ some i := by simp
    exact (Function.update_of_ne hne (some v.machine.globals.PML4) v.cr3).trans
      h.registers.boot
  · intro p q root hp hq
    rcases of_update_eq hp with ⟨rfl, hroot⟩ | ⟨-, hp⟩ <;>
      rcases of_update_eq hq with ⟨rfl, hroot'⟩ | ⟨-, hq⟩
    · rfl
    · exact absurd (hq.trans hroot.symm) (hnot q)
    · exact absurd (hp.trans hroot'.symm) (hnot p)
    · exact h.registers.apart p q root hp hq
  · intro p root hp hne
    rcases of_update_eq hp with ⟨-, hroot⟩ | ⟨-, hp⟩
    · exact absurd (Option.some.inj hroot).symm hne
    · exact h.others p root hp

/-- Every step of the body. -/
theorem BodyState.step [DecidableEq ι] {i : ι} {t : PagingPoint} {fuel : ℕ}
    {x : PagingPoint × PagedProcessors ι α} (hlayout : BootLayout r)
    (hmemmap : ∀ e ∈ r.memmap, e.base < _4GB) (h : BodyState S kernel i t v)
    (hended : (initPagingBody A fuel r : Bodies ι _ _).ended t = false)
    (hstep : (initPagingBody A fuel r).step i t v = some x) :
    BodyState S kernel i x.1 x.2 := by
  change pagingStep A fuel r i t v = some x at hstep
  cases h with
  | init h =>
      obtain ⟨base, m₀, n, calls, h⟩ := h
      obtain ⟨u, hrun, rfl⟩ := call_eq_some hstep
      obtain ⟨base', m₁, k, hbuilding⟩ := h.treesLoaded.startTables h.registers hrun
      exact .building hbuilding (.identity (j := 0) (by omega) (bootCalls_nil r))
  | building h ht =>
      cases ht with
      | identity hj hcalls => exact h.bodyState_identity hj hcalls hstep
      | direct hj hcalls hmem =>
          exact h.bodyState_direct hlayout hj hcalls hmem hstep
      | memmap hcalls =>
          obtain ⟨u, hrun, rfl⟩ := call_eq_some hstep
          rw [run_mapMemmap_of_lt hmemmap, EStateM.Result.ok.injEq] at hrun
          obtain rfl := hrun.2
          have hkernel := Mapping.kernel (j := 0) (by omega) hcalls
          rw [BitVec.zero_mul, BitVec.add_zero, ← hlayout.kernelStart_eq] at hkernel
          exact .building h hkernel
      | kernel hj hcalls => exact h.bodyState_kernel hlayout hj hcalls hstep
      | load hcalls =>
          rw [pagingStep] at hstep
          split_ifs at hstep
          obtain rfl := Option.some.inj hstep
          exact .unlock ⟨_, _, _, _, h.load hcalls i⟩
            ⟨_, Function.update_self _ _ _⟩
  | unlock => exact absurd hended (by simp [initPagingBody])

end

end OptimistOS
