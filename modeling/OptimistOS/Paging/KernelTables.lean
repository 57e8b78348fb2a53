import OptimistOS.Paging.NewPML4
import OptimistOS.Paging.OtherTables

/-!
# The tables among the other frames

The code above the tables asks the same allocator for frames of its own. A call
for frames, of `map` or of `newPML4` leaves the bytes of frames that were handed
out to somebody else as they were (`LeavesBeside`), and what is written to such
frames leaves the tables in order (`TablesBeside.write`).
-/

namespace OptimistOS

open ByteMemory ByteMemory.Code

/-- The tables are in order. -/
def TablesReady {τ : Type} (T : SizeTable τ) (fuel : ℕ) (R : UsableRegion)
    (hlow : R.start.toNat + R.length.toNat ≤ 2 ^ 52)
    (t : Machine 64 (PagingGlobals (FrameGlobals τ))) : Prop :=
  ∃ frames level,
    Leveled (kernelSource T fuel R hlow) t.globals.PML4 0 t frames level

def TablesBeside {τ : Type} (T : SizeTable τ) (fuel : ℕ) (R : UsableRegion)
    (hlow : R.start.toNat + R.length.toNat ≤ 2 ^ 52) (base : List Word)
    (t : Machine 64 (PagingGlobals (FrameGlobals τ))) : Prop :=
  ∃ frames level, Leveled ((kernelSource T fuel R hlow).beyond base t.mem)
    t.globals.PML4 0 t frames level

/-- From `t` to `t'` the frames in `base` have not changed, and the tables are
still in order. -/
structure LeavesBeside {τ : Type} (T : SizeTable τ) (fuel : ℕ)
    (R : UsableRegion) (hlow : R.start.toNat + R.length.toNat ≤ 2 ^ 52)
    (base : List Word) (t t' : Machine 64 (PagingGlobals (FrameGlobals τ))) :
    Prop where
  tables : TablesBeside T fuel R hlow base t'
  kept : ∀ x ∈ frameBytes R.hhdmOffset base, t'.mem x = t.mem x

theorem Levels.congr {hhdmOffset root : Word} {m m' : Bytes} {frames : List Word}
    {level : Word → Option ℕ} (h : Levels hhdmOffset root m frames level)
    (hm : ∀ u ∈ frames, ∀ j,
      tableEntry m' hhdmOffset u j = tableEntry m hhdmOffset u j) :
    Levels hhdmOffset root m' frames level := by
  refine ⟨h.frame, h.owned, h.level_root, fun u k i hu hvalid hpage => ?_⟩
  rw [hm u (h.owned u _ hu)] at hvalid hpage ⊢
  exact h.below u k i hu hvalid hpage

theorem UsableRegion.mem_pages {R : UsableRegion} {o k j : ℕ} (hj : j < k) :
    R.start + BitVec.ofNat 64 (o + 4096 * j) ∈ R.pages o k :=
  List.mem_map.2 ⟨j, List.mem_range.2 hj, rfl⟩

theorem UsableRegion.region_subset_pages (R : UsableRegion) (o k : ℕ)
    (hk : 4096 * k ≤ 2 ^ 64) :
    region (R.addr o) (4096 * k) ⊆ frameBytes R.hhdmOffset (R.pages o k) := by
  intro x hx
  obtain ⟨i, hi, rfl⟩ := (mem_region_iff_exists _ x hk).1 hx
  have hj : i / 4096 < k := by omega
  have hlt : i % 4096 < 4096 := Nat.mod_lt i (by decide)
  have hsplit : R.addr o + BitVec.ofNat 64 i =
      R.addr (o + 4096 * (i / 4096)) + BitVec.ofNat 64 (i % 4096) := by
    rw [UsableRegion.addr, UsableRegion.addr, add_ofNat_add_ofNat,
      add_ofNat_add_ofNat, Nat.add_assoc, Nat.div_add_mod]
  refine ⟨_, R.mem_pages hj, ?_⟩
  rw [R.start_add, hsplit]
  exact add_ofNat_mem_region _ hlt (by decide)

section

variable {τ : Type} {T : SizeTable τ} {fuel n : ℕ} {R : UsableRegion}
  {hlow : R.start.toNat + R.length.toNat ≤ 2 ^ 52} {base frames : List Word}
  {m₀ : Bytes} {level : Word → Option ℕ} {root : Word}
  {t t' : Machine 64 (PagingGlobals (FrameGlobals τ))}

theorem Leveled.run_toVirtualAddr {S : FrameSource (kernelAllocator T fuel)
      R.hhdmOffset} (h : Leveled S root n t frames level) (addr : Word) :
    ∃ a, (callFrames (OptimistOS.toVirtualAddr addr)).run t = .ok a t := by
  by_cases haddr : addr = -1
  · subst haddr
    exact ⟨0, rfl⟩
  · exact ⟨_, h.toVirtualAddr haddr⟩

theorem Leveled.run_toPhysicalAddr {S : FrameSource (kernelAllocator T fuel)
      R.hhdmOffset} (h : Leveled S root n t frames level)
    (hback : TakesBack S OptimistOS.toPhysicalAddr) (addr : Addr) :
    (callFrames (OptimistOS.toPhysicalAddr addr)).run t =
      .ok (addr - R.hhdmOffset) t :=
  run_callFrames_ok (hback _ _ _ h.ready
    (List.ne_nil_of_mem h.levels.root_mem) addr)

variable (T fuel R hlow base m₀) in
theorem takesBack_beyond :
    TakesBack ((kernelSource T fuel R hlow).beyond base m₀)
      OptimistOS.toPhysicalAddr :=
  fun n s _ h hne a => takesBack_kernelSource T fuel R hlow n s _ h.ready
    (fun hnil => hne (List.append_eq_nil_iff.1 hnil).1) a

theorem Leveled.leavesBeside
    (h : Leveled ((kernelSource T fuel R hlow).beyond base t.mem)
      t'.globals.PML4 n t' frames level) :
    LeavesBeside T fuel R hlow base t t' := by
  have hready : ReadyBeyond (kernelSource T fuel R hlow) base t.mem n
    ⟨t'.mem, t'.globals.frames⟩ frames := h.ready
  refine ⟨⟨frames, level, ⟨?_, h.levels⟩⟩, hready.kept⟩
  exact ⟨(kernelSource T fuel R hlow).mono _ _ _ _ hready.ready (Nat.zero_le n),
    hready.notMem, fun _ _ => rfl⟩

namespace TablesBeside

theorem allocateFrame {size f : Word} (h : TablesBeside T fuel R hlow base t)
    (hrun : (callFrames (OptimistOS.allocateFrame T fuel size)).run t =
      .ok f t') :
    f ≠ -1 ∧
      (∃ o ≤ R.length.toNat, o % 4096 = 0 ∧ f + R.hhdmOffset = R.addr o) ∧
      LeavesBeside T fuel R hlow base t t' := by
  obtain ⟨frames, level, hlevels⟩ := h
  have hready : ReadyBeyond (kernelSource T fuel R hlow) base t.mem 0
    ⟨t.mem, t.globals.frames⟩ frames := hlevels.ready
  have hframes : FramesReady R 0 ⟨t.mem, t.globals.frames⟩ (frames ++ base) :=
    hready.ready
  obtain ⟨u, hu, rfl⟩ := run_zoom_eq_ok.1 hrun
  have hmod := roundUpToPageBoundary_mod size
  obtain ⟨hf, ho, hready', hkept⟩ := (hframes.allocateFrame T fuel
    (k := (roundUpToPageBoundary size).toNat / 4096) (by omega)).of_run hu
  rw [frameBytes_append] at hkept
  have hbeside : Leveled ((kernelSource T fuel R hlow).beyond base t.mem)
      t.globals.PML4 0 ⟨u.mem, { t.globals with frames := u.globals }⟩ frames
        level := by
    refine ⟨⟨?_, hready.notMem, fun x hx => hkept x (Or.inr hx)⟩,
      hlevels.levels.congr fun v hv j => ?_⟩
    · exact hready'.mono (Nat.zero_le _)
    · exact tableEntry_congr (fun x hx => hkept x (Or.inl hx)) hv j
  exact ⟨hf, ho, hbeside.leavesBeside⟩

theorem toVirtualAddr {addr a : Word} (h : TablesBeside T fuel R hlow base t)
    (hrun : (callFrames (OptimistOS.toVirtualAddr addr)).run t = .ok a t') :
    t' = t ∧ (addr ≠ -1 → a = addr + R.hhdmOffset) := by
  obtain ⟨frames, level, hlevels⟩ := h
  constructor
  · obtain ⟨b, hb⟩ := hlevels.run_toVirtualAddr addr
    rw [hrun, EStateM.Result.ok.injEq] at hb
    exact hb.2
  · intro haddr
    have hb : (callFrames (OptimistOS.toVirtualAddr addr)).run t = _ :=
      hlevels.toVirtualAddr haddr
    rw [hrun, EStateM.Result.ok.injEq] at hb
    exact hb.1

theorem toPhysicalAddr {addr a : Addr} (h : TablesBeside T fuel R hlow base t)
    (hrun : (callFrames (OptimistOS.toPhysicalAddr addr)).run t = .ok a t') :
    t' = t := by
  obtain ⟨frames, level, hlevels⟩ := h
  have hb := hlevels.run_toPhysicalAddr (takesBack_beyond T fuel R hlow base
    t.mem) addr
  rw [hrun, EStateM.Result.ok.injEq] at hb
  exact hb.2

theorem map {physicalAddr v flags : Word} {b : Bool}
    (h : TablesBeside T fuel R hlow base t)
    (hlarge : flags &&& PageTableFlag.largerPages ≠ 0)
    (hrun : (OptimistOS.map (kernelAllocator T fuel) physicalAddr v flags).run
      t = .ok b t') : LeavesBeside T fuel R hlow base t t' := by
  obtain ⟨frames, level, hlevels⟩ := h
  obtain ⟨-, frames', level', hlevels', hgrows⟩ := (returns_map_levels hlevels
    rfl physicalAddr v (fun hzero => absurd hzero hlarge)).of_run hrun
  have hPML4 : t'.globals.PML4 = t.globals.PML4 := by rw [hgrows.globals]
  exact Leveled.leavesBeside (hPML4.symm ▸ hlevels')

theorem newPML4 {p : Word} (h : TablesBeside T fuel R hlow base t)
    (hrun : (OptimistOS.newPML4 (kernelAllocator T fuel)
      OptimistOS.toPhysicalAddr).run t = .ok p t') :
    LeavesBeside T fuel R hlow base t t' := by
  obtain ⟨frames, level, hlevels⟩ := h
  obtain ⟨hcopy, -, hlevels'⟩ := (returns_newPML4 hlevels rfl
    (takesBack_beyond T fuel R hlow base t.mem)).of_run hrun
  have hPML4 : t'.globals.PML4 = t.globals.PML4 := by rw [hcopy.globals]
  exact Leveled.leavesBeside (hPML4.symm ▸ hlevels')

theorem write {m' : Bytes} (h : TablesBeside T fuel R hlow base t)
    (hm : AgreeOff (frameBytes R.hhdmOffset base) t.mem m') :
    TablesBeside T fuel R hlow base ⟨m', t.globals⟩ := by
  obtain ⟨frames, level, hlevels⟩ := h
  have hready : ReadyBeyond (kernelSource T fuel R hlow) base t.mem 0
    ⟨t.mem, t.globals.frames⟩ frames := hlevels.ready
  have hdisjoint := disjoint_frameBytes
    ((kernelSource T fuel R hlow).frame _ _ _ hready.ready) hready.notMem
  refine ⟨frames, level, ⟨(kernelSource T fuel R hlow).write _ _ _ _
    hready.ready (hm.mono ?_), hready.notMem, fun _ _ => rfl⟩,
    hlevels.levels.congr fun v hv j => ?_⟩
  · rw [frameBytes_append]
    exact Set.subset_union_right
  · exact tableEntry_congr (fun x hx =>
      (hm x (Set.disjoint_left.1 hdisjoint hx)).symm) hv j

theorem allocatePages {size f : Word} {k : ℕ}
    (h : TablesBeside T fuel R hlow [] t)
    (hk : (roundUpToPageBoundary size).toNat = 4096 * k)
    (hrun : (callFrames (OptimistOS.allocateFrame T fuel size)).run t =
      .ok f t') :
    ∃ o, o % 4096 = 0 ∧ o + 4096 * k ≤ R.length.toNat ∧ f ≠ -1 ∧
      f + R.hhdmOffset = R.addr o ∧
      (∀ x ∈ region (R.addr o) (4096 * k), t'.mem x = 0) ∧
      TablesBeside T fuel R hlow (R.pages o k) t' := by
  obtain ⟨frames, level, hlevels⟩ := h
  have hready : ReadyBeyond (kernelSource T fuel R hlow) [] t.mem 0
    ⟨t.mem, t.globals.frames⟩ frames := hlevels.ready
  have hframes : FramesReady R 0 ⟨t.mem, t.globals.frames⟩ (frames ++ []) :=
    hready.ready
  rw [List.append_nil] at hframes
  obtain ⟨u, hu, rfl⟩ := run_zoom_eq_ok.1 hrun
  obtain ⟨o, hfresh, hready'⟩ := (hframes.allocatePages T fuel hk).of_run hu
  have hroom := hfresh.room
  refine ⟨o, hfresh.aligned, hroom, ?_, ?_, hfresh.zero, frames, level,
    ⟨?_, fun g hg hg' => hfresh.notMem g hg' hg, fun _ _ => rfl⟩,
    hlevels.levels.congr fun v hv j => tableEntry_congr hfresh.kept hv j⟩
  · exact hfresh.eq ▸ R.start_add_ne hfresh.aligned (by omega)
  · exact hfresh.eq ▸ R.start_add o
  · refine (hready'.mono (Nat.zero_le _)).subset fun g hg => ?_
    exact List.mem_append.2 (List.mem_append.1 hg).symm

end TablesBeside

end

end OptimistOS
