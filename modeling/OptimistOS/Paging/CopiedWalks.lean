import OptimistOS.Paging.Sharing

/-!
# The walks under a new top level table

What `newPML4` does to the translation, for any tree under the current top level
table: when the allocator hands out a blank page apart from the tables of the
tree, the addresses of entry 0 and of the upper half are translated as before,
those in between are not present, and the current table translates everything as
before (`copiesWalks_newPML4`). The kernel's allocator hands out such pages
(`Mapped.grantsTable`).
-/

namespace OptimistOS

open ByteMemory ByteMemory.Code RadixTree PageDirectoryEntry

def IsTableOf (m : Bytes) (hhdmOffset root t : Word) : Prop :=
  ∃ p, p.length ≤ 3 ∧ follow childTable (tableEntry m hhdmOffset) root p = some t

/-- Every table of the tree is a page. -/
def WellFormedTree (m : Bytes) (hhdmOffset root : Word) : Prop :=
  ∀ t, IsTableOf m hhdmOffset root t → t.toNat % 4096 = 0

/-- A call of `allocateFrame` from `s` returns the blank page `f`, apart from the
tables of the current tree, which it leaves alone. Physical addresses and
pointers are `hhdmOffset` apart. -/
structure GrantsTable {α : Type} (A : FrameAllocator α)
    (toPhysicalAddr : Addr → Code 64 α Word) (hhdmOffset : Word)
    (s : Machine 64 (PagingGlobals α)) (f : Word) (s₁ : Machine 64 α) :
    Prop where
  run : (A.allocateFrame 0x1000).run ⟨s.mem, s.globals.frames⟩ = .ok f s₁
  aligned : f.toNat % 4096 = 0
  zero : ∀ x ∈ region (f + hhdmOffset) 4096, s₁.mem x = 0
  disjoint : ∀ t, IsTableOf s.mem hhdmOffset s.globals.PML4 t →
    Disjoint (region (f + hhdmOffset) 4096) (region (t + hhdmOffset) 4096)
  kept : ∀ t, IsTableOf s.mem hhdmOffset s.globals.PML4 t →
    ∀ x ∈ region (t + hhdmOffset) 4096, s₁.mem x = s.mem x
  toVirtualAddr : ∀ a, a ≠ -1 →
    (A.toVirtualAddr a).run s₁ = .ok (a + hhdmOffset) s₁
  toPhysicalAddr : ∀ m, AgreeOff (region (f + hhdmOffset) 4096) s₁.mem m →
    ∀ a, (toPhysicalAddr a).run ⟨m, s₁.globals⟩ =
      .ok (a - hhdmOffset) ⟨m, s₁.globals⟩

/-- The walks in `s'` under the top level table `p`, compared with those in `s`
under `root`. -/
structure CopiesWalks {α : Type} (hhdmOffset root : Word)
    (s : Machine 64 (PagingGlobals α)) (p : Word)
    (s' : Machine 64 (PagingGlobals α)) : Prop where
  copied : ∀ v, (levelIndex v 3).toNat = 0 ∨ 256 ≤ (levelIndex v 3).toNat →
    translate s'.mem hhdmOffset p v = translate s.mem hhdmOffset root v
  absent : ∀ v, 1 ≤ (levelIndex v 3).toNat → (levelIndex v 3).toNat ≤ 255 →
    isPresent (tableEntry s'.mem hhdmOffset p (levelIndex v 3)) = false ∧
      translate s'.mem hhdmOffset p v = none
  kept : ∀ v,
    translate s'.mem hhdmOffset root v = translate s.mem hhdmOffset root v

theorem translate_congr_of_isTableOf {m m' : Bytes} {hhdmOffset root : Word}
    (h : ∀ t, IsTableOf m hhdmOffset root t → ∀ i,
      tableEntry m' hhdmOffset t i = tableEntry m hhdmOffset t i) (v : Word) :
    translate m' hhdmOffset root v = translate m hhdmOffset root v := by
  have hwalk : resolve childTable (tableEntry m' hhdmOffset) root
      (levelIndices v) = resolve childTable (tableEntry m hhdmOffset) root
        (levelIndices v) :=
    resolve_congr_of_follow fun p t hlen ht =>
      h t ⟨p, Nat.le_of_lt_succ hlen, ht⟩
  rw [translate_eq, translate_eq, hwalk]

section

variable {α : Type} {A : FrameAllocator α} {hhdmOffset : Word}
  {toPhysicalAddr : Addr → Code 64 α Word} {s : Machine 64 (PagingGlobals α)}
  {f : Word} {s₁ : Machine 64 α}

theorem isTableOf_root (m : Bytes) (hhdmOffset root : Word) :
    IsTableOf m hhdmOffset root root :=
  ⟨[], by simp, rfl⟩

theorem GrantsTable.ne (h : GrantsTable A toPhysicalAddr hhdmOffset s f s₁)
    {t : Word} (ht : IsTableOf s.mem hhdmOffset s.globals.PML4 t) : t ≠ f := by
  rintro rfl
  have hmem : t + hhdmOffset ∈ region (t + hhdmOffset) 4096 := by
    rw [mem_region, BitVec.sub_self]
    decide
  exact Set.disjoint_left.1 (h.disjoint t ht) hmem hmem

theorem GrantsTable.tableEntry_eq
    (h : GrantsTable A toPhysicalAddr hhdmOffset s f s₁) {t : Word}
    (ht : IsTableOf s.mem hhdmOffset s.globals.PML4 t) (i : BitVec 9) :
    tableEntry s₁.mem hhdmOffset t i = tableEntry s.mem hhdmOffset t i := by
  have hmem : t ∈ [t] := List.mem_singleton_self t
  refine tableEntry_congr ?_ hmem i
  rintro x ⟨u, hu, hx⟩
  rw [List.mem_singleton.1 hu] at hx
  exact h.kept t ht x hx

/-- `newPML4` for any well-formed tree. -/
theorem copiesWalks_newPML4
    (htree : WellFormedTree s.mem hhdmOffset s.globals.PML4)
    (h : GrantsTable A toPhysicalAddr hhdmOffset s f s₁) :
    ∃ s', (newPML4 A toPhysicalAddr).run s = .ok f s' ∧ SameGlobals s s' ∧
      CopiesWalks hhdmOffset s.globals.PML4 s f s' := by
  obtain ⟨root, hroot⟩ : ∃ root, s.globals.PML4 = root := ⟨_, rfl⟩
  have hrootTable : IsTableOf s.mem hhdmOffset s.globals.PML4 root :=
    hroot ▸ isTableOf_root _ _ _
  have haligned := htree root hrootTable
  have hne : ∀ a : Word, a.toNat % 4096 = 0 → a ≠ -1 := by
    rintro a ha rfl
    exact absurd ha (by decide)
  have hback := h.toPhysicalAddr _
    (agreeOff_copyTable hhdmOffset f root s₁.mem) (f + hhdmOffset)
  rw [BitVec.add_sub_cancel] at hback
  have hrun := run_newPML4 hroot h.run (h.toVirtualAddr f (hne f h.aligned))
    (h.toVirtualAddr root (hne root haligned)) hback
  have hentry := fun {t : Word} (ht : t.toNat % 4096 = 0) (j : BitVec 9) =>
    @tableEntry_copyTable hhdmOffset f root s₁.mem h.aligned haligned
      (h.ne hrootTable) t ht j
  have htables : ∀ t, IsTableOf s.mem hhdmOffset root t → ∀ i,
      tableEntry (copyTable (f + hhdmOffset) (root + hhdmOffset)
        s₁.mem) hhdmOffset t i = tableEntry s.mem hhdmOffset t i := by
    intro t ht i
    rw [← hroot] at ht
    rw [hentry (htree t ht) i, if_neg fun hc => h.ne ht hc.1, h.tableEntry_eq ht]
  have hkept := translate_congr_of_isTableOf htables
  rw [hroot]
  refine ⟨_, hrun, rfl, fun v hv => ?_, fun v hlow hhigh => ?_, hkept⟩
  · rw [← hkept v]
    refine translate_congr_top ?_
    rw [hentry h.aligned, hentry haligned, if_pos ⟨rfl, hv.symm⟩,
      if_neg fun hc => h.ne hrootTable hc.1]
  · have hblank : tableEntry (copyTable (f + hhdmOffset)
        (root + hhdmOffset) s₁.mem) hhdmOffset f (levelIndex v 3) = 0 := by
      rw [hentry h.aligned, if_neg fun hc => by omega,
        tableEntry_of_zero h.zero]
    refine ⟨by rw [hblank]; rfl, ?_⟩
    rw [translate, hblank]
    exact ite_self _

theorem Mapped.isTableFrame {S : FrameSource A hhdmOffset} {root : Word} {n : ℕ}
    {frames : List Word} {owner : Word → Option (List (BitVec 9))}
    (h : Mapped S root n s frames owner) {t : Word}
    (ht : IsTableOf s.mem hhdmOffset root t) :
    t ∈ frames ∧ IsTableFrame hhdmOffset t := by
  obtain ⟨p, hlen, hp⟩ := ht
  have hmem := h.tables.mem_of_follow hp hlen
  exact ⟨hmem, h.tables.frame t hmem⟩

theorem Mapped.grantsTable {S : FrameSource A hhdmOffset} {n : ℕ}
    {frames : List Word} {owner : Word → Option (List (BitVec 9))}
    (h : Mapped S s.globals.PML4 n s frames owner) (hn : n ≠ 0)
    (hback : TakesBack S toPhysicalAddr) :
    ∃ f s₁, GrantsTable A toPhysicalAddr hhdmOffset s f s₁ := by
  rcases S.allocateFrame n _ frames h.ready with
    ⟨f, s₁, hrun, hfresh, hready⟩ | ⟨hzero, -⟩
  · refine ⟨f, s₁, hrun, hfresh.frame.aligned, hfresh.zero, fun t ht => ?_,
      fun t ht x hx => hfresh.kept x ⟨t, (h.isTableFrame ht).1, hx⟩,
      S.toVirtualAddr _ _ _ hready (by simp), fun m hm => ?_⟩
    · obtain ⟨hmem, hframe⟩ := h.isTableFrame ht
      have hne : f ≠ t := by
        rintro rfl
        exact hfresh.notMem hmem
      exact disjoint_region_add hhdmOffset (disjoint_region_of_aligned
        (by decide : 4096 ∣ 2 ^ 64) hfresh.frame.aligned hframe.aligned hne)
    · exact hback _ _ _ (S.write _ _ _ m hready (hm.mono fun x hx =>
        ⟨f, List.mem_cons_self, hx⟩)) (by simp)
  · exact absurd hzero hn

end

/-- The kernel's first `newPML4` after `initPaging`. -/
theorem copiesWalks_newPML4_bootKernel :
    ∃ s f s', (initTables (kernelAllocator addressSizeTable 0) 2048
        bootResponses).run ⟨bootKernel.mem, bootKernel.globals.paging⟩ =
          .ok () s ∧
      (newPML4 (kernelAllocator addressSizeTable 0) toPhysicalAddr).run s =
        .ok f s' ∧
      CopiesWalks bootResponses.hhdmOffset s.globals.PML4 s f s' := by
  have hback := takesBack_kernelSource addressSizeTable 0 bootRegion (by decide)
  obtain ⟨s, hrun, calls, hmaps, -⟩ := exists_run_initTables (k := 4) (by decide)
  obtain ⟨frames, owner, hmapped⟩ := hmaps.mapped
  rw [← hmaps.PML4] at hmapped
  obtain ⟨f, s₁, hgrants⟩ := hmapped.grantsTable (by omega) hback
  obtain ⟨s', hrun', -, hcopies⟩ := copiesWalks_newPML4
    (fun t ht => (hmapped.isTableFrame ht).2.aligned) hgrants
  exact ⟨s, f, s', hrun, hrun', hcopies⟩

end OptimistOS
