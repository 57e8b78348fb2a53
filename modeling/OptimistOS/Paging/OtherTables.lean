import OptimistOS.Foundation.Keeps
import OptimistOS.Paging.BootMappings

/-!
# The tables of the others

Several processors have trees of page tables in the frames of one allocator. The
source `FrameSource.beyond` has the frames on its list that come after those in
`base`, and remembers the bytes of `base`. What is proved about the paging code
with any source holds with this one, and says in addition that the trees in
`base` are as they were (`PageTree.congr`).
-/

namespace OptimistOS

open ByteMemory ByteMemory.Code

structure PageTree (hhdmOffset root : Word) (m : Bytes) (frames : List Word)
    (calls : List PageMapping) : Prop where
  tables : ∃ owner, Tables hhdmOffset root m frames owner
  views : ViewsCalls hhdmOffset root m calls

theorem PageTree.root_mem {hhdmOffset root : Word} {m : Bytes} {frames : List Word}
    {calls : List PageMapping} (h : PageTree hhdmOffset root m frames calls) :
    root ∈ frames := by
  obtain ⟨owner, htables⟩ := h.tables
  exact htables.root_mem

theorem PageTree.congr {hhdmOffset root : Word} {m m' : Bytes}
    {frames frames' : List Word} {calls : List PageMapping}
    (h : PageTree hhdmOffset root m frames calls)
    (hframe : ∀ f ∈ frames', IsTableFrame hhdmOffset f)
    (hsubset : frames ⊆ frames')
    (hm : ∀ x ∈ frameBytes hhdmOffset frames, m' x = m x) :
    PageTree hhdmOffset root m' frames' calls := by
  obtain ⟨owner, htables⟩ := h.tables
  obtain ⟨htables', hviews⟩ := htables.congr hframe hsubset fun t ht j =>
    tableEntry_congr hm ht j
  refine ⟨⟨owner, htables'⟩, fun v hv => ?_⟩
  rw [hviews _ rfl]
  exact h.views v hv

theorem frameBytes_append (hhdmOffset : Word) (frames base : List Word) :
    frameBytes hhdmOffset (frames ++ base) =
      frameBytes hhdmOffset frames ∪ frameBytes hhdmOffset base := by
  ext x
  simp only [frameBytes, List.mem_append, Set.mem_ofPred_eq, Set.mem_union]
  constructor
  · rintro ⟨f, hf | hf, hx⟩
    · exact .inl ⟨f, hf, hx⟩
    · exact .inr ⟨f, hf, hx⟩
  · rintro (⟨f, hf, hx⟩ | ⟨f, hf, hx⟩)
    · exact ⟨f, .inl hf, hx⟩
    · exact ⟨f, .inr hf, hx⟩

theorem disjoint_frameBytes {hhdmOffset : Word} {frames base : List Word}
    (hframe : ∀ f ∈ frames ++ base, IsTableFrame hhdmOffset f)
    (hne : ∀ f ∈ frames, f ∉ base) :
    Disjoint (frameBytes hhdmOffset frames) (frameBytes hhdmOffset base) := by
  rw [Set.disjoint_left]
  rintro x ⟨f, hf, hx⟩ ⟨g, hg, hx'⟩
  have hfg : f ≠ g := fun heq => hne f hf (heq ▸ hg)
  have hdisjoint := disjoint_region_add hhdmOffset
    (disjoint_region_of_aligned (by decide : 4096 ∣ 2 ^ 64)
      (hframe f (List.mem_append_left _ hf)).aligned
      (hframe g (List.mem_append_right _ hg)).aligned hfg)
  exact Set.disjoint_left.1 hdisjoint hx hx'

section

variable {α : Type} {A : FrameAllocator α} {hhdmOffset : Word}
  {S : FrameSource A hhdmOffset} {base frames : List Word} {m₀ : Bytes} {n : ℕ}
  {s : Machine 64 α}

/-- The frames on the list come on top of those in `base`, whose bytes are those
of `m₀`. -/
structure ReadyBeyond (S : FrameSource A hhdmOffset) (base : List Word)
    (m₀ : Bytes) (n : ℕ) (s : Machine 64 α) (frames : List Word) : Prop where
  ready : S.Ready n s (frames ++ base)
  notMem : ∀ f ∈ frames, f ∉ base
  kept : ∀ x ∈ frameBytes hhdmOffset base, s.mem x = m₀ x

theorem ReadyBeyond.allocateFrame (h : ReadyBeyond S base m₀ n s frames) :
    (∃ f s', (A.allocateFrame 0x1000).run s = .ok f s' ∧
        FreshFrame hhdmOffset frames s.mem f s'.mem ∧
        ReadyBeyond S base m₀ (n - 1) s' (f :: frames)) ∨
      n = 0 ∧ ∃ e s', (A.allocateFrame 0x1000).run s = .error e s' := by
  refine (S.allocateFrame n s _ h.ready).imp_left ?_
  rintro ⟨f, s', hrun, hfresh, hready⟩
  have hnot := hfresh.notMem
  have hkept := hfresh.kept
  rw [List.mem_append, not_or] at hnot
  rw [frameBytes_append] at hkept
  refine ⟨f, s', hrun, ⟨hfresh.frame, hnot.1, hfresh.zero,
    fun x hx => hkept x (.inl hx)⟩, hready, fun g hg => ?_,
    fun x hx => (hkept x (.inr hx)).trans (h.kept x hx)⟩
  rcases List.mem_cons.1 hg with rfl | hg
  · exact hnot.2
  · exact h.notMem g hg

theorem ReadyBeyond.write {m' : Bytes} (h : ReadyBeyond S base m₀ n s frames)
    (hm : AgreeOff (frameBytes hhdmOffset frames) s.mem m') :
    ReadyBeyond S base m₀ n { s with mem := m' } frames := by
  refine ⟨S.write _ _ _ _ h.ready (hm.mono ?_), h.notMem, fun x hx => ?_⟩
  · rw [frameBytes_append]
    exact Set.subset_union_left
  · have hdisjoint := disjoint_frameBytes (S.frame _ _ _ h.ready) h.notMem
    exact (hm x (Set.disjoint_right.1 hdisjoint hx)).symm.trans (h.kept x hx)

variable (S base m₀)

def FrameSource.beyond : FrameSource A hhdmOffset where
  Ready := ReadyBeyond S base m₀
  allocateFrame _ _ _ h := h.allocateFrame
  toVirtualAddr _ _ _ h hne :=
    S.toVirtualAddr _ _ _ h.ready fun hnil => hne (List.append_eq_nil_iff.1 hnil).1
  write _ _ _ _ h hm := h.write hm
  mono _ _ _ _ h hk := ⟨S.mono _ _ _ _ h.ready hk, h.notMem, h.kept⟩
  frame _ _ _ h f hf := S.frame _ _ _ h.ready f (List.mem_append_left _ hf)

variable {S base m₀}

theorem FrameSource.ready_beyond (hready : S.Ready n s base) :
    (S.beyond base s.mem).Ready n s [] :=
  ⟨hready, fun _ hf => absurd hf List.not_mem_nil, fun _ _ => rfl⟩

theorem ReadyBeyond.tree {root : Word} {calls : List PageMapping}
    (h : ReadyBeyond S base m₀ n s frames)
    (htree : PageTree hhdmOffset root m₀ base calls) :
    PageTree hhdmOffset root s.mem (frames ++ base) calls :=
  htree.congr (S.frame _ _ _ h.ready) (List.subset_append_right _ _) h.kept

end

theorem MapsCalls.exists_frames {α : Type} {A : FrameAllocator α}
    {hhdmOffset root : Word} {S : FrameSource A hhdmOffset} {base : List Word}
    {m₀ : Bytes} {n : ℕ} {s : Machine 64 (PagingGlobals α)}
    {calls : List PageMapping}
    (h : MapsCalls (S.beyond base m₀) root n s calls) :
    ∃ frames, ReadyBeyond S base m₀ n ⟨s.mem, s.globals.frames⟩ frames ∧
      root ∈ frames ∧ PageTree hhdmOffset root s.mem (frames ++ base) calls := by
  obtain ⟨frames, owner, hmapped⟩ := h.mapped
  have hready : ReadyBeyond S base m₀ n ⟨s.mem, s.globals.frames⟩ frames :=
    hmapped.ready
  refine ⟨frames, hready, hmapped.tables.root_mem, ?_⟩
  exact PageTree.congr ⟨⟨owner, hmapped.tables⟩, h.views⟩
    (S.frame _ _ _ hready.ready) (List.subset_append_left _ _) fun _ _ => rfl

end OptimistOS
