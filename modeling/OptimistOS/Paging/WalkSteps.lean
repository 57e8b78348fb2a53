import OptimistOS.Paging.Levels

/-!
# The steps of a call of `map`

A call of `map` spelled out: every step of the walk goes along a valid entry or
links in a frame (`WalkStep`), two or three steps lead to the slot of the page
(`PageWalk`), and the page is written there (`returns_map_walk`). Nothing is
assumed of the tables but that the walk stays in frames that the allocator has
handed out (`CanStep`), so the entry that is followed may also be a page.
-/

namespace OptimistOS

open ByteMemory ByteMemory.Code RadixTree PageDirectoryEntry

/-- The slot `i` of `t` lies in a frame, and so does what a valid entry there
leads to. -/
def CanStep (hhdmOffset : Word) (frames : List Word) (m : Bytes) (t : Word)
    (i : BitVec 9) : Prop :=
  t ∈ frames ∧ (isValid (tableEntry m hhdmOffset t i) = true →
    getAddress (tableEntry m hhdmOffset t i) ∈ frames)

/-- One step of the walk, from the slot `i` of `t` to the table that is named
next: along a valid entry, or to a fresh frame that is linked in. -/
inductive WalkStep {α : Type} (A : FrameAllocator α) (hhdmOffset t : Word)
    (i : BitVec 9) (frames : List Word) (s : Machine 64 α) :
    Word → List Word → Machine 64 α → Prop
  | along (h : isValid (tableEntry s.mem hhdmOffset t i) = true) :
      WalkStep A hhdmOffset t i frames s
        (getAddress (tableEntry s.mem hhdmOffset t i)) frames s
  | link {f : Word} {s₁ : Machine 64 α}
      (h : isValid (tableEntry s.mem hhdmOffset t i) = false)
      (hrun : (A.allocateFrame 0x1000).run s = .ok f s₁)
      (hfresh : FreshFrame hhdmOffset frames s.mem f s₁.mem) :
      WalkStep A hhdmOffset t i frames s f (f :: frames)
        ⟨linkTable s₁.mem (tableSlot hhdmOffset t i) f, s₁.globals⟩

inductive PageWalk {α : Type} (A : FrameAllocator α) (hhdmOffset root v : Word)
    (frames : List Word) (s : Machine 64 α) :
    Bool → Word → BitVec 9 → List Word → Machine 64 α → Prop
  | large {t₂ t₁ : Word} {frames₂ frames₁ : List Word} {s₂ s₁ : Machine 64 α}
      (h₃ : WalkStep A hhdmOffset root (levelIndex v 3) frames s t₂ frames₂ s₂)
      (h₂ : WalkStep A hhdmOffset t₂ (levelIndex v 2) frames₂ s₂ t₁ frames₁
        s₁) :
      PageWalk A hhdmOffset root v frames s true t₁ (levelIndex v 1) frames₁ s₁
  | small {t₂ t₁ t₀ : Word} {frames₂ frames₁ frames₀ : List Word}
      {s₂ s₁ s₀ : Machine 64 α}
      (h₃ : WalkStep A hhdmOffset root (levelIndex v 3) frames s t₂ frames₂ s₂)
      (h₂ : WalkStep A hhdmOffset t₂ (levelIndex v 2) frames₂ s₂ t₁ frames₁ s₁)
      (h₁ : WalkStep A hhdmOffset t₁ (levelIndex v 1) frames₁ s₁ t₀ frames₀
        s₀) :
      PageWalk A hhdmOffset root v frames s false t₀ (levelIndex v 0) frames₀ s₀

structure CanWalk {α : Type} (A : FrameAllocator α) (hhdmOffset root v : Word)
    (large : Bool) (frames : List Word) (s : Machine 64 α) : Prop where
  first : CanStep hhdmOffset frames s.mem root (levelIndex v 3)
  second : ∀ t frames' s',
    WalkStep A hhdmOffset root (levelIndex v 3) frames s t frames' s' →
      CanStep hhdmOffset frames' s'.mem t (levelIndex v 2)
  third : large = false → ∀ t frames' s' t' frames'' s'',
    WalkStep A hhdmOffset root (levelIndex v 3) frames s t frames' s' →
      WalkStep A hhdmOffset t (levelIndex v 2) frames' s' t' frames'' s'' →
        CanStep hhdmOffset frames'' s''.mem t' (levelIndex v 1)

/-- The entries before and after the fresh frame `f` is linked into the slot `i`
of `t`. -/
structure LinksFrame (hhdmOffset t : Word) (i : BitVec 9) (frames : List Word)
    (m : Bytes) (f : Word) (m' : Bytes) : Prop where
  frame : IsTableFrame hhdmOffset f
  notMem : f ∉ frames
  blank : ∀ j, tableEntry m' hhdmOffset f j = 0
  entry : tableEntry m' hhdmOffset t i =
    linkEntry (tableEntry m hhdmOffset t i) f
  kept : ∀ u ∈ frames, ∀ j, ¬ (u = t ∧ j = i) →
    tableEntry m' hhdmOffset u j = tableEntry m hhdmOffset u j

theorem LinksFrame.of_fresh {hhdmOffset t f : Word} {i : BitVec 9}
    {frames : List Word} {m m₁ : Bytes}
    (hframe : ∀ f ∈ frames, IsTableFrame hhdmOffset f) (ht : t ∈ frames)
    (hf : FreshFrame hhdmOffset frames m f m₁) :
    LinksFrame hhdmOffset t i frames m f
      (linkTable m₁ (tableSlot hhdmOffset t i) f) := by
  have hm := agreeOff_linkTable m₁ (tableSlot hhdmOffset t i) f
  have hne : f ≠ t := by
    rintro rfl
    exact hf.notMem ht
  refine ⟨hf.frame, hf.notMem, fun j => ?_, ?_, fun u hu j hslot => ?_⟩
  · exact (word_congr hm (by decide) (disjoint_tableSlot hf.frame (hframe t ht)
      fun hc => hne hc.1)).trans (tableEntry_of_zero hf.zero j)
  · rw [← tableEntry_congr hf.kept ht i]
    exact word_linkTable _ _ _
  · rw [← tableEntry_congr hf.kept hu j]
    exact word_congr hm (by decide)
      (disjoint_tableSlot (hframe u hu) (hframe t ht) hslot)

section

variable {α : Type} {A : FrameAllocator α} {hhdmOffset : Word}
  {S : FrameSource A hhdmOffset} {root : Word} {n : ℕ} {t u : Word}
  {i : BitVec 9} {frames frames' : List Word}

theorem WalkStep.mem {s s' : Machine 64 α}
    (h : WalkStep A hhdmOffset t i frames s u frames' s')
    (hcan : CanStep hhdmOffset frames s.mem t i) : u ∈ frames' := by
  cases h with
  | along h => exact hcan.2 h
  | link => exact List.mem_cons_self

theorem WalkStep.subset {s s' : Machine 64 α}
    (h : WalkStep A hhdmOffset t i frames s u frames' s') :
    frames ⊆ frames' := by
  cases h with
  | along => exact List.Subset.refl _
  | link => exact List.subset_cons_self _ _

theorem WalkStep.entries {s s' : Machine 64 α}
    (h : WalkStep A hhdmOffset t i frames s u frames' s')
    (hframe : ∀ f ∈ frames, IsTableFrame hhdmOffset f) (ht : t ∈ frames) :
    (isValid (tableEntry s.mem hhdmOffset t i) = true ∧
        u = getAddress (tableEntry s.mem hhdmOffset t i) ∧
        frames' = frames ∧ s' = s) ∨
      (isValid (tableEntry s.mem hhdmOffset t i) = false ∧
        frames' = u :: frames ∧
        LinksFrame hhdmOffset t i frames s.mem u s'.mem) := by
  cases h with
  | along h => exact Or.inl ⟨h, rfl, rfl, rfl⟩
  | @link f s₁ h _ hfresh => exact Or.inr ⟨h, rfl, .of_fresh hframe ht hfresh⟩

theorem WalkStep.eq_of_child {s s' : Machine 64 α} {d : Word}
    (h : WalkStep A hhdmOffset t i frames s u frames' s')
    (hchild : codeChild (tableEntry s.mem hhdmOffset t i) = some d) :
    u = d ∧ frames' = frames ∧ s' = s := by
  obtain ⟨hvalid, haddress⟩ := codeChild_eq_some_iff.1 hchild
  cases h with
  | along => exact ⟨haddress, rfl, rfl⟩
  | link hinvalid =>
      rw [hvalid] at hinvalid
      exact absurd hinvalid (by decide)

theorem canStep_of_child {m : Bytes} {d : Word} (ht : t ∈ frames)
    (hchild : codeChild (tableEntry m hhdmOffset t i) = some d)
    (hd : d ∈ frames) : CanStep hhdmOffset frames m t i :=
  ⟨ht, fun _ => (codeChild_eq_some_iff.1 hchild).2.symm ▸ hd⟩

/-- `nextTable` takes one step. -/
theorem returns_nextTable_step {s : Machine 64 (PagingGlobals α)}
    (hready : S.Ready n ⟨s.mem, s.globals.frames⟩ frames)
    (hcan : CanStep hhdmOffset frames s.mem t i) :
    (nextTable A (tableSlot hhdmOffset t i)).Returns s (n = 0) fun a s' =>
      ∃ u frames', a = u + hhdmOffset ∧ SameGlobals s s' ∧
        S.Ready (n - 1) ⟨s'.mem, s'.globals.frames⟩ frames' ∧
        WalkStep A hhdmOffset t i frames ⟨s.mem, s.globals.frames⟩ u frames'
          ⟨s'.mem, s'.globals.frames⟩ := by
  obtain ⟨hmem, hnext⟩ := hcan
  by_cases hvalid : isValid (tableEntry s.mem hhdmOffset t i) = true
  · obtain ⟨u, haddress⟩ : ∃ u, getAddress (tableEntry s.mem hhdmOffset t i) =
        u := ⟨_, rfl⟩
    have hu := S.frame _ _ _ hready u (haddress ▸ hnext hvalid)
    have hstep : WalkStep A hhdmOffset t i frames ⟨s.mem, s.globals.frames⟩ u
        frames ⟨s.mem, s.globals.frames⟩ := haddress ▸ .along hvalid
    refine .of_ok (a := u + hhdmOffset) (t := s) ?_ ⟨u, frames, rfl, rfl,
      S.mono n _ _ _ hready (by omega), hstep⟩
    exact run_nextTable_of_valid hvalid haddress
      (run_callFrames_ok (S.toVirtualAddr _ _ _ hready (List.ne_nil_of_mem hmem)
        u hu.ne_neg_one)) hu.pointer_ne_zero
  · have hinvalid : isValid (word s.mem (tableSlot hhdmOffset t i)) = false :=
      Bool.eq_false_iff.2 hvalid
    rcases S.allocateFrame n _ frames hready with
      ⟨f, s₁, hrun, hfresh, hready₁⟩ | ⟨hn, e, s₁, hrun⟩
    · let s' : Machine 64 (PagingGlobals α) :=
        ⟨linkTable s₁.mem (tableSlot hhdmOffset t i) f,
          { s.globals with frames := s₁.globals }⟩
      have hready' : S.Ready (n - 1) ⟨s'.mem, s'.globals.frames⟩
          (f :: frames) :=
        S.write _ _ _ _ hready₁ ((agreeOff_linkTable _ _ _).mono fun x hx =>
          ⟨t, List.mem_cons_of_mem f hmem,
            region_tableSlot_subset hhdmOffset t i hx⟩)
      refine .of_ok (a := f + hhdmOffset) (t := s') ?_ ⟨f, f :: frames, rfl,
        rfl, hready', .link hinvalid hrun hfresh⟩
      exact run_nextTable_of_fresh hinvalid hrun hfresh.frame
        (run_callFrames_ok (S.toVirtualAddr _ _ _ hready' (by simp) f
          hfresh.frame.ne_neg_one))
    · exact Or.inr ⟨hn, e, _, run_nextTable_of_error hinvalid hrun⟩

/-- The walk of the code to the slot for `v`. -/
theorem returns_virtualAddrToPTE_walk {s : Machine 64 (PagingGlobals α)}
    (hready : S.Ready n ⟨s.mem, s.globals.frames⟩ frames)
    (hroot : s.globals.PML4 = root) {v flags : Word}
    (hcan : CanWalk A hhdmOffset root v (flags.getLsbD 7) frames
      ⟨s.mem, s.globals.frames⟩) :
    (virtualAddrToPTE A v flags).Returns s (n < 3) fun entry s' =>
      ∃ t i frames', entry = tableSlot hhdmOffset t i ∧ t ∈ frames' ∧
        SameGlobals s s' ∧
        S.Ready (n - 3) ⟨s'.mem, s'.globals.frames⟩ frames' ∧
        PageWalk A hhdmOffset root v frames ⟨s.mem, s.globals.frames⟩
          (flags.getLsbD 7) t i frames' ⟨s'.mem, s'.globals.frames⟩ := by
  have hframe := S.frame _ _ _ hready root hcan.first.1
  have hne : s.globals.PML4 ≠ 0 := hroot ▸ hframe.ne_zero
  -- `PML4` holds a pointer while the first entry is looked up
  let s₁ : Machine 64 (PagingGlobals α) :=
    { s with globals := { s.globals with PML4 := root + hhdmOffset } }
  rw [virtualAddrToPTE]
  refine Returns.bind_of_ok (EStateM.run_get s) ?_
  rw [if_neg hne, hroot]
  refine Returns.bind_of_ok (run_callFrames_ok (S.toVirtualAddr _ _ _ hready
    (List.ne_nil_of_mem hcan.first.1) root hframe.ne_neg_one)) ?_
  refine Returns.bind_of_ok (t := s₁) (run_modifyGlobals _ s) ?_
  rw [entryPointer_eq root v (by decide : 3 < 4)]
  refine Returns.bind ((returns_nextTable_step (s := s₁) hready
    hcan.first).mono (by omega) fun _ _ => id) ?_
  rintro _ s₂ ⟨t₂, frames₂, rfl, hglobals₂, hready₂, hstep₂⟩
  let s₃ : Machine 64 (PagingGlobals α) :=
    { s₂ with globals := { s₂.globals with PML4 := root } }
  have hglobals₃ : SameGlobals s s₃ := by
    change ({ s₂.globals with PML4 := root } : PagingGlobals α) = _
    rw [hglobals₂, ← hroot]
  refine Returns.bind_of_ok (t := s₃) (run_modifyGlobals _ s₂) ?_
  rw [entryPointer_eq t₂ v (by decide : 2 < 4)]
  have hcan₂ := hcan.second _ _ _ hstep₂
  refine Returns.bind ((returns_nextTable_step (s := s₃) hready₂ hcan₂).mono
    (by omega) fun _ _ => id) ?_
  rintro _ s₄ ⟨t₁, frames₁, rfl, hglobals₄, hready₄, hstep₄⟩
  have hglobals := hglobals₃.trans hglobals₄
  have hmem₁ := hstep₄.mem hcan₂
  rw [entryPointer_eq t₁ v (by decide : 1 < 4)]
  have hflag : flags &&& PageTableFlag.largerPages ≠ 0 ↔
      flags.getLsbD 7 = true := and_one_shiftLeft_ne_zero flags (by decide)
  cases hlarge : flags.getLsbD 7
  · rw [if_neg (by rw [hflag, hlarge]; decide)]
    have hcan₁ := hcan.third hlarge _ _ _ _ _ _ hstep₂ hstep₄
    refine Returns.bind ((returns_nextTable_step (s := s₄) hready₄ hcan₁).mono
      (by omega) fun _ _ => id) ?_
    rintro _ s₅ ⟨t₀, frames₀, rfl, hglobals₅, hready₅, hstep₅⟩
    rw [entryPointer_eq t₀ v (by decide : 0 < 4)]
    exact .of_ok rfl ⟨t₀, _, frames₀, rfl, hstep₅.mem hcan₁,
      hglobals.trans hglobals₅, S.mono _ _ _ _ hready₅ (by omega),
      .small hstep₂ hstep₄ hstep₅⟩
  · rw [if_pos (hflag.2 hlarge)]
    exact .of_ok rfl ⟨t₁, _, frames₁, rfl, hmem₁, hglobals,
      S.mono _ _ _ _ hready₄ (by omega), .large hstep₂ hstep₄⟩

theorem returns_map_walk {s : Machine 64 (PagingGlobals α)}
    (hready : S.Ready n ⟨s.mem, s.globals.frames⟩ frames)
    (hroot : s.globals.PML4 = root) (physicalAddr : Word) {v flags : Word}
    (hcan : CanWalk A hhdmOffset root v (flags.getLsbD 7) frames
      ⟨s.mem, s.globals.frames⟩) :
    (map A physicalAddr v flags).Returns s (n < 3) fun b s' =>
      ∃ t i frames' s₁, b = true ∧ t ∈ frames' ∧ SameGlobals s s' ∧
        S.Ready (n - 3) ⟨s'.mem, s'.globals.frames⟩ frames' ∧
        PageWalk A hhdmOffset root v frames ⟨s.mem, s.globals.frames⟩
          (flags.getLsbD 7) t i frames' s₁ ∧
        s'.globals.frames = s₁.globals ∧
        s'.mem = writePage s₁.mem (tableSlot hhdmOffset t i) physicalAddr
          flags := by
  rcases returns_virtualAddrToPTE_walk hready hroot hcan with
    ⟨_, s₁, hrun, t, i, frames', rfl, hmem, hglobals, hready', hwalk⟩ |
      ⟨hn, e, s₁, hrun⟩
  · have hslot := (S.frame _ _ _ hready' t hmem).slot_ne_zero i
    refine .of_ok (run_map_of_entry hrun hslot) ⟨t, i, frames', _, rfl, hmem,
      hglobals, ?_, hwalk, rfl, rfl⟩
    exact S.write _ _ _ _ hready' ((agreeOff_writePage _ _ _ _).mono
      fun x hx => ⟨t, hmem, region_tableSlot_subset hhdmOffset t i hx⟩)
  · exact Or.inr ⟨hn, e, s₁, run_map_of_error hrun⟩

/-- A 4 KB call whose walk finds valid entries all the way down writes to where
the last one leads, be it a table or a page. -/
theorem returns_map_of_children {s : Machine 64 (PagingGlobals α)}
    (hready : S.Ready n ⟨s.mem, s.globals.frames⟩ frames)
    (hroot : s.globals.PML4 = root) (physicalAddr : Word) {v flags t₂ t₁ d : Word}
    (hsmall : flags.getLsbD 7 = false)
    (h₃ : codeChild (tableEntry s.mem hhdmOffset root (levelIndex v 3)) =
      some t₂)
    (h₂ : codeChild (tableEntry s.mem hhdmOffset t₂ (levelIndex v 2)) = some t₁)
    (h₁ : codeChild (tableEntry s.mem hhdmOffset t₁ (levelIndex v 1)) = some d)
    (hmem : [root, t₂, t₁, d] ⊆ frames) :
    (map A physicalAddr v flags).Returns s (n < 3) fun _ s' =>
      s'.mem = writePage s.mem (tableSlot hhdmOffset d (levelIndex v 0))
        physicalAddr flags := by
  simp only [List.cons_subset, List.nil_subset, and_true] at hmem
  obtain ⟨hr, hm₂, hm₁, hd⟩ := hmem
  have hcan : CanWalk A hhdmOffset root v (flags.getLsbD 7) frames
      ⟨s.mem, s.globals.frames⟩ := by
    refine ⟨canStep_of_child hr h₃ hm₂, fun t frames' s' hs => ?_,
      fun _ t frames' s' t' frames'' s'' hs hs' => ?_⟩
    · obtain ⟨rfl, rfl, rfl⟩ := hs.eq_of_child h₃
      exact canStep_of_child hm₂ h₂ hm₁
    · obtain ⟨rfl, rfl, rfl⟩ := hs.eq_of_child h₃
      obtain ⟨rfl, rfl, rfl⟩ := hs'.eq_of_child h₂
      exact canStep_of_child hm₁ h₁ hd
  refine (returns_map_walk hready hroot physicalAddr hcan).mono id ?_
  rintro b s' ⟨t, i, frames', s₁, -, -, -, -, hwalk, -, hs'⟩
  rw [hsmall] at hwalk
  cases hwalk with
  | small hs₃ hs₂ hs₁ =>
      obtain ⟨rfl, rfl, rfl⟩ := hs₃.eq_of_child h₃
      obtain ⟨rfl, rfl, rfl⟩ := hs₂.eq_of_child h₂
      obtain ⟨rfl, rfl, rfl⟩ := hs₁.eq_of_child h₁
      exact hs'

end

end OptimistOS
