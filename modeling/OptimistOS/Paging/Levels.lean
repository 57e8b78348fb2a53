import OptimistOS.Paging.MapStep

/-!
# The levels of the tables

The paging code follows every valid entry, whatever its flags say, so its own
view of the tables is coarser than that of the processor. `Levels` gives every
table that the code may reach its level; frames without a level belong to
somebody else. A call of `map` writes to tables with a level only, and to the
top level table only where an entry was not valid (`returns_map_levels`),
whatever its arguments are, as long as it does not take a 2 MB page for a table
(`FindsPage`).
-/

namespace OptimistOS

open ByteMemory ByteMemory.Code RadixTree PageDirectoryEntry

def codeChild (e : PageDirectoryEntry) : Option Word :=
  if isValid e then some (getAddress e) else none

theorem codeChild_eq_some_iff {e u : Word} :
    codeChild e = some u ↔ isValid e = true ∧ getAddress e = u := by
  rw [codeChild]
  split_ifs with h
  · simp [h]
  · simp [h]

def FindsPage (m : Bytes) (hhdmOffset root v : Word) : Prop :=
  ∃ t, follow codeChild (tableEntry m hhdmOffset) root
      [levelIndex v 3, levelIndex v 2] = some t ∧
    isValid (tableEntry m hhdmOffset t (levelIndex v 1)) = true ∧
    isPage (tableEntry m hhdmOffset t (levelIndex v 1)) = true

/-- The levels of the tables in the memory `m`: `root` is on level 3, and entries
lead one level down. -/
structure Levels (hhdmOffset root : Word) (m : Bytes) (frames : List Word)
    (level : Word → Option ℕ) : Prop where
  frame : ∀ f ∈ frames, IsTableFrame hhdmOffset f
  owned : ∀ t k, level t = some k → t ∈ frames
  level_root : level root = some 3
  below : ∀ t k i, level t = some (k + 1) →
    isValid (tableEntry m hhdmOffset t i) = true →
    (k = 0 → isPage (tableEntry m hhdmOffset t i) = false) →
    level (getAddress (tableEntry m hhdmOffset t i)) = some k

/-- The invariant between two steps of the paging code. -/
structure Leveled {α : Type} {A : FrameAllocator α} {hhdmOffset : Word}
    (S : FrameSource A hhdmOffset) (root : Word) (n : ℕ)
    (s : Machine 64 (PagingGlobals α)) (frames : List Word)
    (level : Word → Option ℕ) : Prop where
  ready : S.Ready n ⟨s.mem, s.globals.frames⟩ frames
  levels : Levels hhdmOffset root s.mem frames level

/-- From `s` to `s'` frames without a level have not changed, and in the top
level table only the entry `i` may have changed, if it was not valid. -/
structure Grows {α : Type} (hhdmOffset root : Word) (i : BitVec 9)
    (s : Machine 64 (PagingGlobals α)) (frames : List Word)
    (level : Word → Option ℕ) (s' : Machine 64 (PagingGlobals α))
    (frames' : List Word) (level' : Word → Option ℕ) : Prop where
  frames_subset : frames ⊆ frames'
  level_eq : ∀ f ∈ frames, level' f = level f
  other : ∀ f ∈ frames, level f = none → ∀ j,
    tableEntry s'.mem hhdmOffset f j = tableEntry s.mem hhdmOffset f j
  top : ∀ j, j ≠ i ∨ isValid (tableEntry s.mem hhdmOffset root j) = true →
    tableEntry s'.mem hhdmOffset root j = tableEntry s.mem hhdmOffset root j
  globals : SameGlobals s s'

theorem linkEntry_valid (e : PageDirectoryEntry) {f : Word}
    (h : IsFrameAddress f) (hne : f ≠ 0) :
    isValid (linkEntry e f) = true ∧ getAddress (linkEntry e f) = f := by
  have hlow : ∀ k < 3, ∀ i, 12 ≤ i → (1#64 <<< k).getLsbD i = false := by
    intro k hk i hi
    rw [BitVec.getLsbD_shiftLeft, BitVec.getLsbD_one]
    simp [show i - k ≠ 0 by omega]
  have hbit : ∀ i, 12 ≤ i → i < 52 →
      (linkEntry e f).getLsbD i = f.getLsbD i := by
    intro i hi hi'
    rw [linkEntry, getLsbD_setFlag, getLsbD_setFlag, getLsbD_setFlag,
      getLsbD_setAddress, if_pos ⟨hi, hi'⟩, PageTableFlag.readWrite,
      PageTableFlag.userOrSuperuser, PageTableFlag.present,
      hlow 1 (by decide) i hi, hlow 2 (by decide) i hi,
      hlow 0 (by decide) i hi, Bool.or_false, Bool.or_false, Bool.or_false]
  have hmask : linkEntry e f &&& addressMask = f := by
    refine BitVec.eq_of_getLsbD_eq fun i _ => ?_
    rw [BitVec.getLsbD_and, getLsbD_addressMask]
    by_cases hi : 12 ≤ i ∧ i < 52
    · rw [hbit i hi.1 hi.2]
      simp [hi]
    · rw [h.getLsbD (by omega)]
      rcases not_and_or.1 hi with hi | hi <;> simp [hi]
  have hpresent : (linkEntry e f).getLsbD 0 = true := by
    rw [linkEntry, getLsbD_setFlag, PageTableFlag.present]
    simp
  refine ⟨(isValid_iff _).2 ⟨hpresent, ?_⟩, by rw [getAddress_eq, hmask]⟩
  rw [hmask]
  exact hne

section

variable {α : Type} {A : FrameAllocator α} {hhdmOffset : Word}
  {S : FrameSource A hhdmOffset} {root : Word} {n : ℕ}
  {s s' s'' : Machine 64 (PagingGlobals α)} {frames frames' frames'' : List Word}
  {level level' level'' : Word → Option ℕ} {t : Word} {i : BitVec 9}

theorem Grows.refl (hhdmOffset root : Word) (i : BitVec 9)
    (s : Machine 64 (PagingGlobals α)) (frames : List Word)
    (level : Word → Option ℕ) :
    Grows hhdmOffset root i s frames level s frames level :=
  ⟨List.Subset.refl _, fun _ _ => rfl, fun _ _ _ _ => rfl, fun _ _ => rfl, rfl⟩

theorem Grows.trans
    (h : Grows hhdmOffset root i s frames level s' frames' level')
    (h' : Grows hhdmOffset root i s' frames' level' s'' frames'' level'') :
    Grows hhdmOffset root i s frames level s'' frames'' level'' := by
  refine ⟨fun f hf => h'.frames_subset (h.frames_subset hf), fun f hf => ?_,
    fun f hf hlevel j => ?_, fun j hj => ?_, h.globals.trans h'.globals⟩
  · rw [h'.level_eq f (h.frames_subset hf), h.level_eq f hf]
  · rw [h'.other f (h.frames_subset hf) ((h.level_eq f hf).trans hlevel) j,
      h.other f hf hlevel j]
  · rw [h'.top j (hj.imp_right fun hvalid => (h.top j hj).symm ▸ hvalid),
      h.top j hj]

theorem Levels.root_mem {m : Bytes}
    (h : Levels hhdmOffset root m frames level) : root ∈ frames :=
  h.owned root 3 h.level_root

theorem Leveled.toVirtualAddr (h : Leveled S root n s frames level) {a : Word}
    (ha : a ≠ -1) :
    (callFrames (A.toVirtualAddr a)).run s = .ok (a + hhdmOffset) s :=
  run_callFrames_ok (S.toVirtualAddr n _ frames h.ready
    (List.ne_nil_of_mem h.levels.root_mem) a ha)

theorem Leveled.ready_of_agreeOff (h : Leveled S root n s frames level)
    (ht : t ∈ frames) {m' : Bytes}
    (hm : AgreeOff (region (tableSlot hhdmOffset t i) 8) s.mem m') :
    S.Ready n ⟨m', s.globals.frames⟩ frames :=
  S.write n _ frames m' h.ready (hm.mono fun _ hx =>
    ⟨t, ht, region_tableSlot_subset hhdmOffset t i hx⟩)

theorem Levels.tableEntry_of_ne {m m' : Bytes}
    (h : Levels hhdmOffset root m frames level) (ht : t ∈ frames)
    (hm : AgreeOff (region (tableSlot hhdmOffset t i) 8) m m') {u : Word}
    (hu : u ∈ frames) {j : BitVec 9} (hne : ¬ (u = t ∧ j = i)) :
    tableEntry m' hhdmOffset u j = tableEntry m hhdmOffset u j :=
  word_congr hm (by decide)
    (disjoint_tableSlot (h.frame u hu) (h.frame t ht) hne)

/-- The tables after a fresh frame has been linked into a slot that was not
valid. -/
theorem Levels.link {m m₁ m' : Bytes} {f : Word} {k : ℕ}
    (h : Levels hhdmOffset root m frames level)
    (hf : FreshFrame hhdmOffset frames m f m₁) (ht : level t = some (k + 1))
    (hm : AgreeOff (region (tableSlot hhdmOffset t i) 8) m₁ m')
    (hi : tableEntry m' hhdmOffset t i =
      linkEntry (tableEntry m hhdmOffset t i) f) :
    Levels hhdmOffset root m' (f :: frames)
        (Function.update level f (some k)) ∧
      (∀ j, tableEntry m' hhdmOffset f j = 0) ∧
      ∀ u ∈ frames, ∀ j, ¬ (u = t ∧ j = i) →
        tableEntry m' hhdmOffset u j = tableEntry m hhdmOffset u j := by
  have hmem := h.owned t _ ht
  have hne : t ≠ f := by
    rintro rfl
    exact hf.notMem hmem
  have hblank : ∀ j, tableEntry m' hhdmOffset f j = 0 := by
    intro j
    have hdisj := disjoint_tableSlot (i := j) (j := i) hf.frame
      (h.frame t hmem) fun hc => hne hc.1.symm
    exact (word_congr hm (by decide) hdisj).trans (tableEntry_of_zero hf.zero j)
  have hkept : ∀ u ∈ frames, ∀ j, ¬ (u = t ∧ j = i) →
      tableEntry m' hhdmOffset u j = tableEntry m hhdmOffset u j := by
    intro u hu j hslot
    rw [← tableEntry_congr hf.kept hu j]
    exact word_congr hm (by decide)
      (disjoint_tableSlot (h.frame u hu) (h.frame t hmem) hslot)
  have hroot : root ≠ f := fun hc => hf.notMem (hc ▸ h.root_mem)
  refine ⟨⟨?_, ?_, ?_, ?_⟩, hblank, hkept⟩
  · intro g hg
    rcases List.mem_cons.1 hg with rfl | hg
    · exact hf.frame
    · exact h.frame g hg
  · intro u l hu
    by_cases huf : u = f
    · rw [huf]
      exact List.mem_cons_self
    · rw [Function.update_of_ne huf] at hu
      exact List.mem_cons_of_mem f (h.owned u l hu)
  · rw [Function.update_of_ne hroot, h.level_root]
  · intro u l j hu hvalid hpage
    by_cases huf : u = f
    · rw [huf, hblank j] at hvalid
      exact absurd hvalid (by decide)
    · rw [Function.update_of_ne huf] at hu
      have hu' := h.owned u _ hu
      by_cases hslot : u = t ∧ j = i
      · obtain ⟨rfl, rfl⟩ := hslot
        rw [ht] at hu
        obtain rfl : k = l := by simpa using hu
        rw [hi, (linkEntry_valid _ hf.frame.isFrameAddress
          hf.frame.ne_zero).2, Function.update_self]
      · rw [hkept u hu' j hslot] at hvalid hpage ⊢
        have hchild := h.below u l j hu hvalid hpage
        rw [Function.update_of_ne, hchild]
        intro hc
        exact hf.notMem (hc ▸ h.owned _ _ hchild)

/-- One step down the tables: along a valid entry, or to a blank table that is
linked in. -/
theorem returns_nextTable {k : ℕ} (idx : BitVec 9)
    (h : Leveled S root n s frames level) (ht : level t = some (k + 1))
    (hpage : k = 0 → isValid (tableEntry s.mem hhdmOffset t i) = true →
      isPage (tableEntry s.mem hhdmOffset t i) = false)
    (hidx : t = root → i = idx) :
    (nextTable A (tableSlot hhdmOffset t i)).Returns s (n = 0) fun a s' =>
      ∃ u frames' level', a = u + hhdmOffset ∧
        Leveled S root (n - 1) s' frames' level' ∧ level' u = some k ∧
        Grows hhdmOffset root idx s frames level s' frames' level' ∧
        (codeChild (tableEntry s.mem hhdmOffset t i) = some u ∧ s' = s ∨
          ∀ j, tableEntry s'.mem hhdmOffset u j = 0) := by
  have hmem := h.levels.owned t _ ht
  by_cases hvalid : isValid (tableEntry s.mem hhdmOffset t i) = true
  · have hchild := h.levels.below t k i ht hvalid fun hk => hpage hk hvalid
    obtain ⟨u, haddress⟩ : ∃ u, getAddress (tableEntry s.mem hhdmOffset t i) =
        u := ⟨_, rfl⟩
    rw [haddress] at hchild
    have hu := h.levels.frame u (h.levels.owned u k hchild)
    refine .of_ok (a := u + hhdmOffset) (t := s) ?_ ⟨u, frames, level, rfl,
      ⟨S.mono n _ _ _ h.ready (by omega), h.levels⟩, hchild, Grows.refl ..,
      Or.inl ⟨codeChild_eq_some_iff.2 ⟨hvalid, haddress⟩, rfl⟩⟩
    exact run_nextTable_of_valid hvalid haddress
      (h.toVirtualAddr hu.ne_neg_one) hu.pointer_ne_zero
  · have hinvalid : isValid (word s.mem (tableSlot hhdmOffset t i)) = false :=
      Bool.eq_false_iff.2 hvalid
    rcases S.allocateFrame n _ frames h.ready with
      ⟨f, s₁, hrun, hfresh, hready⟩ | ⟨hn, e, s₁, hrun⟩
    · let s' : Machine 64 (PagingGlobals α) :=
        ⟨linkTable s₁.mem (tableSlot hhdmOffset t i) f,
          { s.globals with frames := s₁.globals }⟩
      have hm := agreeOff_linkTable s₁.mem (tableSlot hhdmOffset t i) f
      have hentry : tableEntry s'.mem hhdmOffset t i =
          linkEntry (tableEntry s.mem hhdmOffset t i) f := by
        rw [← tableEntry_congr hfresh.kept hmem i]
        exact word_linkTable _ _ _
      obtain ⟨hlevels, hblank, hkept⟩ := h.levels.link hfresh ht hm hentry
      have hleveled : Leveled S root (n - 1) s' (f :: frames)
          (Function.update level f (some k)) :=
        ⟨S.write _ _ _ _ hready (hm.mono fun x hx =>
          ⟨t, List.mem_cons_of_mem f hmem,
            region_tableSlot_subset hhdmOffset t i hx⟩), hlevels⟩
      have hfne : ∀ g ∈ frames, g ≠ f := by
        rintro g hg rfl
        exact hfresh.notMem hg
      refine .of_ok (a := f + hhdmOffset) (t := s') ?_ ⟨f, f :: frames, _, rfl,
        hleveled, Function.update_self .., ⟨List.subset_cons_self f frames,
          fun g hg => Function.update_of_ne (hfne g hg) .., ?_, ?_, rfl⟩,
        Or.inr hblank⟩
      · exact run_nextTable_of_fresh hinvalid hrun hfresh.frame
          (hleveled.toVirtualAddr hfresh.frame.ne_neg_one)
      · intro g hg hlevel j
        refine hkept g hg j ?_
        rintro ⟨rfl, -⟩
        rw [ht] at hlevel
        exact absurd hlevel (by simp)
      · intro j hj
        refine hkept root h.levels.root_mem j ?_
        rintro ⟨rfl, rfl⟩
        rcases hj with hj | hj
        · exact hj (hidx rfl)
        · exact hvalid hj
    · exact Or.inr ⟨hn, e, _, run_nextTable_of_error hinvalid hrun⟩

/-- A write to a slot of a table on one of the two last levels. -/
theorem Leveled.writePage {k : ℕ} (h : Leveled S root n s frames level)
    (ht : level t = some k) (hk : k < 2) (physicalAddr : Word) {flags : Word}
    (hpage : k = 1 → flags.getLsbD 7 = true) :
    Leveled S root n ⟨OptimistOS.writePage s.mem (tableSlot hhdmOffset t i)
        physicalAddr flags, s.globals⟩ frames level ∧
      ∀ idx, Grows hhdmOffset root idx s frames level
        ⟨OptimistOS.writePage s.mem (tableSlot hhdmOffset t i) physicalAddr
          flags, s.globals⟩ frames level := by
  have hmem := h.levels.owned t _ ht
  have hm := agreeOff_writePage s.mem (tableSlot hhdmOffset t i) physicalAddr
    flags
  have hword := word_writePage s.mem (tableSlot hhdmOffset t i) physicalAddr
    flags
  have hkept := fun {u} (hu : u ∈ frames) {j} =>
    h.levels.tableEntry_of_ne (j := j) hmem hm hu
  refine ⟨⟨h.ready_of_agreeOff hmem hm, h.levels.frame, h.levels.owned,
    h.levels.level_root, fun u l j hu hvalid hlarge => ?_⟩, fun idx =>
      ⟨List.Subset.refl _, fun _ _ => rfl, fun f hf hlevel j => ?_,
        fun j _ => ?_, rfl⟩⟩
  · by_cases hslot : u = t ∧ j = i
    · obtain ⟨rfl, rfl⟩ := hslot
      rw [ht, Option.some.injEq] at hu
      have hbit : isPage (tableEntry (OptimistOS.writePage s.mem
          (tableSlot hhdmOffset u j) physicalAddr flags) hhdmOffset u j) =
            true := by
        rw [tableEntry, hword, isPage, pageEntry, getLsbD_setFlag,
          hpage (by omega), Bool.or_true]
      rw [hlarge (by omega)] at hbit
      exact absurd hbit (by decide)
    · have hu' := h.levels.owned u _ hu
      rw [hkept hu' hslot] at hvalid hlarge ⊢
      exact h.levels.below u l j hu hvalid hlarge
  · refine hkept hf ?_
    rintro ⟨rfl, -⟩
    rw [ht] at hlevel
    exact absurd hlevel (by simp)
  · refine hkept h.levels.root_mem ?_
    rintro ⟨rfl, -⟩
    rw [h.levels.level_root, Option.some.injEq] at ht
    omega

/-- The walk of the code to the entry for `v`, in a table on one of the two last
levels. -/
theorem returns_virtualAddrToPTE (h : Leveled S root n s frames level)
    (hroot : s.globals.PML4 = root) (v : Word) {flags : Word}
    (hpage : flags &&& PageTableFlag.largerPages = 0 →
      ¬ FindsPage s.mem hhdmOffset root v) :
    (virtualAddrToPTE A v flags).Returns s (n < 3) fun entry s' =>
      ∃ t k i frames' level', entry = tableSlot hhdmOffset t i ∧
        Leveled S root (n - 3) s' frames' level' ∧ level' t = some k ∧ k < 2 ∧
        (k = 1 → flags.getLsbD 7 = true) ∧
        Grows hhdmOffset root (levelIndex v 3) s frames level s' frames'
          level' := by
  have hframe := h.levels.frame root h.levels.root_mem
  have hne : s.globals.PML4 ≠ 0 := hroot ▸ hframe.ne_zero
  -- `PML4` holds a pointer while the first entry is looked up
  let s₁ : Machine 64 (PagingGlobals α) :=
    { s with globals := { s.globals with PML4 := root + hhdmOffset } }
  have h₁ : Leveled S root n s₁ frames level := ⟨h.ready, h.levels⟩
  rw [virtualAddrToPTE]
  refine Returns.bind_of_ok (EStateM.run_get s) ?_
  rw [if_neg hne, hroot]
  refine Returns.bind_of_ok (h.toVirtualAddr hframe.ne_neg_one) ?_
  refine Returns.bind_of_ok (t := s₁) (run_modifyGlobals _ s) ?_
  rw [entryPointer_eq root v (by decide : 3 < 4)]
  refine Returns.bind ((returns_nextTable (levelIndex v 3) h₁
    h₁.levels.level_root (by simp) fun _ => rfl).mono (by omega)
      fun _ _ => id) ?_
  rintro _ s₂ ⟨t₂, frames₂, level₂, rfl, h₂, hlevel₂, hgrows₂, hway₂⟩
  let s₃ : Machine 64 (PagingGlobals α) :=
    { s₂ with globals := { s₂.globals with PML4 := root } }
  have h₃ : Leveled S root (n - 1) s₃ frames₂ level₂ := ⟨h₂.ready, h₂.levels⟩
  have hgrows₃ : Grows hhdmOffset root (levelIndex v 3) s frames level s₃ frames₂
      level₂ := by
    refine ⟨hgrows₂.frames_subset, hgrows₂.level_eq, hgrows₂.other,
      hgrows₂.top, ?_⟩
    change ({ s₂.globals with PML4 := root } : PagingGlobals α) = _
    rw [hgrows₂.globals, ← hroot]
  have hne₂ : t₂ ≠ root := by
    rintro rfl
    rw [h₂.levels.level_root] at hlevel₂
    exact absurd hlevel₂ (by decide)
  refine Returns.bind_of_ok (t := s₃) (run_modifyGlobals _ s₂) ?_
  rw [entryPointer_eq t₂ v (by decide : 2 < 4)]
  refine Returns.bind ((returns_nextTable (levelIndex v 3) h₃ hlevel₂
    (by simp) fun hc => absurd hc hne₂).mono (by omega) fun _ _ => id) ?_
  rintro _ s₄ ⟨t₁, frames₄, level₄, rfl, h₄, hlevel₄, hgrows₄, hway₄⟩
  have hgrows := hgrows₃.trans hgrows₄
  have hne₁ : t₁ ≠ root := by
    rintro rfl
    rw [h₄.levels.level_root] at hlevel₄
    exact absurd hlevel₄ (by decide)
  rw [entryPointer_eq t₁ v (by decide : 1 < 4)]
  by_cases hlarge : flags &&& PageTableFlag.largerPages = 0
  · rw [if_neg (by simpa using hlarge)]
    have hsmall : isValid (tableEntry s₄.mem hhdmOffset t₁ (levelIndex v 1)) =
        true → isPage (tableEntry s₄.mem hhdmOffset t₁ (levelIndex v 1)) =
          false := by
      intro hvalid
      by_contra hpage'
      have hnot : ∀ m : Bytes, (∀ j, tableEntry m hhdmOffset t₁ j = 0) →
          isValid (tableEntry m hhdmOffset t₁ (levelIndex v 1)) ≠ true :=
        fun m hm => by rw [hm]; decide
      rcases hway₄ with ⟨hchild₄, rfl⟩ | hblank
      · rcases hway₂ with ⟨hchild₂, rfl⟩ | hblank
        · -- both tables were there before: the walk arrives at a page
          refine hpage hlarge ⟨t₁, ?_, hvalid, by simpa using hpage'⟩
          change codeChild (tableEntry s.mem hhdmOffset root
            (levelIndex v 3)) = some t₂ at hchild₂
          change codeChild (tableEntry s.mem hhdmOffset t₂
            (levelIndex v 2)) = some t₁ at hchild₄
          rw [follow, hchild₂, Option.bind_some, follow, hchild₄]
          rfl
        · change codeChild (tableEntry s₂.mem hhdmOffset t₂
            (levelIndex v 2)) = some t₁ at hchild₄
          rw [hblank, show codeChild 0 = none by decide] at hchild₄
          exact absurd hchild₄ (by simp)
      · exact hnot _ hblank hvalid
    refine Returns.bind ((returns_nextTable (levelIndex v 3) h₄ hlevel₄
      (fun _ => hsmall) fun hc => absurd hc hne₁).mono (by omega)
        fun _ _ => id) ?_
    rintro _ s₅ ⟨t₀, frames₅, level₅, rfl, h₅, hlevel₅, hgrows₅, -⟩
    rw [entryPointer_eq t₀ v (by decide : 0 < 4)]
    exact .of_ok (EStateM.run_pure _ s₅) ⟨t₀, 0, levelIndex v 0, frames₅,
      level₅, rfl, ⟨S.mono _ _ _ _ h₅.ready (by omega), h₅.levels⟩, hlevel₅,
      by decide, by simp, hgrows.trans hgrows₅⟩
  · rw [if_pos hlarge]
    exact .of_ok (EStateM.run_pure _ s₄) ⟨t₁, 1, levelIndex v 1, frames₄, level₄, rfl,
      ⟨S.mono _ _ _ _ h₄.ready (by omega), h₄.levels⟩, hlevel₄, by decide,
      fun _ => (and_one_shiftLeft_ne_zero flags (by decide)).1 hlarge, hgrows⟩

theorem returns_map_levels (h : Leveled S root n s frames level)
    (hroot : s.globals.PML4 = root) (physicalAddr v : Word) {flags : Word}
    (hpage : flags &&& PageTableFlag.largerPages = 0 →
      ¬ FindsPage s.mem hhdmOffset root v) :
    (map A physicalAddr v flags).Returns s (n < 3) fun b s' =>
      b = true ∧ ∃ frames' level', Leveled S root (n - 3) s' frames' level' ∧
        Grows hhdmOffset root (levelIndex v 3) s frames level s' frames'
          level' := by
  rw [map]
  refine Returns.bind (returns_virtualAddrToPTE h hroot v hpage) ?_
  rintro _ s₁ ⟨t, k, i, frames₁, level₁, rfl, h₁, ht, hk, hlarge, hgrows⟩
  have hslot := (h₁.levels.frame t (h₁.levels.owned t k ht)).slot_ne_zero i
  obtain ⟨hwrite, hgrows'⟩ := h₁.writePage (i := i) ht hk physicalAddr hlarge
  rw [if_pos hslot]
  exact .of_ok rfl ⟨rfl, frames₁, level₁, hwrite, hgrows.trans (hgrows' _)⟩

theorem Mapped.leveled {owner : Word → Option (List (BitVec 9))}
    (h : Mapped S root n s frames owner) :
    Leveled S root n s frames fun t => (owner t).map fun p => 3 - p.length := by
  refine ⟨h.ready, h.tables.frame, fun t k ht => ?_, ?_,
    fun t k i ht hvalid hpage => ?_⟩
  · obtain ⟨p, hp, -⟩ := Option.map_eq_some_iff.1 ht
    exact h.tables.owned t p hp
  · rw [h.tables.unshared.root]
    rfl
  · obtain ⟨p, hp, hlen⟩ := Option.map_eq_some_iff.1 ht
    rcases h.tables.entry t p i hp (by omega) with hblank | ⟨u, hu⟩ | hbig
    · rw [hblank] at hvalid
      exact absurd hvalid (by decide)
    · have howner := h.tables.unshared.child t p i u hp (by omega) hu
      have hframe := h.tables.frame u (h.tables.owned u _ howner)
      rw [(isValid_of_childTable hu hframe.ne_zero).2, howner, Option.map_some,
        List.length_append, List.length_singleton]
      congr 1
      omega
    · rw [hpage (by omega)] at hbig
      exact absurd hbig.2.2 (by decide)

/-- Where the code finds a page, so does the processor. -/
theorem Mapped.pageView_of_findsPage {owner : Word → Option (List (BitVec 9))}
    (h : Mapped S root n s frames owner) {v : Word}
    (hpage : FindsPage s.mem hhdmOffset root v) :
    ∃ e i, pageView hhdmOffset root s.mem (levelIndices v) = some (e, [i]) := by
  have hchild : ∀ {t u : Word} {p i}, owner t = some p → p.length < 2 →
      codeChild (tableEntry s.mem hhdmOffset t i) = some u →
        childTable (tableEntry s.mem hhdmOffset t i) = some u ∧
          owner u = some (p ++ [i]) := by
    intro t u p i hp hlen hu
    obtain ⟨hvalid, haddress⟩ := codeChild_eq_some_iff.1 hu
    rcases h.tables.entry t p i hp (by omega) with hblank | ⟨u', hu'⟩ | hbig
    · rw [hblank] at hvalid
      exact absurd hvalid (by decide)
    · have howner := h.tables.unshared.child t p i u' hp (by omega) hu'
      have hframe := h.tables.frame u' (h.tables.owned u' _ howner)
      have heq := (isValid_of_childTable hu' hframe.ne_zero).2
      obtain rfl : u' = u := heq.symm.trans haddress
      exact ⟨hu', howner⟩
    · exact absurd hbig.1 (by omega)
  obtain ⟨t₁, hfollow, hvalid, hlarge⟩ := hpage
  rw [follow] at hfollow
  obtain ⟨t₂, hc₂, hfollow⟩ := Option.bind_eq_some_iff.1 hfollow
  rw [follow] at hfollow
  obtain ⟨t, hc₁, ht⟩ := Option.bind_eq_some_iff.1 hfollow
  obtain rfl : t = t₁ := Option.some.inj ht
  obtain ⟨hc₂', howner₂⟩ := hchild h.tables.unshared.root (by simp) hc₂
  obtain ⟨hc₁', -⟩ := hchild howner₂ (by simp) hc₁
  have hway : follow childTable (tableEntry s.mem hhdmOffset) root
      [levelIndex v 3, levelIndex v 2] = some t := by
    rw [follow, hc₂', Option.bind_some, follow, hc₁']
    rfl
  exact ⟨_, _, pageView_of_page hway ((isValid_iff _).1 hvalid).1 hlarge
    [levelIndex v 0]⟩

end

end OptimistOS
