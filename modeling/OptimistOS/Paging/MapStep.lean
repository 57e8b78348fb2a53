import OptimistOS.Paging.PageTables

/-!
# One call of `map`

The walk of `virtualAddrToPTE` goes from table to table and links in a fresh
frame where an entry is blank, which no walk of the processor can see. So `map`
changes the translation of one page and of nothing else: `run_map_large` for a
2 MB page, `run_map_small` for a 4 KB page in a region that has no 2 MB page.
The allocator is asked for at most one frame per level, and a call that does not
return has met an allocator without frames.
-/

namespace OptimistOS

open ByteMemory ByteMemory.Code RadixTree PageDirectoryEntry

/-- The invariant between two steps of the paging code. -/
structure Mapped {α : Type} {A : FrameAllocator α} {hhdmOffset : Word}
    (S : FrameSource A hhdmOffset) (root : Word) (n : ℕ)
    (s : Machine 64 (PagingGlobals α)) (frames : List Word)
    (owner : Word → Option (List (BitVec 9))) : Prop where
  ready : S.Ready n ⟨s.mem, s.globals.frames⟩ frames
  tables : Tables hhdmOffset root s.mem frames owner

/-- The global variables of `paging.cpp` itself are the same in both states. -/
def SameGlobals {α : Type} (s s' : Machine 64 (PagingGlobals α)) : Prop :=
  s'.globals = { s.globals with frames := s'.globals.frames }

def SameWalks {α : Type} (hhdmOffset root : Word)
    (s s' : Machine 64 (PagingGlobals α)) : Prop :=
  ∀ q, q.length = 4 →
    pageView hhdmOffset root s'.mem q = pageView hhdmOffset root s.mem q

theorem SameGlobals.trans {α : Type} {s s' s'' : Machine 64 (PagingGlobals α)}
    (h : SameGlobals s s') (h' : SameGlobals s' s'') : SameGlobals s s'' := by
  unfold SameGlobals at *
  rw [h', h]

/-- The writes of `getNextLevelPointer`. -/
def linkTable (m : Bytes) (entry : Addr) (f : Word) : Bytes :=
  modifyWord (modifyWord (modifyWord (modifyWord m entry fun value =>
    setAddress value f) entry fun value =>
      setFlag value PageTableFlag.readWrite true) entry fun value =>
        setFlag value PageTableFlag.userOrSuperuser true) entry fun value =>
          setFlag value PageTableFlag.present true

theorem agreeOff_linkTable (m : Bytes) (entry : Addr) (f : Word) :
    AgreeOff (region entry 8) m (linkTable m entry f) :=
  (((agreeOff_modifyWord _ _ _).modifyWord _).modifyWord _).modifyWord _

theorem word_linkTable (m : Bytes) (entry : Addr) (f : Word) :
    word (linkTable m entry f) entry = linkEntry (word m entry) f := by
  rw [linkTable, word_modifyWord _ _ _ (by decide),
    word_modifyWord _ _ _ (by decide), word_modifyWord _ _ _ (by decide),
    word_modifyWord _ _ _ (by decide), linkEntry]

section

variable {α : Type} {A : FrameAllocator α} {hhdmOffset : Word}
  {S : FrameSource A hhdmOffset} {root : Word} {n : ℕ}
  {s : Machine 64 (PagingGlobals α)}
  {frames : List Word} {owner : Word → Option (List (BitVec 9))}
  {p : List (BitVec 9)} {t : Word} {i : BitVec 9}

theorem run_callFrames_ok {β : Type} {x : Code 64 α β}
    {b : β} {t : Machine 64 α} (h : x.run ⟨s.mem, s.globals.frames⟩ = .ok b t) :
    (callFrames x).run s =
      .ok b ⟨t.mem, { s.globals with frames := t.globals }⟩ :=
  run_zoom_of_ok h

theorem run_callFrames_error {β : Type} {x : Code 64 α β} {e : Stop}
    {t : Machine 64 α} (h : x.run ⟨s.mem, s.globals.frames⟩ = .error e t) :
    (callFrames x).run s =
      .error e ⟨t.mem, { s.globals with frames := t.globals }⟩ :=
  run_zoom_of_error h

theorem IsTableFrame.ne_neg_one {f : Word} (h : IsTableFrame hhdmOffset f) :
    f ≠ -1 := by
  rintro rfl
  exact absurd h.aligned (by decide)

theorem IsTableFrame.pointer_ne_zero {f : Word}
    (h : IsTableFrame hhdmOffset f) : f + hhdmOffset ≠ 0 := by
  intro h0
  refine h.mapped ?_
  rw [h0, mem_region]
  decide

theorem IsTableFrame.isFrameAddress {f : Word}
    (h : IsTableFrame hhdmOffset f) : IsFrameAddress f :=
  isFrameAddress_of_mod h.aligned h.lt

theorem IsTableFrame.slot_ne_zero {f : Word} (h : IsTableFrame hhdmOffset f)
    (i : BitVec 9) : tableSlot hhdmOffset f i ≠ 0 := by
  intro h0
  refine h.mapped (region_tableSlot_subset hhdmOffset f i ?_)
  rw [h0, mem_region]
  decide

theorem Mapped.toVirtualAddr (h : Mapped S root n s frames owner) {a : Word}
    (ha : a ≠ -1) :
    (callFrames (A.toVirtualAddr a)).run s = .ok (a + hhdmOffset) s :=
  run_callFrames_ok (S.toVirtualAddr n _ frames h.ready
    (List.ne_nil_of_mem h.tables.root_mem) a ha)

theorem Mapped.ready_of_agreeOff (h : Mapped S root n s frames owner)
    (ht : t ∈ frames) {m' : Bytes}
    (hm : AgreeOff (region (tableSlot hhdmOffset t i) 8) s.mem m') :
    S.Ready n ⟨m', s.globals.frames⟩ frames :=
  S.write n _ frames m' h.ready (hm.mono fun _ hx =>
    ⟨t, ht, region_tableSlot_subset hhdmOffset t i hx⟩)

theorem childTable_linkEntry {f : Word} (h : IsFrameAddress f) :
    childTable (linkEntry 0 f) = some f := by
  rw [childTable_of_table, linkEntry_and_addressMask h]
  · rw [isPresent, getLsbD_linkEntry h, decide_eq_true (by decide),
      Bool.or_true]
  · rw [isPage, getLsbD_linkEntry h, h.getLsbD (by omega)]
    rfl

theorem isValid_of_childTable {e u : Word} (h : childTable e = some u)
    (hu : u ≠ 0) : isValid e = true ∧ getAddress e = u := by
  rw [childTable] at h
  split_ifs at h with hc
  obtain rfl := Option.some.inj h
  exact ⟨(isValid_iff e).2 ⟨hc.1, hu⟩, getAddress_eq e⟩

theorem run_nextTable_of_valid {entry : Addr} {u : Word}
    (hvalid : isValid (word s.mem entry) = true)
    (haddress : getAddress (word s.mem entry) = u)
    (htranslate : (callFrames (A.toVirtualAddr u)).run s =
      .ok (u + hhdmOffset) s) (hpointer : u + hhdmOffset ≠ 0) :
    (nextTable A entry).run s = .ok (u + hhdmOffset) s := by
  have hne : u ≠ 0 := by
    rw [← haddress, getAddress_eq]
    exact ((isValid_iff _).1 hvalid).2
  have hnext : (getNextLevelPointer A entry true).run s = .ok u s := by
    simp only [getNextLevelPointer, EStateM.run_bind, EStateM.run_get, hvalid,
      if_true, EStateM.run_pure, haddress, if_pos hne]
  rw [nextTable, run_bind_of_ok hnext, run_bind_of_ok htranslate,
    if_neg hpointer]
  rfl

theorem run_nextTable_of_fresh {entry : Addr} {f : Word} {s₁ : Machine 64 α}
    {s' : Machine 64 (PagingGlobals α)}
    (hinvalid : isValid (word s.mem entry) = false)
    (hrun : (A.allocateFrame 0x1000).run ⟨s.mem, s.globals.frames⟩ = .ok f s₁)
    (hf : IsTableFrame hhdmOffset f)
    (htranslate : (callFrames (A.toVirtualAddr f)).run
      ⟨linkTable s₁.mem entry f, { s.globals with frames := s₁.globals }⟩ =
        .ok (f + hhdmOffset) s') :
    (nextTable A entry).run s = .ok (f + hhdmOffset) s' := by
  have hnext : (getNextLevelPointer A entry true).run s = .ok f
      ⟨linkTable s₁.mem entry f, { s.globals with frames := s₁.globals }⟩ := by
    simp only [getNextLevelPointer, EStateM.run_bind, EStateM.run_get, hinvalid,
      if_true, Bool.false_eq_true, if_false, run_callFrames_ok hrun,
      run_modifyMem, EStateM.run_pure, if_pos hf.ne_zero, linkTable]
  rw [nextTable, run_bind_of_ok hnext, run_bind_of_ok htranslate,
    if_neg hf.pointer_ne_zero]
  rfl

theorem run_nextTable_of_error {entry : Addr} {e : Stop} {s₁ : Machine 64 α}
    (hinvalid : isValid (word s.mem entry) = false)
    (hrun : (A.allocateFrame 0x1000).run ⟨s.mem, s.globals.frames⟩ =
      .error e s₁) :
    (nextTable A entry).run s =
      .error e ⟨s₁.mem, { s.globals with frames := s₁.globals }⟩ := by
  have hnext : (getNextLevelPointer A entry true).run s =
      .error e ⟨s₁.mem, { s.globals with frames := s₁.globals }⟩ := by
    simp only [getNextLevelPointer, EStateM.run_bind, EStateM.run_get, hinvalid,
      if_true, Bool.false_eq_true, if_false, run_callFrames_error hrun]
  rw [nextTable, run_bind_of_error hnext]

/-- One step down the tables: the next table on the path, linked in when the
entry was blank. -/
theorem run_nextTable (h : Mapped S root n s frames owner)
    (ht : follow childTable (tableEntry s.mem hhdmOffset) root p = some t)
    (hlen : p.length < 3)
    (hpage : p.length = 2 →
      isPresent (tableEntry s.mem hhdmOffset t i) = true →
        isPage (tableEntry s.mem hhdmOffset t i) = false) :
    (∃ u s' frames' owner',
      (nextTable A (tableSlot hhdmOffset t i)).run s =
          .ok (u + hhdmOffset) s' ∧
        Mapped S root (n - 1) s' frames' owner' ∧
        follow childTable (tableEntry s'.mem hhdmOffset) root (p ++ [i]) =
          some u ∧
        SameGlobals s s' ∧ SameWalks hhdmOffset root s s') ∨
      n = 0 ∧ ∃ e s', (nextTable A (tableSlot hhdmOffset t i)).run s =
        .error e s' := by
  have howner := h.tables.owner_of_follow ht hlen.le
  have hmem := h.tables.owned t p howner
  rcases h.tables.entry t p i howner hlen with hblank | ⟨u, hu⟩ | hbig
  · -- the entry is blank: a frame is asked for
    have hinvalid : isValid (word s.mem (tableSlot hhdmOffset t i)) = false := by
      change isValid (tableEntry s.mem hhdmOffset t i) = false
      rw [hblank]
      decide
    rcases S.allocateFrame n _ frames h.ready with
      ⟨f, s₁, hrun, hfresh, hready⟩ | ⟨hn, e, s₁, hrun⟩
    · left
      set m' := linkTable s₁.mem (tableSlot hhdmOffset t i) f
      have hagree := agreeOff_linkTable s₁.mem (tableSlot hhdmOffset t i) f
      have hold : word s₁.mem (tableSlot hhdmOffset t i) = 0 :=
        (tableEntry_congr hfresh.kept hmem i).trans hblank
      have hentry : tableEntry m' hhdmOffset t i = linkEntry 0 f := by
        rw [tableEntry, word_linkTable, hold]
      have hchild : childTable (tableEntry m' hhdmOffset t i) = some f := by
        rw [hentry]
        exact childTable_linkEntry hfresh.frame.isFrameAddress
      obtain ⟨htables, hfollow, hview⟩ :=
        h.tables.link hfresh ht hlen hagree hblank hchild
      have hmapped : Mapped S root (n - 1)
          ⟨m', { s.globals with frames := s₁.globals }⟩ (f :: frames)
          (Function.update owner f (some (p ++ [i]))) :=
        ⟨S.write _ _ _ m' hready (hagree.mono fun x hx =>
          ⟨t, List.mem_cons_of_mem f hmem,
            region_tableSlot_subset hhdmOffset t i hx⟩), htables⟩
      refine ⟨f, ⟨m', { s.globals with frames := s₁.globals }⟩, _, _, ?_,
        hmapped, hfollow, rfl, hview⟩
      exact run_nextTable_of_fresh hinvalid hrun hfresh.frame
        (hmapped.toVirtualAddr hfresh.frame.ne_neg_one)
    · right
      exact ⟨hn, e, _, run_nextTable_of_error hinvalid hrun⟩
  · -- the entry leads to a table of the tree
    left
    have hu' := h.tables.frame u (h.tables.owned u _
      (h.tables.unshared.child t p i u howner hlen hu))
    obtain ⟨hvalid, haddress⟩ := isValid_of_childTable hu hu'.ne_zero
    exact ⟨u, s, frames, owner, run_nextTable_of_valid hvalid haddress
      (h.toVirtualAddr hu'.ne_neg_one) hu'.pointer_ne_zero,
      ⟨S.mono n _ _ _ h.ready (by omega), h.tables⟩,
      (follow_snoc ht).trans hu, rfl, fun q _ => rfl⟩
  · rw [hpage hbig.1 hbig.2.1] at hbig
    exact absurd hbig.2.2 (by decide)

theorem tableIndex_eq (v : Word) {k : ℕ} (hk : k < 4) :
    tableIndex v (12 + 9 * k) = (levelIndex v k).setWidth 64 := by
  have hmask : ∀ j : Fin 64, (0x1FF : Word).getLsbD j = decide ((j : ℕ) < 9) := by
    decide
  refine BitVec.eq_of_getLsbD_eq fun i hi => ?_
  rw [tableIndex, levelIndex, BitVec.getLsbD_ushiftRight, BitVec.getLsbD_and,
    BitVec.getLsbD_shiftLeft, BitVec.getLsbD_setWidth, BitVec.getLsbD_extractLsb']
  rw [Nat.add_sub_cancel_left, hmask ⟨i, hi⟩]
  by_cases h9 : i < 9
  · simp [h9, hi, show 12 + 9 * k + i < 64 by omega]
  · simp [h9]

theorem entryPointer_eq (t v : Word) {k : ℕ} (hk : k < 4) :
    entryPointer (t + hhdmOffset) (tableIndex v (12 + 9 * k)) =
      tableSlot hhdmOffset t (levelIndex v k) := by
  have hmul : 8 * (levelIndex v k).setWidth 64 =
      BitVec.ofNat 64 (8 * (levelIndex v k).toNat) := by
    rw [BitVec.ofNat_mul, BitVec.ofNat_toNat]
    rfl
  rw [tableIndex_eq v hk, entryPointer, tableSlot, hmul]

/-- The walk down to the page directory of `v`. -/
theorem run_virtualAddrToPTE (h : Mapped S root n s frames owner)
    (hroot : s.globals.PML4 = root) (v flags : Word) :
    (∃ t s' frames' owner',
      (virtualAddrToPTE A v flags).run s =
          (if flags &&& PageTableFlag.largerPages ≠ 0 then
            pure (tableSlot hhdmOffset t (levelIndex v 1))
          else do
            let PML1 ← nextTable A (tableSlot hhdmOffset t (levelIndex v 1))
            return entryPointer PML1 (tableIndex v 12) :
              Code 64 (PagingGlobals α) Addr).run s' ∧
        Mapped S root (n - 2) s' frames' owner' ∧
        follow childTable (tableEntry s'.mem hhdmOffset) root
          [levelIndex v 3, levelIndex v 2] = some t ∧
        SameGlobals s s' ∧ SameWalks hhdmOffset root s s') ∨
      n < 2 ∧ ∃ e s', (virtualAddrToPTE A v flags).run s = .error e s' := by
  have hframe := h.tables.frame root h.tables.root_mem
  have hne : root ≠ 0 := hframe.ne_zero
  -- `PML4` holds a pointer while the first entry is looked up
  let s₁ : Machine 64 (PagingGlobals α) :=
    { s with globals := { s.globals with PML4 := root + hhdmOffset } }
  have h₁ : Mapped S root n s₁ frames owner := ⟨h.ready, h.tables⟩
  have hstart : ∀ {β : Type} (f : Addr → Code 64 (PagingGlobals α) β),
      (callFrames (A.toVirtualAddr root) >>= f).run s =
        (f (root + hhdmOffset)).run s := fun f =>
    run_bind_of_ok (h.toVirtualAddr hframe.ne_neg_one)
  have hbegin : (virtualAddrToPTE A v flags).run s = (do
      let PML3 ← nextTable A (tableSlot hhdmOffset root (levelIndex v 3))
      modifyGlobals fun g => { g with PML4 := root }
      let PML2 ← nextTable A (entryPointer PML3 (tableIndex v 30))
      if flags &&& PageTableFlag.largerPages ≠ 0 then
        return entryPointer PML2 (tableIndex v 21)
      else
        let PML1 ← nextTable A (entryPointer PML2 (tableIndex v 21))
        return entryPointer PML1 (tableIndex v 12) :
          Code 64 (PagingGlobals α) Addr).run s₁ := by
    rw [virtualAddrToPTE, EStateM.run_bind, EStateM.run_get]
    simp only [hroot, if_neg hne, hstart, EStateM.run_bind, run_modifyGlobals]
    rw [← entryPointer_eq root v (by decide : 3 < 4)]
  rw [hbegin]
  rcases run_nextTable (i := levelIndex v 3) h₁
    (show follow childTable (tableEntry s₁.mem hhdmOffset) root [] = some root
      from rfl) (by decide) (by simp) with
    ⟨t₃, s₂, frames₂, owner₂, hrun₂, h₂, hfollow₂, hglobals₂, hwalks₂⟩ |
      ⟨hn, e, s₂, hrun₂⟩
  · let s₃ : Machine 64 (PagingGlobals α) :=
      { s₂ with globals := { s₂.globals with PML4 := root } }
    have h₃ : Mapped S root (n - 1) s₃ frames₂ owner₂ := ⟨h₂.ready, h₂.tables⟩
    have hglobals₃ : SameGlobals s s₃ := by
      change ({ s₂.globals with PML4 := root } : PagingGlobals α) = _
      rw [hglobals₂, ← hroot]
    rw [run_bind_of_ok hrun₂]
    simp only [EStateM.run_bind, run_modifyGlobals]
    rw [entryPointer_eq t₃ v (by decide : 2 < 4)]
    rcases run_nextTable (i := levelIndex v 2) h₃ hfollow₂ (by simp)
      (by simp) with
      ⟨t₂, s₄, frames₄, owner₄, hrun₄, h₄, hfollow₄, hglobals₄, hwalks₄⟩ |
        ⟨hn, e, s₄, hrun₄⟩
    · left
      refine ⟨t₂, s₄, frames₄, owner₄, ?_, h₄, hfollow₄,
        hglobals₃.trans hglobals₄, fun q hq =>
          (hwalks₄ q hq).trans (hwalks₂ q hq)⟩
      rw [hrun₄]
      simp only
      rw [entryPointer_eq t₂ v (by decide : 1 < 4)]
    · right
      refine ⟨by omega, e, s₄, ?_⟩
      rw [hrun₄]
  · right
    refine ⟨by omega, e, s₂, ?_⟩
    rw [run_bind_of_error hrun₂]

def writePage (m : Bytes) (entry : Addr) (physicalAddr flags : Word) : Bytes :=
  modifyWord (modifyWord m entry fun value => setAddress value physicalAddr)
    entry fun value => setFlag value flags true

theorem word_writePage (m : Bytes) (entry : Addr) (physicalAddr flags : Word) :
    word (writePage m entry physicalAddr flags) entry =
      pageEntry (word m entry) physicalAddr flags := by
  rw [writePage, word_modifyWord _ _ _ (by decide),
    word_modifyWord _ _ _ (by decide), pageEntry]

theorem agreeOff_writePage (m : Bytes) (entry : Addr)
    (physicalAddr flags : Word) :
    AgreeOff (region entry 8) m (writePage m entry physicalAddr flags) :=
  (agreeOff_modifyWord _ _ _).modifyWord _

theorem run_map_of_entry {physicalAddr v flags : Word} {entry : Addr}
    {s' : Machine 64 (PagingGlobals α)}
    (hrun : (virtualAddrToPTE A v flags).run s = .ok entry s')
    (hentry : entry ≠ 0) :
    (map A physicalAddr v flags).run s =
      .ok true ⟨writePage s'.mem entry physicalAddr flags, s'.globals⟩ := by
  rw [map, run_bind_of_ok hrun, if_pos hentry]
  rfl

theorem run_map_of_error {physicalAddr v flags : Word} {e : Stop}
    {s' : Machine 64 (PagingGlobals α)}
    (hrun : (virtualAddrToPTE A v flags).run s = .error e s') :
    (map A physicalAddr v flags).run s = .error e s' := by
  rw [map, run_bind_of_error hrun]

/-- A page is written into a slot of the tree. -/
theorem Mapped.writePage (h : Mapped S root n s frames owner)
    (ht : follow childTable (tableEntry s.mem hhdmOffset) root p = some t)
    (hlen : p.length = 2 ∨ p.length = 3) (physicalAddr : Word) {flags : Word}
    (hpresent : flags.getLsbD 0 = true)
    (hmask : flags &&& addressMask = 0)
    (hpage : p.length = 2 → flags.getLsbD 7 = true) :
    Mapped S root n ⟨OptimistOS.writePage s.mem (tableSlot hhdmOffset t i)
        physicalAddr flags, s.globals⟩ frames owner ∧
      ∀ q, q.length = 4 → pageView hhdmOffset root (OptimistOS.writePage s.mem
          (tableSlot hhdmOffset t i) physicalAddr flags) q =
        if p ++ [i] <+: q then
          some (pageEntry (tableEntry s.mem hhdmOffset t i) physicalAddr flags,
            q.drop (p.length + 1))
        else pageView hhdmOffset root s.mem q := by
  have howner := h.tables.owner_of_follow ht (by omega)
  have hagree := agreeOff_writePage s.mem (tableSlot hhdmOffset t i)
    physicalAddr flags
  have hword := word_writePage s.mem (tableSlot hhdmOffset t i) physicalAddr
    flags
  change tableEntry _ hhdmOffset t i = pageEntry (tableEntry s.mem hhdmOffset
    t i) physicalAddr flags at hword
  have hpresent' : isPresent (tableEntry (OptimistOS.writePage s.mem
      (tableSlot hhdmOffset t i) physicalAddr flags) hhdmOffset t i) = true := by
    rw [hword, isPresent, getLsbD_pageEntry _ hmask, if_neg (by omega), hpresent,
      Bool.or_true]
  have hpage' : p.length < 3 → isPage (tableEntry (OptimistOS.writePage s.mem
      (tableSlot hhdmOffset t i) physicalAddr flags) hhdmOffset t i) = true := by
    intro hlt
    rw [hword, isPage, getLsbD_pageEntry _ hmask, if_neg (by omega),
      hpage (by omega), Bool.or_true]
  refine ⟨⟨h.ready_of_agreeOff (h.tables.owned t p howner) hagree,
    h.tables.set howner hagree fun hlt => ⟨by omega, hpresent', hpage' hlt⟩⟩,
    fun q hq => ?_⟩
  rw [h.tables.pageView_set ht (by omega) hagree hpresent' hpage' hq, hword]

theorem run_map_large (h : Mapped S root n s frames owner)
    (hroot : s.globals.PML4 = root) (physicalAddr v : Word) {flags : Word}
    (hpresent : flags.getLsbD 0 = true) (hlarge : flags.getLsbD 7 = true)
    (hmask : flags &&& addressMask = 0) :
    (∃ s' frames' owner' e,
      (map A physicalAddr v flags).run s = .ok true s' ∧
        Mapped S root (n - 2) s' frames' owner' ∧ SameGlobals s s' ∧
        ∀ q, q.length = 4 → pageView hhdmOffset root s'.mem q =
          if [levelIndex v 3, levelIndex v 2, levelIndex v 1] <+: q then
            some (pageEntry e physicalAddr flags, q.drop 3)
          else pageView hhdmOffset root s.mem q) ∨
      n < 2 ∧ ∃ e s', (map A physicalAddr v flags).run s = .error e s' := by
  have hflags : flags &&& PageTableFlag.largerPages ≠ 0 :=
    (and_one_shiftLeft_ne_zero flags (by decide)).2 hlarge
  rcases run_virtualAddrToPTE h hroot v flags with
    ⟨t, s₁, frames₁, owner₁, hrun, h₁, hfollow, hglobals, hwalks⟩ |
      ⟨hn, e, s₁, hrun⟩
  · left
    rw [if_pos hflags] at hrun
    obtain ⟨hmapped, hview⟩ := h₁.writePage (i := levelIndex v 1) hfollow
      (Or.inl rfl) physicalAddr hpresent hmask fun _ => hlarge
    refine ⟨_, frames₁, owner₁, tableEntry s₁.mem hhdmOffset t (levelIndex v 1),
      run_map_of_entry hrun ?_, hmapped, hglobals, fun q hq => ?_⟩
    · exact (h₁.tables.frame t (h₁.tables.mem_of_follow hfollow
        (by simp))).slot_ne_zero _
    · rw [← hwalks q hq]
      exact hview q hq
  · exact Or.inr ⟨hn, e, s₁, run_map_of_error hrun⟩

theorem pageView_of_page
    (ht : follow childTable (tableEntry s.mem hhdmOffset) root p = some t)
    (hpresent : isPresent (tableEntry s.mem hhdmOffset t i) = true)
    (hpage : isPage (tableEntry s.mem hhdmOffset t i) = true)
    (r : List (BitVec 9)) :
    pageView hhdmOffset root s.mem (p ++ i :: r) =
      some (tableEntry s.mem hhdmOffset t i, r) := by
  have hne : tableEntry s.mem hhdmOffset t i ≠ 0 := by
    intro h0
    rw [h0] at hpresent
    exact absurd hpresent (by decide)
  rw [pageView, resolve_append ht (by simp),
    resolve_of_child_eq_none (childTable_of_page hpage),
    Option.filter_some_pos (by simpa using hne)]

/-- `map` of a 4 KB page where no walk ends at a 2 MB page. -/
theorem run_map_small (h : Mapped S root n s frames owner)
    (hroot : s.globals.PML4 = root) (physicalAddr v : Word) {flags : Word}
    (hpresent : flags.getLsbD 0 = true) (hsmall : flags.getLsbD 7 = false)
    (hmask : flags &&& addressMask = 0)
    (hregion : ∀ e i, pageView hhdmOffset root s.mem (levelIndices v) ≠
      some (e, [i])) :
    (∃ s' frames' owner' e,
      (map A physicalAddr v flags).run s = .ok true s' ∧
        Mapped S root (n - 3) s' frames' owner' ∧ SameGlobals s s' ∧
        ∀ q, q.length = 4 → pageView hhdmOffset root s'.mem q =
          if q = levelIndices v then some (pageEntry e physicalAddr flags, [])
          else pageView hhdmOffset root s.mem q) ∨
      n < 3 ∧ ∃ e s', (map A physicalAddr v flags).run s = .error e s' := by
  have hflags : ¬ flags &&& PageTableFlag.largerPages ≠ 0 := by
    rw [PageTableFlag.largerPages,
      and_one_shiftLeft_ne_zero flags (by decide), hsmall]
    decide
  rcases run_virtualAddrToPTE h hroot v flags with
    ⟨t₂, s₁, frames₁, owner₁, hrun, h₁, hfollow₁, hglobals₁, hwalks₁⟩ |
      ⟨hn, e, s₁, hrun⟩
  · rw [if_neg hflags] at hrun
    have hpage : [levelIndex v 3, levelIndex v 2].length = 2 →
        isPresent (tableEntry s₁.mem hhdmOffset t₂ (levelIndex v 1)) = true →
          isPage (tableEntry s₁.mem hhdmOffset t₂ (levelIndex v 1)) = false := by
      intro _ hp
      by_contra hs
      have hend := pageView_of_page hfollow₁ hp (by simpa using hs)
        [levelIndex v 0]
      exact hregion _ _ ((hwalks₁ (levelIndices v) rfl).symm.trans hend)
    rcases run_nextTable h₁ hfollow₁ (by simp) hpage with
      ⟨t₁, s₂, frames₂, owner₂, hrun₂, h₂, hfollow₂, hglobals₂, hwalks₂⟩ |
        ⟨hn, e, s₂, hrun₂⟩
    · left
      rw [run_bind_of_ok hrun₂, entryPointer_eq t₁ v (by decide : 0 < 4)] at hrun
      obtain ⟨hmapped, hview⟩ := h₂.writePage (i := levelIndex v 0) hfollow₂
        (Or.inr rfl) physicalAddr hpresent hmask (by simp)
      refine ⟨_, frames₂, owner₂,
        tableEntry s₂.mem hhdmOffset t₁ (levelIndex v 0),
        run_map_of_entry hrun ?_, hmapped, hglobals₁.trans hglobals₂,
        fun q hq => ?_⟩
      · exact (h₂.tables.frame t₁ (h₂.tables.mem_of_follow hfollow₂
          (by simp))).slot_ne_zero _
      · rw [← hwalks₁ q hq, ← hwalks₂ q hq, hview q hq]
        have hiff : [levelIndex v 3, levelIndex v 2] ++ [levelIndex v 1] ++
            [levelIndex v 0] <+: q ↔ q = levelIndices v := by
          constructor
          · intro hpre
            exact (hpre.eq_of_length (by simp [hq])).symm
          · rintro rfl
            exact List.prefix_rfl
        refine if_congr hiff ?_ rfl
        rw [List.drop_of_length_le (by simp [hq])]
    · right
      rw [run_bind_of_error hrun₂] at hrun
      exact ⟨by omega, e, s₂, run_map_of_error hrun⟩
  · exact Or.inr ⟨by omega, e, s₁, run_map_of_error hrun⟩

end

end OptimistOS
