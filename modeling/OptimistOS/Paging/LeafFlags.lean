import OptimistOS.Foundation.Run
import OptimistOS.Paging.FlagTrees

/-!
# The flags of a mapped page

Runs of `map` in which no 4 KB page is asked for in a region that has a 2 MB
page already. Every call ends the walk for its address at the entry that it has
written, and this entry holds the flags of the call together with all that the
entry has held before (`FlagTree.returns_map`). So the flags are exactly those of
the call if and only if they include all flags that the entry has collected
(`leafFlags_iff`), and a page that is mapped again with fewer rights keeps the
old ones (`exists_not_leafFlags`).
-/

namespace OptimistOS

open ByteMemory ByteMemory.Code RadixTree PageDirectoryEntry Transition

/-- The walk for the address of the call ends at an entry whose bits outside of
the address field are the flags of the call. -/
def LeafFlags (hhdmOffset root : Word) (m : Bytes) (c : PageMapping) : Prop :=
  ∃ e r, resolve childTable (tableEntry m hhdmOffset) root
      (levelIndices c.virtualAddr) = some (e, r) ∧
    e &&& ~~~addressMask = c.flags

/-- The flags of the call include those of every earlier call for the same page,
and those of a pointer to a page table if a 2 MB page is asked for in a region
with 4 KB pages. -/
structure IncludesEarlierFlags (calls : List PageMapping) (c : PageMapping) :
    Prop where
  page : ∀ d ∈ calls, d.path = c.path → d.flags &&& ~~~c.flags = 0
  pointer : c.large = true → SmallIn calls (regionPath c.virtualAddr) →
    (PageTableFlag.present ||| PageTableFlag.readWrite |||
      PageTableFlag.userOrSuperuser) &&& ~~~c.flags = 0

theorem and_not_eq_zero_iff {a b : Word} :
    a &&& ~~~b = 0 ↔ ∀ k, a.getLsbD k = true → b.getLsbD k = true := by
  constructor
  · intro h k hk
    have hbit := congrArg (fun x : Word => x.getLsbD k) h
    have hlt : k < 64 := BitVec.lt_of_getLsbD hk
    simpa [hk, hlt] using hbit
  · intro h
    refine BitVec.eq_of_getLsbD_eq fun k hk => ?_
    rw [BitVec.getLsbD_and, BitVec.getLsbD_not, decide_eq_true hk,
      Bool.true_and]
    cases ha : a.getLsbD k
    · rw [Bool.false_and]
      exact BitVec.getLsbD_zero.symm
    · rw [h k ha]
      exact BitVec.getLsbD_zero.symm

theorem PageMapping.of_getLsbD_flags (c : PageMapping) {k : ℕ}
    (h : c.flags.getLsbD k = true) : k < 12 ∨ 52 ≤ k := by
  by_contra hnot
  have hzero := congrArg (fun x : Word => x.getLsbD k) c.flags_mask
  rw [BitVec.getLsbD_and, h, getLsbD_addressMask, decide_eq_true (by omega),
    decide_eq_true (by omega)] at hzero
  exact absurd hzero (by simp)

theorem HoldsFlag.outside {calls : List PageMapping} {q : List (BitVec 9)}
    {k : ℕ} (h : HoldsFlag calls q k) : k < 12 ∨ 52 ≤ k ∧ k < 64 := by
  rcases h with ⟨d, -, -, hbit⟩ | ⟨-, hk⟩
  · exact (d.of_getLsbD_flags hbit).imp_right fun hk =>
      ⟨hk, BitVec.lt_of_getLsbD hbit⟩
  · omega

/-- The condition, flag by flag. -/
theorem includesEarlierFlags_iff {calls : List PageMapping} {c : PageMapping} :
    IncludesEarlierFlags calls c ↔
      ∀ k, HoldsFlag calls c.path k → c.flags.getLsbD k = true := by
  have hpointer : ∀ k, (PageTableFlag.present ||| PageTableFlag.readWrite |||
      PageTableFlag.userOrSuperuser).getLsbD k = true ↔ k < 3 := by
    intro k
    by_cases hk : k < 64
    · have hall : ∀ j : Fin 64, (PageTableFlag.present |||
          PageTableFlag.readWrite ||| PageTableFlag.userOrSuperuser).getLsbD j =
            true ↔ (j : ℕ) < 3 := by decide
      exact hall ⟨k, hk⟩
    · rw [BitVec.getLsbD_of_ge _ _ (by omega)]
      exact ⟨fun h => absurd h (by decide), fun h => by omega⟩
  have hregion : ∀ q, SmallIn calls q → q.length = 3 := by
    rintro q ⟨d, -, -, rfl⟩
    rfl
  constructor
  · rintro ⟨hpage, hptr⟩ k (⟨d, hd, hpath, hbit⟩ | ⟨hsmall, hk⟩)
    · exact and_not_eq_zero_iff.1 (hpage d hd hpath) k hbit
    · have hlarge : c.large = true := by
        have hlen := hregion _ hsmall
        rw [c.path_length] at hlen
        by_contra hnot
        rw [if_neg hnot] at hlen
        omega
      rw [PageMapping.path, if_pos hlarge] at hsmall
      exact and_not_eq_zero_iff.1 (hptr hlarge hsmall) k ((hpointer k).2 hk)
  · intro h
    refine ⟨fun d hd hpath => and_not_eq_zero_iff.2 fun k hk =>
      h k (Or.inl ⟨d, hd, hpath, hk⟩), fun hlarge hsmall =>
        and_not_eq_zero_iff.2 fun k hk => h k (Or.inr ⟨?_, (hpointer k).1 hk⟩)⟩
    rwa [PageMapping.path, if_pos hlarge]

/-- The flags of a page entry are those of the call if and only if the entry has
held no others. -/
theorem pageEntry_flags_iff {e : PageDirectoryEntry} {calls : List PageMapping}
    {c : PageMapping} (he : ∀ k, k < 12 ∨ 52 ≤ k →
      (e.getLsbD k = true ↔ HoldsFlag calls c.path k)) :
    pageEntry e c.physicalAddr c.flags &&& ~~~addressMask = c.flags ↔
      IncludesEarlierFlags calls c := by
  have hbits : ∀ k < 64, (pageEntry e c.physicalAddr c.flags &&&
      ~~~addressMask).getLsbD k = if 12 ≤ k ∧ k < 52 then false
        else (e.getLsbD k || c.flags.getLsbD k) := by
    intro k hk
    rw [BitVec.getLsbD_and, BitVec.getLsbD_not, getLsbD_addressMask,
      decide_eq_true hk, Bool.true_and, getLsbD_pageEntry e c.flags_mask]
    by_cases h : 12 ≤ k ∧ k < 52
    · simp [h]
    · rw [if_neg h, if_neg h]
      rcases not_and_or.1 h with h | h <;> simp [h]
  rw [includesEarlierFlags_iff]
  constructor
  · intro heq k hk
    have hk' := hk.outside
    have hbit := hbits k (by omega)
    rw [heq, if_neg (by omega), (he k (by omega)).2 hk, Bool.true_or] at hbit
    exact hbit
  · intro h
    refine BitVec.eq_of_getLsbD_eq fun k hk => ?_
    rw [hbits k hk]
    split_ifs with hin
    · by_contra hne
      have hflag : c.flags.getLsbD k = true := by simpa using Ne.symm hne
      have := c.of_getLsbD_flags hflag
      omega
    · cases hf : c.flags.getLsbD k
      · rw [Bool.or_false]
        by_contra hne
        rw [h k ((he k (by omega)).1 (by simpa using hne))] at hf
        exact absurd hf (by decide)
      · rw [Bool.or_true]

section

variable {α : Type} {A : FrameAllocator α} {hhdmOffset : Word}
  {S : FrameSource A hhdmOffset} {root : Word} {n : ℕ}
  {calls : List PageMapping} {c : PageMapping} {frames frames' : List Word}
  {owner : Word → Option (List (BitVec 9))}

theorem FlagTree.step {s s' : Machine 64 α} {p : List (BitVec 9)} {t u : Word}
    {i : BitVec 9} (h : FlagTree hhdmOffset root calls s.mem frames owner)
    (ht : owner t = some p) (hlen : p.length < 2)
    (hstep : WalkStep A hhdmOffset t i frames s u frames' s') :
    ∃ owner', FlagTree hhdmOffset root calls s'.mem frames' owner' ∧
      owner' u = some (p ++ [i]) := by
  rcases hstep.entries h.tree.frame (h.tree.owned t p ht) with
    ⟨hvalid, rfl, rfl, rfl⟩ | ⟨hinvalid, rfl, hlink⟩
  · exact ⟨owner, h, h.tree.owner_child ht hlen.le (fun _ => by omega) hvalid⟩
  · exact ⟨_, h.link ht hlen hinvalid hlink, Function.update_self ..⟩

theorem FlagTree.enters {s s' : Machine 64 α} {v t u : Word}
    (h : FlagTree hhdmOffset root calls s.mem frames owner)
    (ht : owner t = some [levelIndex v 3, levelIndex v 2])
    (hleaf : ¬ LargeIn calls (regionPath v))
    (hstep : WalkStep A hhdmOffset t (levelIndex v 1) frames s u frames' s') :
    ∃ owner', EntersTable hhdmOffset root calls v t u s'.mem frames' owner' := by
  rcases hstep.entries h.tree.frame (h.tree.owned t _ ht) with
    ⟨hvalid, rfl, rfl, rfl⟩ | ⟨hinvalid, rfl, hlink⟩
  · exact ⟨owner, h.entersTable_along ht hleaf
      (codeChild_eq_some_iff.2 ⟨hvalid, rfl⟩)⟩
  · exact ⟨_, h.entersTable_link ht hleaf hinvalid hlink⟩

/-- An entry that the code follows and that is no page is followed by the
processor. -/
theorem childTable_of_codeChild {e : PageDirectoryEntry} {u : Word}
    (h : codeChild e = some u) (hpage : isPage e = false) :
    childTable e = some u := by
  obtain ⟨hvalid, haddress⟩ := codeChild_eq_some_iff.1 h
  rw [getAddress_eq] at haddress
  rw [childTable_of_table ((isValid_iff e).1 hvalid).1 hpage, haddress]

theorem FlagTree.resolve_eq {m : Bytes} {v t : Word}
    (h : FlagTree hhdmOffset root calls m frames owner)
    (ht : owner t = some [levelIndex v 3, levelIndex v 2]) :
    resolve childTable (tableEntry m hhdmOffset) root (levelIndices v) =
      resolve childTable (tableEntry m hhdmOffset) t
        [levelIndex v 1, levelIndex v 0] := by
  have hreach := h.tree.reach t _ ht (by simp)
  rw [follow, Option.bind_eq_some_iff] at hreach
  obtain ⟨u, hchild, hrest⟩ := hreach
  rw [follow, Option.bind_eq_some_iff] at hrest
  obtain ⟨w, hchild', hw⟩ := hrest
  obtain rfl := Option.some.inj hw
  have hu := h.tree.unshared.child root [] _ u h.tree.unshared.root (by simp)
    hchild
  have hpath : follow childTable (tableEntry m hhdmOffset) root
      [levelIndex v 3, levelIndex v 2] = some w := by
    rw [follow, childTable_of_codeChild hchild (h.upper root [] _
        h.tree.unshared.root (by simp)), Option.bind_some, follow,
      childTable_of_codeChild hchild' (h.upper u _ _ hu (by simp))]
    rfl
  exact resolve_append hpath (by simp)

/-- A call of `map` ends the walk for its address at the entry that it has
written, which holds all flags that the calls have given it. -/
theorem FlagTree.returns_map {s : Machine 64 (PagingGlobals α)}
    (hready : S.Ready n ⟨s.mem, s.globals.frames⟩ frames)
    (hroot : s.globals.PML4 = root)
    (h : FlagTree hhdmOffset root calls s.mem frames owner)
    (hsize : c.large = false → ¬ LargeIn calls (regionPath c.virtualAddr)) :
    (map A c.physicalAddr c.virtualAddr c.flags).Returns s (n < 3) fun _ s' =>
      s'.globals.PML4 = root ∧ ∃ frames' owner',
        S.Ready (n - 3) ⟨s'.mem, s'.globals.frames⟩ frames' ∧
        FlagTree hhdmOffset root (calls ++ [c]) s'.mem frames' owner' ∧
        ∃ e r, resolve childTable (tableEntry s'.mem hhdmOffset) root
            (levelIndices c.virtualAddr) =
              some (pageEntry e c.physicalAddr c.flags, r) ∧
          ∀ k, k < 12 ∨ 52 ≤ k →
            (e.getLsbD k = true ↔ HoldsFlag calls c.path k) := by
  have hflag := c.largerPages
  let s₀ : Machine 64 α := ⟨s.mem, s.globals.frames⟩
  have h₀ : FlagTree hhdmOffset root calls s₀.mem frames owner := h
  have hguard : c.flags.getLsbD 7 = false → ¬ FollowsLeaf hhdmOffset root
      (LargeIn calls) s₀.mem c.virtualAddr := fun hc hleaf =>
    hsize (hflag.symm.trans hc) hleaf.1
  refine (returns_map_walk hready hroot c.physicalAddr
    (h₀.tree.canWalk hguard)).mono id ?_
  rintro b s' ⟨t, i, frames', s₁, -, -, hglobals, hready', hwalk, -, hmem⟩
  have hPML4 : s'.globals.PML4 = root := by
    rw [hglobals]
    exact hroot
  refine ⟨hPML4, frames', ?_⟩
  rw [hflag] at hwalk
  cases hlarge : c.large with
  | true =>
      rw [hlarge] at hwalk
      cases hwalk with
      | large h₃ h₂ =>
          obtain ⟨owner₂, hflags₂, howner₂⟩ :=
            h₀.step h₀.tree.unshared.root (by simp) h₃
          obtain ⟨owner₁, hflags₁, howner₁⟩ :=
            hflags₂.step howner₂ (by simp) h₂
          have hend := hflags₁.writeLarge hlarge howner₁ rfl
          have hentry := word_writePage s₁.mem (tableSlot hhdmOffset t
            (levelIndex c.virtualAddr 1)) c.physicalAddr c.flags
          have hpage : isPage (pageEntry (word s₁.mem (tableSlot hhdmOffset t
              (levelIndex c.virtualAddr 1))) c.physicalAddr c.flags) = true := by
            rw [isPage, getLsbD_pageEntry _ c.flags_mask, if_neg (by omega),
              hflag, hlarge, Bool.or_true]
          refine ⟨owner₁, hready', hmem ▸ hend, word s₁.mem (tableSlot
            hhdmOffset t (levelIndex c.virtualAddr 1)), [levelIndex
              c.virtualAddr 0], ?_, fun k hk => ?_⟩
          · rw [hmem, hend.resolve_eq howner₁, ← hentry]
            refine resolve_of_child_eq_none (childTable_of_page ?_) _
            rw [tableEntry, hentry, hpage]
          · have hheld := hflags₁.flags t _ (levelIndex c.virtualAddr 1) howner₁
              (by simp) (by simp) k hk
            rw [PageMapping.path, if_pos hlarge, regionPath_eq]
            exact hheld
  | false =>
      rw [hlarge] at hwalk
      have hleaf := hsize hlarge
      have hleaf' : ¬ LargeIn (calls ++ [c]) (regionPath c.virtualAddr) := by
        rw [largeIn_snoc, hlarge]
        simpa using hleaf
      cases hwalk with
      | @small t₂ t₁ _ frames₂ frames₁ _ s₂ s₃ _ h₃ h₂ h₁ =>
          obtain ⟨owner₂, hflags₂, howner₂⟩ :=
            h₀.step h₀.tree.unshared.root (by simp) h₃
          obtain ⟨owner₁, hflags₁, howner₁⟩ :=
            hflags₂.step howner₂ (by simp) h₂
          obtain ⟨owner₀, henters⟩ := hflags₁.enters howner₁ hleaf h₁
          have hend := henters.writeSmall hlarge hleaf
          have hu := (henters.owner_iff t).2 rfl
          have hentry := word_writePage s₁.mem (tableSlot hhdmOffset t
            (levelIndex c.virtualAddr 0)) c.physicalAddr c.flags
          refine ⟨owner₀, hready', hmem ▸ hend, word s₁.mem (tableSlot
            hhdmOffset t (levelIndex c.virtualAddr 0)), [], ?_, fun k hk => ?_⟩
          · have hpage : isPage (tableEntry s'.mem hhdmOffset t₁ (levelIndex
                c.virtualAddr 1)) = false := by
              have hheld := hend.flags t₁ _ (levelIndex c.virtualAddr 1)
                henters.directory_eq (by simp) (by simp) 7 (by omega)
              rw [← regionPath_eq, holdsFlag_iff_of_length rfl hleaf'] at hheld
              rw [hmem, isPage, Bool.eq_false_iff]
              exact fun hc => absurd (hheld.1 hc).2 (by decide)
            have hchild := hend.child_of_owner henters.directory_eq hleaf' hu
            rw [← hmem] at hchild hentry hend
            rw [hend.resolve_eq henters.directory_eq, resolve,
              childTable_of_codeChild hchild hpage, ← hentry]
            rfl
          · have hheld := henters.flags t _ (levelIndex c.virtualAddr 0) hu
              (by simp [regionPath]) (fun _ => hleaf) (by simp [regionPath]) k hk
            rw [PageMapping.path, if_neg (by simp [hlarge]), levelIndices_eq]
            exact hheld

theorem FlagTree.returns_map_flags {s : Machine 64 (PagingGlobals α)}
    (hready : S.Ready n ⟨s.mem, s.globals.frames⟩ frames)
    (hroot : s.globals.PML4 = root)
    (h : FlagTree hhdmOffset root calls s.mem frames owner)
    (hsize : c.large = false → ¬ LargeIn calls (regionPath c.virtualAddr)) :
    (map A c.physicalAddr c.virtualAddr c.flags).Returns s (n < 3) fun _ s' =>
      (s'.globals.PML4 = root ∧ ∃ frames' owner',
        S.Ready (n - 3) ⟨s'.mem, s'.globals.frames⟩ frames' ∧
        FlagTree hhdmOffset root (calls ++ [c]) s'.mem frames' owner') ∧
      (LeafFlags hhdmOffset root s'.mem c ↔ IncludesEarlierFlags calls c) := by
  refine (h.returns_map hready hroot hsize).mono id ?_
  rintro b s' ⟨hPML4, frames', owner', hready', h', e, r, hleaf, he⟩
  refine ⟨⟨hPML4, frames', owner', hready', h'⟩, ?_⟩
  rw [← pageEntry_flags_iff he]
  constructor
  · rintro ⟨e', r', hleaf', hflags⟩
    rw [hleaf, Option.some.injEq, Prod.mk.injEq] at hleaf'
    rwa [hleaf'.1]
  · exact fun hflags => ⟨_, r, hleaf, hflags⟩

/-- The machine, and the calls of `map` so far. -/
structure PageHistory (α : Type) where
  machine : Machine 64 (PagingGlobals α)
  calls : List PageMapping

/-- A call that returns. -/
def PageStep (A : FrameAllocator α) (h : PageHistory α) (c : PageMapping)
    (h' : PageHistory α) : Prop :=
  ∃ b t, (map A c.physicalAddr c.virtualAddr c.flags).run h.machine = .ok b t ∧
    h' = ⟨t, h.calls ++ [c]⟩

/-- The region of a 4 KB page has no 2 MB page. A 2 MB page may take the place of
4 KB pages. -/
def KeepsLargePages (h : PageHistory α) (c : PageMapping) : Prop :=
  c.large = false → ¬ LargeIn h.calls (regionPath c.virtualAddr)

/-- After any run of such calls on a blank top level table, a further call leaves
exactly its own flags in the entry of its page if and only if these include all
that the entry has collected. -/
theorem leafFlags_iff {s : Machine 64 (PagingGlobals α)}
    (hready : S.Ready n ⟨s.mem, s.globals.frames⟩ frames)
    (hroot : s.globals.PML4 ∈ frames)
    (hzero : ∀ x ∈ region (s.globals.PML4 + hhdmOffset) 4096, s.mem x = 0)
    {cs : List PageMapping} {h h' : PageHistory α}
    (hrun : Run (Guarded KeepsLargePages (PageStep A)) ⟨s, []⟩ cs h)
    (hstep : Guarded KeepsLargePages (PageStep A) h c h') :
    LeafFlags hhdmOffset s.globals.PML4 h'.machine.mem c ↔
      IncludesEarlierFlags h.calls c := by
  have hblank := tableEntry_of_zero hzero
  obtain ⟨n, frames, owner, hready, hPML4, hflags⟩ := hrun.invariant
    (fun h => ∃ n frames owner,
      S.Ready n ⟨h.machine.mem, h.machine.globals.frames⟩ frames ∧
        h.machine.globals.PML4 = s.globals.PML4 ∧
          FlagTree hhdmOffset s.globals.PML4 h.calls h.machine.mem frames owner)
    ⟨n, frames, _, hready, rfl, .of_blank (S.frame _ _ _ hready) hroot hblank⟩
    (by
      rintro h d h' ⟨n, frames, owner, hready, hPML4, hflags⟩
        ⟨hsize, b, t, hrun, rfl⟩
      obtain ⟨⟨hPML4', frames', owner', hready', hflags'⟩, -⟩ :=
        (hflags.returns_map_flags hready hPML4 hsize).of_run hrun
      exact ⟨_, frames', owner', hready', hPML4', hflags'⟩)
  obtain ⟨hsize, b, t, hmap, rfl⟩ := hstep
  exact ((hflags.returns_map_flags hready hPML4 hsize).of_run hmap).2

end

def readOnlyPage : PageMapping :=
  { samplePage with
    flags := 1
    present := by decide
    flags_mask := by decide
    largerPages := by decide }

/-- A page mapped for writing and then for reading only stays writable. -/
theorem exists_not_leafFlags :
    ∃ s h h', (kernelSource addressSizeTable 0 smallRegion (by decide)).Ready 15
          ⟨s.mem, s.globals.frames⟩ [s.globals.PML4] ∧
      (∀ x ∈ region (s.globals.PML4 + smallRegion.hhdmOffset) 4096,
        s.mem x = 0) ∧
      Run (Guarded KeepsLargePages (PageStep (kernelAllocator addressSizeTable
        0))) ⟨s, []⟩ [samplePage] h ∧
      Guarded KeepsLargePages (PageStep (kernelAllocator addressSizeTable 0)) h
        readOnlyPage h' ∧
      ¬ LeafFlags smallRegion.hhdmOffset s.globals.PML4 h'.machine.mem
        readOnlyPage := by
  obtain ⟨s, hready, hzero⟩ := exists_blankTable
  have hblank := tableEntry_of_zero hzero
  have hflags : FlagTree smallRegion.hhdmOffset s.globals.PML4 [] s.mem
      [s.globals.PML4] _ := .of_blank (FrameSource.frame _ _ _ _ hready)
    (List.mem_singleton_self _) hblank
  have hfirst : KeepsLargePages ⟨s, []⟩ samplePage := fun _ => by
    rintro ⟨d, hd, -⟩
    exact absurd hd (by simp)
  obtain ⟨b, t, hrun, ⟨hPML4, frames, owner, hready₁, hflags₁⟩, -⟩ :=
    (hflags.returns_map_flags hready rfl hfirst).exists_run (by omega)
  have hsecond : KeepsLargePages ⟨t, [samplePage]⟩ readOnlyPage := fun _ => by
    rintro ⟨d, hd, hlarge, -⟩
    rw [List.mem_singleton.1 hd] at hlarge
    exact absurd hlarge (by decide)
  obtain ⟨b', u, hrun', -, hiff⟩ :=
    (hflags₁.returns_map_flags hready₁ hPML4 hsecond).exists_run (by omega)
  refine ⟨s, ⟨t, [samplePage]⟩, ⟨u, [samplePage, readOnlyPage]⟩, hready, hzero,
    .single ⟨hfirst, b, t, hrun, rfl⟩, ⟨hsecond, b', u, hrun', rfl⟩,
    fun hleaf => ?_⟩
  have hpage := (hiff.1 hleaf).page samplePage (by simp) rfl
  exact absurd hpage (by decide)

/-- A page mapped for reading only and then for writing. -/
theorem leafFlags_iff_samplePage :
    ∃ s h h', Run (PageStep (kernelAllocator addressSizeTable 0)) ⟨s, []⟩
        [readOnlyPage] h ∧
      PageStep (kernelAllocator addressSizeTable 0) h samplePage h' ∧
      LeafFlags smallRegion.hhdmOffset s.globals.PML4 h'.machine.mem
        samplePage := by
  obtain ⟨s, hready, hzero⟩ := exists_blankTable
  have hmaps := mapsCalls_nil hready (List.mem_singleton_self _) hzero
  obtain ⟨_, t, hrun, -, -, hmaps'⟩ :=
    (returns_map hmaps (c := readOnlyPage) (by simp)).exists_run (by omega)
  obtain ⟨_, t', hrun', -⟩ := (returns_map hmaps' (c := samplePage)
    fun d hd _ => by rw [List.mem_singleton.1 hd]; rfl).exists_run (by omega)
  have hfirst : KeepsLargePages ⟨s, []⟩ readOnlyPage := fun _ => by
    rintro ⟨d, hd, -⟩
    exact absurd hd (by simp)
  have hsecond : KeepsLargePages ⟨t, [readOnlyPage]⟩ samplePage := fun _ => by
    rintro ⟨d, hd, hlarge, -⟩
    rw [List.mem_singleton.1 hd] at hlarge
    exact absurd hlarge (by decide)
  have hstep : PageStep (kernelAllocator addressSizeTable 0) ⟨s, []⟩
      readOnlyPage ⟨t, [readOnlyPage]⟩ := ⟨_, t, hrun, rfl⟩
  have hstep' : PageStep (kernelAllocator addressSizeTable 0)
      ⟨t, [readOnlyPage]⟩ samplePage ⟨t', [readOnlyPage, samplePage]⟩ :=
    ⟨_, t', hrun', rfl⟩
  have hincludes : IncludesEarlierFlags [readOnlyPage] samplePage :=
    ⟨fun d hd _ => by rw [List.mem_singleton.1 hd]; decide,
      fun hlarge => absurd hlarge (by decide)⟩
  exact ⟨s, _, _, .single hstep, hstep', (leafFlags_iff hready
    (List.mem_singleton_self _) hzero (.single ⟨hfirst, hstep⟩)
    ⟨hsecond, hstep'⟩).2 hincludes⟩

end OptimistOS
