import OptimistOS.Paging.CodeTrees
import OptimistOS.Paging.MapRuns

/-!
# The flags that entries have collected

`setFlag` only adds flags, so an entry holds the flags of all calls of `map` for
its page, and a page directory entry those of a pointer to a page table as well,
if it has been one. A `FlagTree` is a `CodeTree` whose entries hold exactly
these flags (`HoldsFlag`); every step of the walk and the write of the page keep
it, as long as no 4 KB page is asked for in a region with a 2 MB page.
-/

namespace OptimistOS

open ByteMemory ByteMemory.Code RadixTree PageDirectoryEntry

def PageMapping.path (c : PageMapping) : List (BitVec 9) :=
  if c.large then regionPath c.virtualAddr else levelIndices c.virtualAddr

def LargeIn (calls : List PageMapping) (q : List (BitVec 9)) : Prop :=
  ∃ d ∈ calls, d.large = true ∧ regionPath d.virtualAddr = q

def SmallIn (calls : List PageMapping) (q : List (BitVec 9)) : Prop :=
  ∃ d ∈ calls, d.large = false ∧ regionPath d.virtualAddr = q

/-- The calls have set the flag `k` of the entry `q`, as a page or as a pointer
to a page table. -/
def HoldsFlag (calls : List PageMapping) (q : List (BitVec 9)) (k : ℕ) : Prop :=
  (∃ d ∈ calls, d.path = q ∧ d.flags.getLsbD k = true) ∨
    (SmallIn calls q ∧ k < 3)

theorem largeIn_snoc {calls : List PageMapping} {c : PageMapping}
    {q : List (BitVec 9)} :
    LargeIn (calls ++ [c]) q ↔
      LargeIn calls q ∨ c.large = true ∧ regionPath c.virtualAddr = q := by
  simp [LargeIn, List.mem_append, or_and_right, exists_or]

theorem smallIn_snoc {calls : List PageMapping} {c : PageMapping}
    {q : List (BitVec 9)} :
    SmallIn (calls ++ [c]) q ↔
      SmallIn calls q ∨ c.large = false ∧ regionPath c.virtualAddr = q := by
  simp [SmallIn, List.mem_append, or_and_right, exists_or]

theorem holdsFlag_snoc {calls : List PageMapping} {c : PageMapping}
    {q : List (BitVec 9)} {k : ℕ} :
    HoldsFlag (calls ++ [c]) q k ↔
      HoldsFlag calls q k ∨ (c.path = q ∧ c.flags.getLsbD k = true) ∨
        (c.large = false ∧ regionPath c.virtualAddr = q) ∧ k < 3 := by
  simp only [HoldsFlag, smallIn_snoc, List.mem_append, List.mem_singleton,
    or_and_right, exists_or, exists_eq_left]
  exact or_or_or_comm

theorem PageMapping.path_length (c : PageMapping) :
    c.path.length = if c.large then 3 else 4 := by
  rw [path]
  split_ifs <;> rfl

theorem levelIndices_eq (v : Word) :
    levelIndices v = regionPath v ++ [levelIndex v 0] := rfl

theorem regionPath_eq (v : Word) : regionPath v =
    [levelIndex v 3, levelIndex v 2] ++ [levelIndex v 1] := rfl

theorem holdsFlag_iff_of_length {calls : List PageMapping}
    {q : List (BitVec 9)} (hq : q.length = 3) (hlarge : ¬ LargeIn calls q)
    (k : ℕ) : HoldsFlag calls q k ↔ SmallIn calls q ∧ k < 3 := by
  refine ⟨fun h => h.resolve_left ?_, Or.inr⟩
  rintro ⟨d, hd, hpath, -⟩
  have hlen := d.path_length
  rw [hpath, hq] at hlen
  have hd' : d.large = true := by
    by_contra hnot
    rw [if_neg hnot] at hlen
    omega
  rw [PageMapping.path, if_pos hd'] at hpath
  exact hlarge ⟨d, hd, hd', hpath⟩

theorem smallIn_of_holdsFlag {calls : List PageMapping} {q : List (BitVec 9)}
    {j : BitVec 9} {k : ℕ} (hq : q.length = 3)
    (h : HoldsFlag calls (q ++ [j]) k) : SmallIn calls q := by
  rcases h with ⟨d, hd, hpath, -⟩ | ⟨⟨d, -, -, hpath⟩, -⟩
  · have hlen := d.path_length
    rw [hpath, List.length_append, hq, List.length_singleton] at hlen
    have hd' : d.large = false := by
      by_contra hnot
      rw [if_pos (by simpa using hnot)] at hlen
      exact absurd hlen (by decide)
    rw [PageMapping.path, if_neg (by simp [hd']), levelIndices_eq] at hpath
    exact ⟨d, hd, hd', (List.append_inj' hpath rfl).1⟩
  · have hlen := congrArg List.length hpath
    rw [List.length_append, hq, List.length_singleton] at hlen
    exact absurd hlen (by simp [regionPath])

/-- An entry of a page directory holds a flag only if there was a call for its
region. -/
theorem exists_of_holdsFlag {calls : List PageMapping} {p : List (BitVec 9)}
    {j : BitVec 9} {k : ℕ} (hp : p.length = 2)
    (h : HoldsFlag calls (p ++ [j]) k) :
    ∃ d ∈ calls, p = [levelIndex d.virtualAddr 3, levelIndex d.virtualAddr 2] := by
  have hparts : ∀ d : PageMapping, regionPath d.virtualAddr = p ++ [j] →
      p = [levelIndex d.virtualAddr 3, levelIndex d.virtualAddr 2] :=
    fun d hd => (List.append_inj' ((regionPath_eq _).symm.trans hd) rfl).1.symm
  by_cases hlarge : LargeIn calls (p ++ [j])
  · obtain ⟨d, hd, -, hpath⟩ := hlarge
    exact ⟨d, hd, hparts d hpath⟩
  · obtain ⟨⟨d, hd, -, hpath⟩, -⟩ :=
      (holdsFlag_iff_of_length (by simp [hp]) hlarge k).1 h
    exact ⟨d, hd, hparts d hpath⟩

/-- The tables after the calls: no entry above the page directories is a page,
and the entries below hold the flags of the calls. A page table that is still in
use has its parent, and every call has its tables. -/
structure FlagTree (hhdmOffset root : Word) (calls : List PageMapping)
    (m : Bytes) (frames : List Word)
    (owner : Word → Option (List (BitVec 9))) : Prop where
  tree : CodeTree hhdmOffset root (LargeIn calls) m frames owner
  upper : ∀ t p i, owner t = some p → p.length < 2 →
    isPage (tableEntry m hhdmOffset t i) = false
  flags : ∀ t p i, owner t = some p → 2 ≤ p.length →
    (p.length = 3 → ¬ LargeIn calls p) → ∀ k, k < 12 ∨ 52 ≤ k →
      ((tableEntry m hhdmOffset t i).getLsbD k = true ↔
        HoldsFlag calls (p ++ [i]) k)
  parent : ∀ u p i, owner u = some (p ++ [i]) → p.length = 2 →
    ¬ LargeIn calls (p ++ [i]) → ∃ t, owner t = some p ∧
      codeChild (tableEntry m hhdmOffset t i) = some u
  directory : ∀ d ∈ calls, ∃ t, owner t = some
    [levelIndex d.virtualAddr 3, levelIndex d.virtualAddr 2]
  table : ∀ q, SmallIn calls q → ¬ LargeIn calls q → ∃ t, owner t = some q

theorem isPage_linkEntry (e : PageDirectoryEntry) (f : Word) :
    isPage (linkEntry e f) = isPage e := by
  rw [isPage, linkEntry, getLsbD_setFlag, getLsbD_setFlag, getLsbD_setFlag,
    getLsbD_setAddress, if_neg (by omega), isPage]
  simp [PageTableFlag.readWrite, PageTableFlag.userOrSuperuser,
    PageTableFlag.present]

section

variable {hhdmOffset root : Word} {calls : List PageMapping} {m m' : Bytes}
  {frames frames' : List Word} {owner : Word → Option (List (BitVec 9))}
  {p : List (BitVec 9)} {t u f : Word} {i : BitVec 9}

theorem FlagTree.of_blank (hframe : ∀ f ∈ frames, IsTableFrame hhdmOffset f)
    (hroot : root ∈ frames) (hblank : ∀ i, tableEntry m hhdmOffset root i = 0) :
    FlagTree hhdmOffset root [] m frames
      fun t => if t = root then some [] else none := by
  refine ⟨.of_blank hframe hroot hblank, fun t p i ht _ => ?_,
    fun t p i ht hlen => ?_, fun u p i hu => ?_, by simp, by simp [SmallIn]⟩
  · rw [(eq_root_of_owner ht).1, hblank]
    rfl
  · rw [(eq_root_of_owner ht).2] at hlen
    exact absurd hlen (by decide)
  · exact absurd (eq_root_of_owner hu).2 (by simp)

/-- A frame is linked in above the page directories, or as a page directory. -/
theorem FlagTree.link (h : FlagTree hhdmOffset root calls m frames owner)
    (ht : owner t = some p) (hlen : p.length < 2)
    (hinvalid : isValid (tableEntry m hhdmOffset t i) = false)
    (hlink : LinksFrame hhdmOffset t i frames m f m') :
    FlagTree hhdmOffset root calls m' (f :: frames)
      (Function.update owner f (some (p ++ [i]))) := by
  have hnone : codeChild (tableEntry m hhdmOffset t i) = none := by
    rw [codeChild, hinvalid]
    rfl
  have hnew : ∀ u q, owner u = some q → u ≠ f := by
    rintro u q hu rfl
    exact hlink.notMem (h.tree.owned u q hu)
  have hkeep : ∀ u q, owner u = some q →
      Function.update owner f (some (p ++ [i])) u = some q := fun u q hu => by
    rw [Function.update_of_ne (hnew u q hu), hu]
  have hold : ∀ u q, u ≠ f →
      Function.update owner f (some (p ++ [i])) u = some q →
        owner u = some q := fun u q hne hu => by
    rwa [Function.update_of_ne hne] at hu
  have hentry : ∀ u q j, owner u = some q → ¬ (u = t ∧ j = i) →
      tableEntry m' hhdmOffset u j = tableEntry m hhdmOffset u j :=
    fun u q j hu hslot => hlink.kept u (h.tree.owned u q hu) j hslot
  have hbelow : ∀ u q j, owner u = some q → 2 ≤ q.length →
      tableEntry m' hhdmOffset u j = tableEntry m hhdmOffset u j := by
    intro u q j hu hq
    refine hentry u q j hu ?_
    rintro ⟨rfl, -⟩
    rw [ht, Option.some.injEq] at hu
    rw [hu] at hlen
    omega
  refine ⟨h.tree.link ht hlen.le hinvalid hlink, fun u q j hu hq => ?_,
    fun u q j hu hq hleaf k hk => ?_, fun u q j hu hq hleaf => ?_,
    fun d hd => ?_, fun q hsmall hlarge => ?_⟩
  · by_cases huf : u = f
    · rw [huf, hlink.blank j]
      rfl
    · have hu' := hold u q huf hu
      by_cases hslot : u = t ∧ j = i
      · obtain ⟨rfl, rfl⟩ := hslot
        rw [hlink.entry, isPage_linkEntry]
        exact h.upper u q j hu' hq
      · rw [hentry u q j hu' hslot]
        exact h.upper u q j hu' hq
  · by_cases huf : u = f
    · -- no call has used the new page directory
      rw [huf, Function.update_self, Option.some.injEq] at hu
      have hp : q.length = 2 := by
        rw [← hu, List.length_append, List.length_singleton] at hq ⊢
        omega
      rw [huf, hlink.blank j]
      refine ⟨fun hbit => absurd hbit (by simp), fun hflag => ?_⟩
      obtain ⟨d, hd, hq'⟩ := exists_of_holdsFlag hp hflag
      obtain ⟨w, hw⟩ := h.directory d hd
      rw [← hq', ← hu] at hw
      have hreach := h.tree.reach w _ hw (by simp; omega)
      rw [follow_snoc (h.tree.reach t p ht hlen.le), hnone] at hreach
      exact absurd hreach (by simp)
    · have hu' := hold u q huf hu
      rw [hbelow u q j hu' hq]
      exact h.flags u q j hu' hq hleaf k hk
  · have huf : u ≠ f := by
      rintro rfl
      rw [Function.update_self, Option.some.injEq] at hu
      have heq := congrArg List.length hu
      simp only [List.length_append, List.length_singleton] at heq
      omega
    obtain ⟨w, hw, hchild⟩ := h.parent u q j (hold u _ huf hu) hq hleaf
    exact ⟨w, hkeep w q hw, by rwa [hbelow w q j hw hq.ge]⟩
  · obtain ⟨w, hw⟩ := h.directory d hd
    exact ⟨w, hkeep w _ hw⟩
  · obtain ⟨w, hw⟩ := h.table q hsmall hlarge
    exact ⟨w, hkeep w q hw⟩

theorem CodeTree.eq_of_owner {Leaf : List (BitVec 9) → Prop}
    (h : CodeTree hhdmOffset root Leaf m frames owner) (ht : owner t = some p)
    (hu : owner u = some p) (hlen : p.length ≤ 2) : t = u :=
  Option.some.inj ((h.reach t p ht hlen).symm.trans (h.reach u p hu hlen))

theorem CodeTree.tableEntry_of_ne {Leaf : List (BitVec 9) → Prop}
    (h : CodeTree hhdmOffset root Leaf m frames owner) (ht : owner t = some p)
    (hm : AgreeOff (region (tableSlot hhdmOffset t i) 8) m m')
    {q : List (BitVec 9)} {j : BitVec 9} (hu : owner u = some q)
    (hne : ¬ (u = t ∧ j = i)) :
    tableEntry m' hhdmOffset u j = tableEntry m hhdmOffset u j :=
  word_congr hm (by decide) (disjoint_tableSlot (h.frame u (h.owned u q hu))
    (h.frame t (h.owned t p ht)) hne)

theorem getLsbD_writePage (c : PageMapping) {k : ℕ} (hk : k < 12 ∨ 52 ≤ k) :
    (tableEntry (writePage m (tableSlot hhdmOffset t i) c.physicalAddr c.flags)
        hhdmOffset t i).getLsbD k = true ↔
      (tableEntry m hhdmOffset t i).getLsbD k = true ∨
        c.flags.getLsbD k = true := by
  have hword := word_writePage m (tableSlot hhdmOffset t i) c.physicalAddr
    c.flags
  rw [tableEntry, hword, getLsbD_pageEntry _ c.flags_mask, if_neg (by omega),
    Bool.or_eq_true]
  rfl

/-- A 2 MB page is written into its page directory. -/
theorem FlagTree.writeLarge (h : FlagTree hhdmOffset root calls m frames owner)
    {c : PageMapping} (hlarge : c.large = true) (ht : owner t = some
      [levelIndex c.virtualAddr 3, levelIndex c.virtualAddr 2])
    (hi : i = levelIndex c.virtualAddr 1) :
    FlagTree hhdmOffset root (calls ++ [c]) (writePage m (tableSlot hhdmOffset t
      i) c.physicalAddr c.flags) frames owner := by
  subst hi
  have hm := agreeOff_writePage m (tableSlot hhdmOffset t (levelIndex
    c.virtualAddr 1)) c.physicalAddr c.flags
  have hpath : c.path = regionPath c.virtualAddr := by
    rw [PageMapping.path, if_pos hlarge]
  have hself : LargeIn (calls ++ [c]) (regionPath c.virtualAddr) :=
    largeIn_snoc.2 (Or.inr ⟨hlarge, rfl⟩)
  have hmono : ∀ q, ¬ LargeIn (calls ++ [c]) q → ¬ LargeIn calls q :=
    fun q hnot hold => hnot (largeIn_snoc.2 (Or.inl hold))
  have hsmall : ∀ q, SmallIn (calls ++ [c]) q ↔ SmallIn calls q := fun q => by
    rw [smallIn_snoc, hlarge]
    simp
  have hslot : ∀ u q j, owner u = some q → q ++ [j] = regionPath c.virtualAddr →
      u = t ∧ j = levelIndex c.virtualAddr 1 := by
    intro u q j hu hq
    obtain ⟨rfl, hj⟩ := List.append_inj' (hq.trans (regionPath_eq _)) rfl
    exact ⟨h.tree.eq_of_owner hu ht (by simp), List.singleton_inj.1 hj⟩
  refine ⟨?_, fun u q j hu hq => ?_, fun u q j hu hq hleaf k hk => ?_,
    fun u q j hu hq hleaf => ?_, fun d hd => ?_, fun q hq hnot => ?_⟩
  · exact (h.tree.relabel fun u q j _ _ hnot hold =>
      absurd hold (hmono _ hnot)).writePage ht (by simp) (fun _ => hself) hm
  · rw [h.tree.tableEntry_of_ne ht hm hu, h.upper u q j hu hq]
    rintro ⟨rfl, -⟩
    rw [ht, Option.some.injEq] at hu
    rw [← hu] at hq
    exact absurd hq (by simp)
  · have hold := h.flags u q j hu hq (fun h3 => hmono q (hleaf h3)) k hk
    rw [holdsFlag_snoc, hpath, hlarge]
    by_cases hne : u = t ∧ j = levelIndex c.virtualAddr 1
    · obtain ⟨rfl, rfl⟩ := hne
      rw [ht, Option.some.injEq] at hu
      rw [getLsbD_writePage c hk, hold, ← hu, ← regionPath_eq]
      simp
    · rw [h.tree.tableEntry_of_ne ht hm hu hne, hold]
      have hother : regionPath c.virtualAddr ≠ q ++ [j] := fun hc =>
        hne (hslot u q j hu hc.symm)
      simp [hother]
  · obtain ⟨w, hw, hchild⟩ := h.parent u q j hu hq (hmono _ hleaf)
    refine ⟨w, hw, ?_⟩
    rwa [h.tree.tableEntry_of_ne ht hm hw]
    rintro ⟨rfl, rfl⟩
    rw [ht, Option.some.injEq] at hw
    rw [← hw, ← regionPath_eq] at hleaf
    exact hleaf hself
  · rcases List.mem_append.1 hd with hd | hd
    · exact h.directory d hd
    · rw [List.mem_singleton.1 hd]
      exact ⟨t, ht⟩
  · exact h.table q ((hsmall q).1 hq) (hmono q hnot)

/-- The walk has entered the page table `u` of the region `q`, whose page
directory is `t`: the entry in between is a pointer to a table, and `u` holds the
flags of the calls. -/
structure EntersTable (hhdmOffset root : Word) (calls : List PageMapping)
    (v t u : Word) (m : Bytes) (frames : List Word)
    (owner : Word → Option (List (BitVec 9))) : Prop where
  tree : CodeTree hhdmOffset root (LargeIn calls) m frames owner
  directory_eq : owner t = some [levelIndex v 3, levelIndex v 2]
  child : codeChild (tableEntry m hhdmOffset t (levelIndex v 1)) = some u
  owner_iff : ∀ w, owner w = some (regionPath v) ↔ w = u
  pointer : ∀ k, k < 12 ∨ 52 ≤ k →
    ((tableEntry m hhdmOffset t (levelIndex v 1)).getLsbD k = true ↔ k < 3)
  upper : ∀ w p i, owner w = some p → p.length < 2 →
    isPage (tableEntry m hhdmOffset w i) = false
  flags : ∀ w p i, owner w = some p → 2 ≤ p.length →
    (p.length = 3 → ¬ LargeIn calls p) → p ++ [i] ≠ regionPath v →
      ∀ k, k < 12 ∨ 52 ≤ k → ((tableEntry m hhdmOffset w i).getLsbD k = true ↔
        HoldsFlag calls (p ++ [i]) k)
  parent : ∀ w p i, owner w = some (p ++ [i]) → p.length = 2 →
    ¬ LargeIn calls (p ++ [i]) → ∃ t, owner t = some p ∧
      codeChild (tableEntry m hhdmOffset t i) = some w
  directory : ∀ d ∈ calls, ∃ t, owner t = some
    [levelIndex d.virtualAddr 3, levelIndex d.virtualAddr 2]
  table : ∀ q, SmallIn calls q → ¬ LargeIn calls q → ∃ t, owner t = some q

theorem FlagTree.child_of_owner {v : Word}
    (h : FlagTree hhdmOffset root calls m frames owner)
    (ht : owner t = some [levelIndex v 3, levelIndex v 2])
    (hleaf : ¬ LargeIn calls (regionPath v)) (hu : owner u = some (regionPath v)) :
    codeChild (tableEntry m hhdmOffset t (levelIndex v 1)) = some u := by
  obtain ⟨t', ht', hchild⟩ := h.parent u _ _ (hu.trans
    (congrArg some (regionPath_eq v))) (by simp) (by rwa [← regionPath_eq])
  rwa [h.tree.eq_of_owner ht' ht (by simp)] at hchild

theorem FlagTree.entersTable_along {v : Word}
    (h : FlagTree hhdmOffset root calls m frames owner)
    (ht : owner t = some [levelIndex v 3, levelIndex v 2])
    (hleaf : ¬ LargeIn calls (regionPath v))
    (hchild : codeChild (tableEntry m hhdmOffset t (levelIndex v 1)) = some u) :
    EntersTable hhdmOffset root calls v t u m frames owner := by
  have hvalid := codeChild_eq_some_iff.1 hchild
  have hu : owner u = some (regionPath v) := by
    have howner := h.tree.owner_child (i := levelIndex v 1) ht (by simp)
      (fun _ => by rwa [← regionPath_eq]) hvalid.1
    rwa [hvalid.2, ← regionPath_eq] at howner
  have hheld := h.flags t _ (levelIndex v 1) ht (by simp) (by simp)
  rw [← regionPath_eq] at hheld
  have hsmall : SmallIn calls (regionPath v) := by
    have hpresent := ((isValid_iff _).1 hvalid.1).1
    exact ((holdsFlag_iff_of_length rfl hleaf 0).1
      ((hheld 0 (by omega)).1 hpresent)).1
  refine ⟨h.tree, ht, hchild, fun w => ⟨fun hw => ?_, fun hw => hw ▸ hu⟩,
    fun k hk => ?_, h.upper, fun w p i hw hp hl _ => h.flags w p i hw hp hl,
    h.parent, h.directory, h.table⟩
  · have hchild' := h.child_of_owner ht hleaf hw
    rw [hchild] at hchild'
    exact (Option.some.inj hchild').symm
  · rw [hheld k hk, holdsFlag_iff_of_length rfl hleaf]
    exact ⟨And.right, fun hk => ⟨hsmall, hk⟩⟩

theorem getLsbD_linkEntry_of_flag (e : PageDirectoryEntry) {f : Word} {k : ℕ}
    (hf : IsFrameAddress f) (hk : k < 12 ∨ 52 ≤ k) :
    (linkEntry e f).getLsbD k = true ↔ e.getLsbD k = true ∨ k < 3 := by
  have hzero := getLsbD_linkEntry hf k
  have hblank : (0 : PageDirectoryEntry).getLsbD k = false :=
    BitVec.getLsbD_zero
  rw [hf.getLsbD hk, Bool.false_or] at hzero
  rw [linkEntry, getLsbD_setFlag, getLsbD_setFlag, getLsbD_setFlag,
    getLsbD_setAddress, if_neg (by omega)] at hzero ⊢
  rw [hblank, Bool.false_or] at hzero
  rw [Bool.or_assoc (e.getLsbD k), Bool.or_assoc (e.getLsbD k), hzero,
    Bool.or_eq_true, decide_eq_true_iff]

/-- The page table is linked in. -/
theorem FlagTree.entersTable_link {v : Word}
    (h : FlagTree hhdmOffset root calls m frames owner)
    (ht : owner t = some [levelIndex v 3, levelIndex v 2])
    (hleaf : ¬ LargeIn calls (regionPath v))
    (hinvalid : isValid (tableEntry m hhdmOffset t (levelIndex v 1)) = false)
    (hlink : LinksFrame hhdmOffset t (levelIndex v 1) frames m f m') :
    EntersTable hhdmOffset root calls v t f m' (f :: frames)
      (Function.update owner f (some (regionPath v))) := by
  have hnoowner : ∀ w, owner w ≠ some (regionPath v) := by
    intro w hw
    have hvalid := (codeChild_eq_some_iff.1 (h.child_of_owner ht hleaf hw)).1
    rw [hinvalid] at hvalid
    exact absurd hvalid (by decide)
  have hnosmall : ¬ SmallIn calls (regionPath v) := fun hsmall =>
    (h.table _ hsmall hleaf).elim hnoowner
  have hnew : ∀ w q, owner w = some q → w ≠ f := by
    rintro w q hw rfl
    exact hlink.notMem (h.tree.owned w q hw)
  have hkeep : ∀ w q, owner w = some q →
      Function.update owner f (some (regionPath v)) w = some q := fun w q hw => by
    rw [Function.update_of_ne (hnew w q hw), hw]
  have hold : ∀ w q, w ≠ f →
      Function.update owner f (some (regionPath v)) w = some q →
        owner w = some q := fun w q hne hw => by
    rwa [Function.update_of_ne hne] at hw
  have hentry : ∀ w q j, owner w = some q → q ++ [j] ≠ regionPath v →
      tableEntry m' hhdmOffset w j = tableEntry m hhdmOffset w j := by
    intro w q j hw hq
    refine hlink.kept w (h.tree.owned w q hw) j ?_
    rintro ⟨rfl, rfl⟩
    rw [ht, Option.some.injEq] at hw
    exact hq (by rw [← hw, ← regionPath_eq])
  have hshort : ∀ (q : List (BitVec 9)) j, q.length ≠ 2 →
      q ++ [j] ≠ regionPath v := by
    intro q j hq hc
    have hlen := congrArg List.length hc
    rw [List.length_append, List.length_singleton] at hlen
    have hthree : (regionPath v).length = 3 := rfl
    omega
  have htree := h.tree.link ht (by simp) hinvalid hlink
  rw [← regionPath_eq] at htree
  refine ⟨htree, hkeep t _ ht, ?_, fun w => ⟨fun hw => ?_, ?_⟩, fun k hk => ?_,
    fun w q j hw hq => ?_, fun w q j hw hq hl hne k hk => ?_,
    fun w q j hw hq hl => ?_, fun d hd => ?_, fun q hq hl => ?_⟩
  · rw [hlink.entry]
    exact codeChild_eq_some_iff.2 (linkEntry_valid _
      hlink.frame.isFrameAddress hlink.frame.ne_zero)
  · by_contra hne
    exact hnoowner w (hold w _ hne hw)
  · rintro rfl
    exact Function.update_self ..
  · have hheld := h.flags t _ (levelIndex v 1) ht (by simp) (by simp) k hk
    rw [← regionPath_eq, holdsFlag_iff_of_length rfl hleaf] at hheld
    rw [hlink.entry, getLsbD_linkEntry_of_flag _ hlink.frame.isFrameAddress hk,
      hheld]
    exact ⟨fun hc => hc.resolve_left fun hc => hnosmall hc.1, Or.inr⟩
  · by_cases hwf : w = f
    · rw [hwf, hlink.blank j]
      rfl
    · have hw' := hold w q hwf hw
      rw [hentry w q j hw' (hshort q j (by omega))]
      exact h.upper w q j hw' hq
  · by_cases hwf : w = f
    · -- the new page table is blank, and no call has used the region
      rw [hwf, Function.update_self, Option.some.injEq] at hw
      rw [hwf, hlink.blank j, ← hw]
      exact ⟨fun hbit => absurd hbit (by simp), fun hflag =>
        absurd (smallIn_of_holdsFlag rfl hflag) hnosmall⟩
    · have hw' := hold w q hwf hw
      rw [hentry w q j hw' hne]
      exact h.flags w q j hw' hq hl k hk
  · by_cases hwf : w = f
    · rw [hwf, Function.update_self, Option.some.injEq] at hw
      obtain ⟨rfl, hj⟩ := List.append_inj' (hw.symm.trans (regionPath_eq v)) rfl
      rw [List.singleton_inj.1 hj, hwf]
      refine ⟨t, hkeep t _ ht, ?_⟩
      rw [hlink.entry]
      exact codeChild_eq_some_iff.2 (linkEntry_valid _
        hlink.frame.isFrameAddress hlink.frame.ne_zero)
    · have hw' := hold w _ hwf hw
      have hne : q ++ [j] ≠ regionPath v := fun hc =>
        hnoowner w (hw'.trans (congrArg some hc))
      obtain ⟨t', ht', hchild⟩ := h.parent w q j hw' hq hl
      exact ⟨t', hkeep t' q ht', by rwa [hentry t' q j ht' hne]⟩
  · obtain ⟨w, hw⟩ := h.directory d hd
    exact ⟨w, hkeep w _ hw⟩
  · obtain ⟨w, hw⟩ := h.table q hq hl
    exact ⟨w, hkeep w q hw⟩

/-- A 4 KB page is written into the page table. -/
theorem EntersTable.writeSmall {c : PageMapping}
    (h : EntersTable hhdmOffset root calls c.virtualAddr t u m frames owner)
    (hsmall : c.large = false)
    (hleaf : ¬ LargeIn calls (regionPath c.virtualAddr)) :
    FlagTree hhdmOffset root (calls ++ [c]) (writePage m (tableSlot hhdmOffset u
      (levelIndex c.virtualAddr 0)) c.physicalAddr c.flags) frames owner := by
  have hm := agreeOff_writePage m (tableSlot hhdmOffset u (levelIndex
    c.virtualAddr 0)) c.physicalAddr c.flags
  have hu := (h.owner_iff u).2 rfl
  have hpath : c.path = regionPath c.virtualAddr ++ [levelIndex c.virtualAddr
      0] := by
    rw [PageMapping.path, if_neg (by simp [hsmall]), levelIndices_eq]
  have hlarge : ∀ q, LargeIn (calls ++ [c]) q ↔ LargeIn calls q := fun q => by
    rw [largeIn_snoc, hsmall]
    simp
  have hthree : (regionPath c.virtualAddr).length = 3 := rfl
  -- the slot of the page is the only one with its path
  have hslot : ∀ w q j, owner w = some q → q ++ [j] = c.path →
      w = u ∧ j = levelIndex c.virtualAddr 0 := by
    intro w q j hw hq
    obtain ⟨rfl, hj⟩ := List.append_inj' (hq.trans hpath) rfl
    exact ⟨(h.owner_iff w).1 hw, List.singleton_inj.1 hj⟩
  have hother : ∀ w q j, owner w = some q → q.length ≠ 3 →
      tableEntry (writePage m (tableSlot hhdmOffset u (levelIndex c.virtualAddr
        0)) c.physicalAddr c.flags) hhdmOffset w j =
          tableEntry m hhdmOffset w j := by
    intro w q j hw hq
    refine h.tree.tableEntry_of_ne hu hm hw ?_
    rintro ⟨rfl, -⟩
    rw [hu, Option.some.injEq] at hw
    exact hq (hw ▸ hthree)
  refine ⟨?_, fun w q j hw hq => ?_, fun w q j hw hq hl k hk => ?_,
    fun w q j hw hq hl => ?_, fun d hd => ?_, fun q hq hl => ?_⟩
  · exact (h.tree.relabel fun w q j _ _ hnot hold =>
      absurd ((hlarge _).2 hold) hnot).writePage hu (by simp [hthree])
        (fun h2 => absurd (hthree.symm.trans h2) (by decide)) hm
  · rw [hother w q j hw (by omega)]
    exact h.upper w q j hw hq
  · have hl' : q.length = 3 → ¬ LargeIn calls q := fun h3 =>
      mt (hlarge q).2 (hl h3)
    by_cases hregion : q ++ [j] = regionPath c.virtualAddr
    · -- the entry that leads to the page table
      obtain ⟨rfl, hj⟩ := List.append_inj' (hregion.trans (regionPath_eq _)) rfl
      rw [hother w _ j hw (by simp), List.singleton_inj.1 hj,
        h.tree.eq_of_owner hw h.directory_eq (by simp), h.pointer k hk,
        ← regionPath_eq, holdsFlag_iff_of_length hthree (mt (hlarge _).1 hleaf)]
      exact ⟨fun hk3 => ⟨smallIn_snoc.2 (Or.inr ⟨hsmall, rfl⟩), hk3⟩, And.right⟩
    · have hold := h.flags w q j hw hq hl' hregion k hk
      rw [holdsFlag_snoc]
      by_cases hne : w = u ∧ j = levelIndex c.virtualAddr 0
      · obtain ⟨rfl, rfl⟩ := hne
        have hq' := Option.some.inj (hw.symm.trans hu)
        rw [getLsbD_writePage c hk, hold, hpath, hq']
        simp
      · have hne' : c.path ≠ q ++ [j] := fun hc => hne (hslot w q j hw hc.symm)
        have hregion' : regionPath c.virtualAddr ≠ q ++ [j] := Ne.symm hregion
        rw [h.tree.tableEntry_of_ne hu hm hw hne, hold]
        simp [hne', hregion']
  · obtain ⟨t', ht', hchild⟩ := h.parent w q j hw hq (mt (hlarge _).2 hl)
    exact ⟨t', ht', by rwa [hother t' q j ht' (by omega)]⟩
  · rcases List.mem_append.1 hd with hd | hd
    · exact h.directory d hd
    · rw [List.mem_singleton.1 hd]
      exact ⟨t, h.directory_eq⟩
  · rcases smallIn_snoc.1 hq with hq | ⟨-, rfl⟩
    · exact h.table q hq (mt (hlarge q).2 hl)
    · exact ⟨u, hu⟩

end

end OptimistOS
