import OptimistOS.Paging.Walk

/-!
# The tables of one address space

The invariant of the page tables in memory: the tables reachable from the top
level table are kept apart by an owner, lie in frames that the allocator has
handed out, and hold blank entries, links and 2 MB pages only (`Tables`). What
the paging code needs of the allocator is a `FrameSource`. `pageView` is the
entry that a walk ends at; linking in a blank table does not change it.
-/

namespace OptimistOS

open ByteMemory ByteMemory.Code RadixTree PageDirectoryEntry

def frameBytes (hhdmOffset : Word) (frames : List Word) : Set Addr :=
  {x | ∃ f ∈ frames, x ∈ region (f + hhdmOffset) 4096}

/-- An address at which a table can be: a page below 2^52 other than 0, at
pointers other than null. -/
structure IsTableFrame (hhdmOffset f : Word) : Prop where
  aligned : f.toNat % 4096 = 0
  ne_zero : f ≠ 0
  lt : f.toNat < 2 ^ 52
  mapped : 0 ∉ region (f + hhdmOffset) 4096

/-- The memory `m'` after the allocator has handed out `f` in memory `m`, with
`frames` handed out before. -/
structure FreshFrame (hhdmOffset : Word) (frames : List Word) (m : Bytes)
    (f : Word) (m' : Bytes) : Prop where
  frame : IsTableFrame hhdmOffset f
  notMem : f ∉ frames
  zero : ∀ x ∈ region (f + hhdmOffset) 4096, m' x = 0
  kept : ∀ x ∈ frameBytes hhdmOffset frames, m' x = m x

/-- What the paging code relies on. In a state that is `Ready` for `n` more
frames after `frames`, the next call returns a fresh frame, or `n` is 0 and the
call does not return; and writes into the frames handed out are harmless. -/
structure FrameSource {α : Type} (A : FrameAllocator α) (hhdmOffset : Word) where
  Ready : ℕ → Machine 64 α → List Word → Prop
  allocateFrame : ∀ n s frames, Ready n s frames →
    (∃ f s', (A.allocateFrame 0x1000).run s = .ok f s' ∧
        FreshFrame hhdmOffset frames s.mem f s'.mem ∧
        Ready (n - 1) s' (f :: frames)) ∨
      n = 0 ∧ ∃ e s', (A.allocateFrame 0x1000).run s = .error e s'
  toVirtualAddr : ∀ n s frames, Ready n s frames → frames ≠ [] →
    ∀ a, a ≠ -1 → (A.toVirtualAddr a).run s = .ok (a + hhdmOffset) s
  write : ∀ n s frames m', Ready n s frames →
    AgreeOff (frameBytes hhdmOffset frames) s.mem m' →
    Ready n { s with mem := m' } frames
  mono : ∀ n k s frames, Ready n s frames → k ≤ n → Ready k s frames
  frame : ∀ n s frames, Ready n s frames →
    ∀ f ∈ frames, IsTableFrame hhdmOffset f

structure Tables (hhdmOffset root : Word) (m : Bytes) (frames : List Word)
    (owner : Word → Option (List (BitVec 9))) : Prop where
  frame : ∀ f ∈ frames, IsTableFrame hhdmOffset f
  owned : ∀ t p, owner t = some p → t ∈ frames
  unshared : Unshared childTable (tableEntry m hhdmOffset) root 3 owner
  entry : ∀ t p i, owner t = some p → p.length < 3 →
    tableEntry m hhdmOffset t i = 0 ∨
      (∃ u, childTable (tableEntry m hhdmOffset t i) = some u) ∨
      p.length = 2 ∧ isPresent (tableEntry m hhdmOffset t i) = true ∧
        isPage (tableEntry m hhdmOffset t i) = true

def pageView (hhdmOffset root : Word) (m : Bytes) (q : List (BitVec 9)) :
    Option (PageDirectoryEntry × List (BitVec 9)) :=
  (resolve childTable (tableEntry m hhdmOffset) root q).filter
    fun x => x.1 ≠ 0

theorem translate_eq_pageOf_pageView (m : Bytes) (hhdmOffset PML4 v : Word) :
    translate m hhdmOffset PML4 v =
      if Canonical v then
        pageOf v (pageView hhdmOffset PML4 m (levelIndices v))
      else none := by
  have hblank : ∀ r, pageOf v (some (0, r)) = none := by
    intro r
    rcases r with _ | ⟨a, _ | ⟨b, _ | ⟨c, r⟩⟩⟩ <;> rfl
  rw [translate_eq, pageView]
  cases resolve childTable (tableEntry m hhdmOffset) PML4
    (levelIndices v) with
  | none => rfl
  | some x =>
      obtain ⟨e, r⟩ := x
      by_cases he : e = 0
      · rw [he, hblank]
        rfl
      · rw [Option.filter_some_pos (by simpa using he)]

theorem region_tableSlot_subset (hhdmOffset t : Word) (i : BitVec 9) :
    region (tableSlot hhdmOffset t i) 8 ⊆ region (t + hhdmOffset) 4096 := by
  have hi := i.isLt
  exact region_subset_of_le _ (by omega) (by decide)

theorem disjoint_tableSlot_of_aligned {hhdmOffset t u : Word} {i j : BitVec 9}
    (ht : t.toNat % 4096 = 0) (hu : u.toNat % 4096 = 0)
    (h : ¬ (t = u ∧ i = j)) :
    Disjoint (region (tableSlot hhdmOffset t i) 8)
      (region (tableSlot hhdmOffset u j) 8) := by
  by_cases htu : t = u
  · subst htu
    have hij : i.toNat ≠ j.toNat := fun he => h ⟨rfl, BitVec.eq_of_toNat_eq he⟩
    have hi := i.isLt
    have hj := j.isLt
    rcases Nat.lt_or_gt_of_ne hij with hlt | hlt
    · exact disjoint_region_of_le _ (by omega) (by omega)
    · exact (disjoint_region_of_le _ (by omega) (by omega)).symm
  · have hframes := disjoint_region_add hhdmOffset
      (disjoint_region_of_aligned (by decide : 4096 ∣ 2 ^ 64) ht hu htu)
    exact hframes.mono (region_tableSlot_subset hhdmOffset t i)
      (region_tableSlot_subset hhdmOffset u j)

theorem disjoint_tableSlot {hhdmOffset t u : Word} {i j : BitVec 9}
    (ht : IsTableFrame hhdmOffset t) (hu : IsTableFrame hhdmOffset u)
    (h : ¬ (t = u ∧ i = j)) :
    Disjoint (region (tableSlot hhdmOffset t i) 8)
      (region (tableSlot hhdmOffset u j) 8) :=
  disjoint_tableSlot_of_aligned ht.aligned hu.aligned h

theorem tableEntry_congr {hhdmOffset t : Word} {frames : List Word}
    {m m' : Bytes} (h : ∀ x ∈ frameBytes hhdmOffset frames, m' x = m x)
    (ht : t ∈ frames) (i : BitVec 9) :
    tableEntry m' hhdmOffset t i = tableEntry m hhdmOffset t i := by
  rw [tableEntry, tableEntry, word, word, load_congr (by decide)]
  exact fun x hx => h x ⟨t, ht, region_tableSlot_subset hhdmOffset t i hx⟩

theorem tableEntry_of_zero {hhdmOffset t : Word} {m : Bytes}
    (h : ∀ x ∈ region (t + hhdmOffset) 4096, m x = 0) (i : BitVec 9) :
    tableEntry m hhdmOffset t i = 0 := by
  rw [tableEntry, word, load_of_forall_zero (by decide) fun x hx =>
    h x (region_tableSlot_subset hhdmOffset t i hx)]
  rfl

theorem eq_root_of_owner {root t : Word} {p : List (BitVec 9)}
    (h : (if t = root then some [] else none : Option (List (BitVec 9))) =
      some p) : t = root ∧ p = [] := by
  split_ifs at h with ht
  exact ⟨ht, (Option.some.inj h).symm⟩

namespace Tables

variable {hhdmOffset root : Word} {m m' : Bytes} {frames : List Word}
  {owner : Word → Option (List (BitVec 9))} {p : List (BitVec 9)} {t : Word}
  {i : BitVec 9}

theorem of_blank (hframe : ∀ f ∈ frames, IsTableFrame hhdmOffset f)
    (hroot : root ∈ frames)
    (hzero : ∀ x ∈ region (root + hhdmOffset) 4096, m x = 0) :
    Tables hhdmOffset root m frames fun t => if t = root then some [] else none := by
  have hblank := tableEntry_of_zero hzero
  refine ⟨hframe, fun t p ht => (eq_root_of_owner ht).1.symm ▸ hroot,
    ⟨if_pos rfl, ?_⟩, ?_⟩
  · intro t p i u ht _ hc
    rw [(eq_root_of_owner ht).1, hblank] at hc
    exact absurd hc (by simp [childTable, isPresent])
  · intro t p i ht _
    rw [(eq_root_of_owner ht).1]
    exact Or.inl (hblank i)

theorem owner_of_follow (h : Tables hhdmOffset root m frames owner)
    (ht : follow childTable (tableEntry m hhdmOffset) root p = some t)
    (hlen : p.length ≤ 3) : owner t = some p :=
  h.unshared.follow_owner h.unshared.root ht (by simpa using hlen)

theorem mem_of_follow (h : Tables hhdmOffset root m frames owner)
    (ht : follow childTable (tableEntry m hhdmOffset) root p = some t)
    (hlen : p.length ≤ 3) : t ∈ frames :=
  h.owned t p (h.owner_of_follow ht hlen)

theorem root_mem (h : Tables hhdmOffset root m frames owner) : root ∈ frames :=
  h.owned root [] h.unshared.root

theorem congr {frames' : List Word}
    (h : Tables hhdmOffset root m frames owner)
    (hframe : ∀ f ∈ frames', IsTableFrame hhdmOffset f)
    (hsubset : frames ⊆ frames')
    (hm : ∀ t ∈ frames, ∀ j,
      tableEntry m' hhdmOffset t j = tableEntry m hhdmOffset t j) :
    Tables hhdmOffset root m' frames' owner ∧ ∀ q, q.length = 4 →
      pageView hhdmOffset root m' q = pageView hhdmOffset root m q := by
  have hE : ∀ t p j, owner t = some p →
      tableEntry m' hhdmOffset t j = tableEntry m hhdmOffset t j :=
    fun t p j ht => hm t (h.owned t p ht) j
  refine ⟨⟨hframe, fun t p ht => hsubset (h.owned t p ht),
    ⟨h.unshared.root, fun t p i u ht hlen hc => ?_⟩, fun t p i ht hlen => ?_⟩,
    fun q hq => ?_⟩
  · rw [hE t p i ht] at hc
    exact h.unshared.child t p i u ht hlen hc
  · rw [hE t p i ht]
    exact h.entry t p i ht hlen
  · rw [pageView, pageView,
      resolve_congr h.unshared hE h.unshared.root (by simpa using hq.le)]

theorem agreeOffSlot (h : Tables hhdmOffset root m frames owner)
    (ht : owner t = some p)
    (hm : AgreeOff (region (tableSlot hhdmOffset t i) 8) m m') :
    AgreeOffSlot owner t i (tableEntry m hhdmOffset)
      (tableEntry m' hhdmOffset) := fun u q _ hu hslot =>
  word_congr hm (by decide) (disjoint_tableSlot
    (h.frame u (h.owned u q hu)) (h.frame t (h.owned t p ht)) hslot)

/-- The tables after the entry in one slot has been replaced by one that leads
to no table. -/
theorem set (h : Tables hhdmOffset root m frames owner)
    (ht : owner t = some p)
    (hm : AgreeOff (region (tableSlot hhdmOffset t i) 8) m m')
    (hi : p.length < 3 → p.length = 2 ∧
      isPresent (tableEntry m' hhdmOffset t i) = true ∧
      isPage (tableEntry m' hhdmOffset t i) = true) :
    Tables hhdmOffset root m' frames owner := by
  have hagree := h.agreeOffSlot ht hm
  refine ⟨h.frame, h.owned, h.unshared.set hagree ht fun hlen =>
    childTable_of_page (hi hlen).2.2, fun u q j hu hlen => ?_⟩
  by_cases hslot : u = t ∧ j = i
  · obtain ⟨rfl, rfl⟩ := hslot
    rw [hu] at ht
    obtain rfl := Option.some.inj ht
    exact Or.inr (Or.inr (hi hlen))
  · rw [hagree u q j hu hslot]
    exact h.entry u q j hu hlen

/-- What the walks see of such an entry. -/
theorem pageView_set (h : Tables hhdmOffset root m frames owner)
    (ht : follow childTable (tableEntry m hhdmOffset) root p = some t)
    (hlen : p.length ≤ 3)
    (hm : AgreeOff (region (tableSlot hhdmOffset t i) 8) m m')
    (hpresent : isPresent (tableEntry m' hhdmOffset t i) = true)
    (hi : p.length < 3 → isPage (tableEntry m' hhdmOffset t i) = true)
    {q : List (BitVec 9)} (hq : q.length = 4) :
    pageView hhdmOffset root m' q =
      if p ++ [i] <+: q then
        some (tableEntry m' hhdmOffset t i, q.drop (p.length + 1))
      else pageView hhdmOffset root m q := by
  have howner := h.owner_of_follow ht hlen
  have hagree := h.agreeOffSlot howner hm
  split_ifs with hpre
  · obtain ⟨r, rfl⟩ := hpre
    have hend : resolve childTable (tableEntry m' hhdmOffset) t (i :: r) =
        some (tableEntry m' hhdmOffset t i, r) := by
      rcases Nat.lt_or_ge p.length 3 with hlt | hge
      · exact resolve_of_child_eq_none (childTable_of_page (hi hlt)) r
      · have hr : r = [] := by
          refine List.eq_nil_of_length_eq_zero ?_
          simp only [List.length_append, List.length_singleton] at hq
          omega
        rw [hr, resolve]
    have hdrop : (p ++ [i] ++ r).drop (p.length + 1) = r := by
      rw [List.drop_left' (by simp)]
    have hne : tableEntry m' hhdmOffset t i ≠ 0 := by
      intro h0
      rw [h0] at hpresent
      exact absurd hpresent (by decide)
    rw [pageView, resolve_of_slot h.unshared hagree ht hlen, hend, hdrop,
      Option.filter_some_pos (by simpa using hne)]
  · rw [pageView, pageView, resolve_of_agreeOff h.unshared hagree howner
      h.unshared.root (by simpa using hq.le) (by simpa)]

/-- The tables after a fresh frame has been linked into a blank slot. -/
theorem link {m₁ : Bytes} {f : Word}
    (h : Tables hhdmOffset root m frames owner)
    (hf : FreshFrame hhdmOffset frames m f m₁)
    (ht : follow childTable (tableEntry m hhdmOffset) root p = some t)
    (hlen : p.length < 3)
    (hm : AgreeOff (region (tableSlot hhdmOffset t i) 8) m₁ m')
    (hold : tableEntry m hhdmOffset t i = 0)
    (hi : childTable (tableEntry m' hhdmOffset t i) = some f) :
    Tables hhdmOffset root m' (f :: frames)
        (Function.update owner f (some (p ++ [i]))) ∧
      follow childTable (tableEntry m' hhdmOffset) root (p ++ [i]) = some f ∧
      ∀ q, q.length = 4 →
        pageView hhdmOffset root m' q = pageView hhdmOffset root m q := by
  have howner := h.owner_of_follow ht hlen.le
  have hne : t ≠ f := by
    rintro rfl
    exact hf.notMem (h.owned t p howner)
  have hfresh : owner f = none := by
    cases hof : owner f with
    | none => rfl
    | some q => exact absurd (h.owned f q hof) hf.notMem
  have hagree : AgreeOffSlot owner t i (tableEntry m hhdmOffset)
      (tableEntry m' hhdmOffset) := by
    intro u q j hu hslot
    rw [← tableEntry_congr hf.kept (h.owned u q hu) j]
    exact word_congr hm (by decide) (disjoint_tableSlot
      (h.frame u (h.owned u q hu)) (h.frame t (h.owned t p howner)) hslot)
  have hblank : ∀ j, tableEntry m' hhdmOffset f j = 0 := by
    intro j
    have hdisj := disjoint_tableSlot (i := j) (j := i) hf.frame
      (h.frame t (h.owned t p howner)) fun hc => hne hc.1.symm
    exact (word_congr hm (by decide) hdisj).trans (tableEntry_of_zero hf.zero j)
  have hlink := h.unshared.link hagree howner hfresh hi fun j => by
    rw [hblank j]
    rfl
  refine ⟨⟨?_, ?_, hlink, ?_⟩, ?_, fun q hq => ?_⟩
  · intro g hg
    rcases List.mem_cons.1 hg with rfl | hg
    · exact hf.frame
    · exact h.frame g hg
  · intro u q hu
    by_cases huf : u = f
    · rw [huf]
      exact List.mem_cons_self
    · rw [Function.update_of_ne huf] at hu
      exact List.mem_cons_of_mem f (h.owned u q hu)
  · intro u q j hu hq
    by_cases huf : u = f
    · rw [huf, hblank j]
      exact Or.inl rfl
    · rw [Function.update_of_ne huf] at hu
      by_cases hslot : u = t ∧ j = i
      · obtain ⟨rfl, rfl⟩ := hslot
        exact Or.inr (Or.inl ⟨f, hi⟩)
      · rw [hagree u q j hu hslot]
        exact h.entry u q j hu hq
  · rw [follow_snoc (follow_of_slot h.unshared hagree ht hlen.le), hi]
  · exact resolve_link h.unshared hagree ht hlen
      (Option.filter fun x => decide (x.1 ≠ 0)) 0 none (fun r => rfl) rfl hold
      hi hblank hq

end Tables

end OptimistOS
