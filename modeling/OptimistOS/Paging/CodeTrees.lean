import OptimistOS.Paging.WalkSteps

/-!
# The tables that the code walks

The paging code follows every valid entry, whatever its flags say. In a
`CodeTree` all tables down to the page directories are kept apart by an owner,
as in a radix tree, and the entries of the page directories lead to page tables,
except for the regions in `Leaf`, whose entries may be pages. A walk that does
not follow such an entry stays in the tree (`CodeTree.pageWalk`).
-/

namespace OptimistOS

open ByteMemory ByteMemory.Code RadixTree PageDirectoryEntry

/-- The indices of the page directory entry for `v`. -/
def regionPath (v : Word) : List (BitVec 9) :=
  [levelIndex v 3, levelIndex v 2, levelIndex v 1]

structure CodeTree (hhdmOffset root : Word) (Leaf : List (BitVec 9) → Prop)
    (m : Bytes) (frames : List Word)
    (owner : Word → Option (List (BitVec 9))) : Prop where
  frame : ∀ f ∈ frames, IsTableFrame hhdmOffset f
  owned : ∀ t p, owner t = some p → t ∈ frames
  unshared : Unshared codeChild (tableEntry m hhdmOffset) root 2 owner
  reach : ∀ t p, owner t = some p → p.length ≤ 2 →
    follow codeChild (tableEntry m hhdmOffset) root p = some t
  lower : ∀ t p i, owner t = some p → p.length = 2 → ¬ Leaf (p ++ [i]) →
    isValid (tableEntry m hhdmOffset t i) = true →
      owner (getAddress (tableEntry m hhdmOffset t i)) = some (p ++ [i])

section

variable {hhdmOffset root : Word} {Leaf Leaf' : List (BitVec 9) → Prop}
  {m m' : Bytes} {frames frames' : List Word}
  {owner : Word → Option (List (BitVec 9))} {p : List (BitVec 9)}
  {t u f : Word} {i : BitVec 9}

theorem CodeTree.of_blank (hframe : ∀ f ∈ frames, IsTableFrame hhdmOffset f)
    (hroot : root ∈ frames) (hblank : ∀ i, tableEntry m hhdmOffset root i = 0) :
    CodeTree hhdmOffset root Leaf m frames
      fun t => if t = root then some [] else none := by
  refine ⟨hframe, fun t p ht => (eq_root_of_owner ht).1 ▸ hroot, ⟨if_pos rfl, ?_⟩,
    fun t p ht _ => ?_, fun t p i ht hlen => ?_⟩
  · intro t p i u ht _ hc
    rw [(eq_root_of_owner ht).1, hblank,
      show codeChild 0 = none by decide] at hc
    exact absurd hc (by simp)
  · obtain ⟨rfl, rfl⟩ := eq_root_of_owner ht
    rfl
  · rw [(eq_root_of_owner ht).2] at hlen
    exact absurd hlen (by decide)

theorem CodeTree.owner_child (h : CodeTree hhdmOffset root Leaf m frames owner)
    (ht : owner t = some p) (hlen : p.length ≤ 2)
    (hleaf : p.length = 2 → ¬ Leaf (p ++ [i]))
    (hvalid : isValid (tableEntry m hhdmOffset t i) = true) :
    owner (getAddress (tableEntry m hhdmOffset t i)) = some (p ++ [i]) := by
  rcases Nat.lt_or_eq_of_le hlen with hlt | heq
  · exact h.unshared.child t p i _ ht hlt (codeChild_eq_some_iff.2 ⟨hvalid, rfl⟩)
  · exact h.lower t p i ht heq (hleaf heq) hvalid

/-- A fresh frame is linked in. -/
theorem CodeTree.link (h : CodeTree hhdmOffset root Leaf m frames owner)
    (ht : owner t = some p) (hlen : p.length ≤ 2)
    (hinvalid : isValid (tableEntry m hhdmOffset t i) = false)
    (hlink : LinksFrame hhdmOffset t i frames m f m') :
    CodeTree hhdmOffset root Leaf m' (f :: frames)
      (Function.update owner f (some (p ++ [i]))) := by
  have hfresh : owner f = none := by
    cases hof : owner f with
    | none => rfl
    | some q => exact absurd (h.owned f q hof) hlink.notMem
  have hagree : AgreeOffSlot owner t i (tableEntry m hhdmOffset)
      (tableEntry m' hhdmOffset) := fun u q j hu hslot =>
    hlink.kept u (h.owned u q hu) j hslot
  have hreach := h.reach t p ht hlen
  have hnone : codeChild (tableEntry m hhdmOffset t i) = none := by
    rw [codeChild, hinvalid]
    rfl
  have hvalid := linkEntry_valid (tableEntry m hhdmOffset t i)
    hlink.frame.isFrameAddress hlink.frame.ne_zero
  have hchild : codeChild (tableEntry m' hhdmOffset t i) = some f := by
    rw [hlink.entry]
    exact codeChild_eq_some_iff.2 hvalid
  have hold : ∀ u q, u ≠ f →
      Function.update owner f (some (p ++ [i])) u = some q →
        owner u = some q := fun u q hne hu => by
    rwa [Function.update_of_ne hne] at hu
  refine ⟨fun g hg => ?_, fun u q hu => ?_, h.unshared.link hagree ht hfresh
    hchild fun j => by rw [hlink.blank j]; rfl, fun u q hu hq => ?_,
    fun u q j hu hq hleaf hval => ?_⟩
  · rcases List.mem_cons.1 hg with rfl | hg
    · exact hlink.frame
    · exact h.frame g hg
  · by_cases huf : u = f
    · exact huf ▸ List.mem_cons_self
    · exact List.mem_cons_of_mem f (h.owned u q (hold u q huf hu))
  · by_cases huf : u = f
    · subst huf
      rw [Function.update_self, Option.some.injEq] at hu
      rw [← hu, follow_snoc (follow_of_slot h.unshared hagree hreach hlen),
        hchild]
    · have hu' := hold u q huf hu
      exact follow_of_child_eq_none h.unshared hagree ht hreach hnone
        (h.reach u q hu' hq) hq
  · by_cases huf : u = f
    · rw [huf, hlink.blank j] at hval
      exact absurd hval (by decide)
    · have hu' := hold u q huf hu
      by_cases hslot : u = t ∧ j = i
      · obtain ⟨rfl, rfl⟩ := hslot
        rw [ht, Option.some.injEq] at hu'
        rw [hlink.entry, hvalid.2, Function.update_self, hu']
      · rw [hagree u q j hu' hslot] at hval ⊢
        have hchild' := h.lower u q j hu' hq hleaf hval
        rw [Function.update_of_ne, hchild']
        intro hc
        rw [hc, hfresh] at hchild'
        exact absurd hchild' (by simp)

/-- Other regions may be pages, as long as the entries that may no longer be one
lead to page tables. -/
theorem CodeTree.relabel (h : CodeTree hhdmOffset root Leaf m frames owner)
    (hleaf : ∀ t p i, owner t = some p → p.length = 2 → ¬ Leaf' (p ++ [i]) →
      Leaf (p ++ [i]) →
        owner (getAddress (tableEntry m hhdmOffset t i)) = some (p ++ [i])) :
    CodeTree hhdmOffset root Leaf' m frames owner := by
  refine ⟨h.frame, h.owned, h.unshared, h.reach,
    fun t p i ht hlen hnot hvalid => ?_⟩
  by_cases hold : Leaf (p ++ [i])
  · exact hleaf t p i ht hlen hnot hold
  · exact h.lower t p i ht hlen hold hvalid

/-- A page is written into a page table, or into the entry of a region that may
be a page. -/
theorem CodeTree.writePage (h : CodeTree hhdmOffset root Leaf m frames owner)
    (ht : owner t = some p) (hlen : 2 ≤ p.length)
    (hleaf : p.length = 2 → Leaf (p ++ [i]))
    (hm : AgreeOff (region (tableSlot hhdmOffset t i) 8) m m') :
    CodeTree hhdmOffset root Leaf m' frames owner := by
  have hagree : AgreeOffSlot owner t i (tableEntry m hhdmOffset)
      (tableEntry m' hhdmOffset) := fun u q j hu hslot =>
    word_congr hm (by decide) (disjoint_tableSlot
      (h.frame u (h.owned u q hu)) (h.frame t (h.owned t p ht)) hslot)
  refine ⟨h.frame, h.owned, h.unshared.set hagree ht fun hlt => by omega,
    fun u q hu hq => ?_, fun u q j hu hq hnot hvalid => ?_⟩
  · rw [← h.reach u q hu hq]
    refine follow_of_agreeOff h.unshared hagree ht h.unshared.root
      (by simpa using hq) fun hpre => ?_
    have hle := hpre.length_le
    simp only [List.length_append, List.length_singleton, List.length_nil]
      at hle
    omega
  · have hslot : ¬ (u = t ∧ j = i) := by
      rintro ⟨rfl, rfl⟩
      rw [ht, Option.some.injEq] at hu
      subst hu
      exact hnot (hleaf hq)
    rw [hagree u q j hu hslot] at hvalid ⊢
    exact h.lower u q j hu hq hnot hvalid

variable {α : Type} {A : FrameAllocator α} {s s' : Machine 64 α} {v : Word}
  {large : Bool}

theorem CodeTree.step (h : CodeTree hhdmOffset root Leaf s.mem frames owner)
    (ht : owner t = some p) (hlen : p.length ≤ 2)
    (hleaf : p.length = 2 → isValid (tableEntry s.mem hhdmOffset t i) = true →
      ¬ Leaf (p ++ [i]))
    (hstep : WalkStep A hhdmOffset t i frames s u frames' s') :
    ∃ owner', CodeTree hhdmOffset root Leaf s'.mem frames' owner' ∧
      owner' u = some (p ++ [i]) ∧ (∀ f ∈ frames, owner' f = owner f) ∧
      getAddress (tableEntry s'.mem hhdmOffset t i) = u := by
  rcases hstep.entries h.frame (h.owned t p ht) with
    ⟨hvalid, rfl, rfl, rfl⟩ | ⟨hinvalid, rfl, hlink⟩
  · exact ⟨owner, h, h.owner_child ht hlen (fun h2 => hleaf h2 hvalid) hvalid,
      fun _ _ => rfl, rfl⟩
  · refine ⟨_, h.link ht hlen hinvalid hlink, Function.update_self ..,
      fun f hf => Function.update_of_ne ?_ .., ?_⟩
    · rintro rfl
      exact hlink.notMem hf
    · rw [hlink.entry]
      exact (linkEntry_valid _ hlink.frame.isFrameAddress
        hlink.frame.ne_zero).2

theorem CodeTree.canStep (h : CodeTree hhdmOffset root Leaf m frames owner)
    (ht : owner t = some p) (hlen : p.length ≤ 2)
    (hleaf : p.length = 2 → isValid (tableEntry m hhdmOffset t i) = true →
      ¬ Leaf (p ++ [i])) : CanStep hhdmOffset frames m t i :=
  ⟨h.owned t p ht, fun hvalid => h.owned _ _
    (h.owner_child ht hlen (fun h2 => hleaf h2 hvalid) hvalid)⟩

theorem CodeTree.eq_or_blank
    (h : CodeTree hhdmOffset root Leaf s.mem frames owner)
    (ht : owner t = some p)
    (hstep : WalkStep A hhdmOffset t i frames s u frames' s') :
    s' = s ∨ ∀ j, tableEntry s'.mem hhdmOffset u j = 0 := by
  rcases hstep.entries h.frame (h.owned t p ht) with
    ⟨-, -, -, rfl⟩ | ⟨-, -, hlink⟩
  · exact Or.inl rfl
  · exact Or.inr hlink.blank

/-- The walk of a 4 KB call for `v` follows a valid entry that may be a page. -/
def FollowsLeaf (hhdmOffset root : Word) (Leaf : List (BitVec 9) → Prop)
    (m : Bytes) (v : Word) : Prop :=
  Leaf (regionPath v) ∧ ∃ t, follow codeChild (tableEntry m hhdmOffset) root
    [levelIndex v 3, levelIndex v 2] = some t ∧
      isValid (tableEntry m hhdmOffset t (levelIndex v 1)) = true

/-- The first two steps of a walk. -/
theorem CodeTree.twoSteps
    (h : CodeTree hhdmOffset root Leaf s.mem frames owner) {t₂ t₁ : Word}
    {frames₂ frames₁ : List Word} {s₂ s₁ : Machine 64 α}
    (h₃ : WalkStep A hhdmOffset root (levelIndex v 3) frames s t₂ frames₂ s₂)
    (h₂ : WalkStep A hhdmOffset t₂ (levelIndex v 2) frames₂ s₂ t₁ frames₁ s₁) :
    ∃ owner', CodeTree hhdmOffset root Leaf s₁.mem frames₁ owner' ∧
      owner' t₁ = some [levelIndex v 3, levelIndex v 2] ∧
      (∀ f ∈ frames, owner' f = owner f) ∧
      (isValid (tableEntry s₁.mem hhdmOffset t₁ (levelIndex v 1)) = true →
        Leaf (regionPath v) → FollowsLeaf hhdmOffset root Leaf s.mem v) := by
  obtain ⟨owner₂, htree₂, howner₂, hkept₂, -⟩ :=
    h.step h.unshared.root (by simp) (by simp) h₃
  obtain ⟨owner₁, htree₁, howner₁, hkept₁, -⟩ :=
    htree₂.step howner₂ (by simp) (by simp) h₂
  refine ⟨owner₁, htree₁, howner₁, fun f hf => ?_, fun hvalid hleaf => ?_⟩
  · rw [hkept₁ f (h₃.subset hf), hkept₂ f hf]
  · have hblank : ∀ j, isValid (tableEntry s₁.mem hhdmOffset t₁ j) = true →
        ¬ ∀ j, tableEntry s₁.mem hhdmOffset t₁ j = 0 := fun j hv hz => by
      rw [hz] at hv
      exact absurd hv (by decide)
    rcases htree₂.eq_or_blank howner₂ h₂ with rfl | hz
    · rcases h.eq_or_blank h.unshared.root h₃ with rfl | hz
      · exact ⟨hleaf, t₁, htree₁.reach t₁ _ howner₁ (by simp), hvalid⟩
      · -- a blank table cannot have been followed
        rcases h₂.entries htree₂.frame (htree₂.owned _ _ howner₂) with
          ⟨hv, -⟩ | ⟨-, -, hlink⟩
        · rw [hz] at hv
          exact absurd hv (by decide)
        · exact absurd hlink.blank (hblank _ hvalid)
    · exact absurd hz (hblank _ hvalid)

theorem CodeTree.canWalk (h : CodeTree hhdmOffset root Leaf s.mem frames owner)
    (hguard : large = false → ¬ FollowsLeaf hhdmOffset root Leaf s.mem v) :
    CanWalk A hhdmOffset root v large frames s := by
  refine ⟨h.canStep h.unshared.root (by simp) (by simp),
    fun t frames' s' h₃ => ?_, fun hsmall t frames' s' t' frames'' s'' h₃ h₂ => ?_⟩
  · obtain ⟨owner₂, htree₂, howner₂, -⟩ :=
      h.step h.unshared.root (by simp) (by simp) h₃
    exact htree₂.canStep howner₂ (by simp) (by simp)
  · obtain ⟨owner₁, htree₁, howner₁, -, hfollows⟩ := h.twoSteps h₃ h₂
    exact htree₁.canStep howner₁ (by simp) fun _ hvalid hleaf =>
      hguard hsmall (hfollows hvalid hleaf)

theorem CodeTree.pageWalk (h : CodeTree hhdmOffset root Leaf s.mem frames owner)
    (hguard : large = false → ¬ FollowsLeaf hhdmOffset root Leaf s.mem v)
    (hwalk : PageWalk A hhdmOffset root v frames s large t i frames' s') :
    ∃ owner', CodeTree hhdmOffset root Leaf s'.mem frames' owner' ∧
      (∀ f ∈ frames, owner' f = owner f) ∧
      ∃ t₁, owner' t₁ = some [levelIndex v 3, levelIndex v 2] ∧
        if large then t = t₁ ∧ i = levelIndex v 1
        else owner' t = some (regionPath v) ∧ i = levelIndex v 0 ∧
          getAddress (tableEntry s'.mem hhdmOffset t₁ (levelIndex v 1)) = t := by
  cases hwalk with
  | large h₃ h₂ =>
      obtain ⟨owner₁, htree₁, howner₁, hkept₁, -⟩ := h.twoSteps h₃ h₂
      exact ⟨owner₁, htree₁, hkept₁, t, howner₁, by simp⟩
  | @small t₂ t₁ t₀ frames₂ frames₁ _ s₂ s₁ _ h₃ h₂ h₁ =>
      obtain ⟨owner₁, htree₁, howner₁, hkept₁, hfollows⟩ := h.twoSteps h₃ h₂
      obtain ⟨owner₀, htree₀, howner₀, hkept₀, haddress⟩ :=
        htree₁.step howner₁ (by simp) (fun _ hvalid hleaf =>
          hguard rfl (hfollows hvalid hleaf)) h₁
      have hsub : frames ⊆ frames₁ := fun f hf => h₂.subset (h₃.subset hf)
      exact ⟨owner₀, htree₀, fun f hf => (hkept₀ f (hsub hf)).trans
        (hkept₁ f hf), t₁, (hkept₀ t₁ (htree₁.owned _ _ howner₁)).trans howner₁,
        howner₀, rfl, haddress⟩

/-- A call of `map`: afterwards the entry for `v` may be a page exactly when a
2 MB page was asked for, and then the page is written there. -/
theorem CodeTree.mapPage (h : CodeTree hhdmOffset root Leaf s.mem frames owner)
    (hguard : large = false → ¬ FollowsLeaf hhdmOffset root Leaf s.mem v)
    (hwalk : PageWalk A hhdmOffset root v frames s large t i frames' s')
    (hnew : Leaf' (regionPath v) ↔ large = true)
    (hother : ∀ q, q ≠ regionPath v → (Leaf' q ↔ Leaf q))
    (physicalAddr flags : Word) :
    ∃ owner', CodeTree hhdmOffset root Leaf' (OptimistOS.writePage s'.mem
        (tableSlot hhdmOffset t i) physicalAddr flags) frames' owner' ∧
      (∀ f ∈ frames, owner' f = owner f) ∧
      (large = true → owner' t = some [levelIndex v 3, levelIndex v 2] ∧
        i = levelIndex v 1) := by
  obtain ⟨owner', htree, hkept, t₁, howner₁, hslot⟩ := h.pageWalk hguard hwalk
  have hm := agreeOff_writePage s'.mem (tableSlot hhdmOffset t i) physicalAddr
    flags
  have hregion : ∀ p i, ¬ Leaf' (p ++ [i]) → Leaf (p ++ [i]) →
      p ++ [i] = regionPath v := fun p i hnot hold => by
    by_contra hne
    exact hnot ((hother _ hne).2 hold)
  cases large with
  | true =>
      obtain ⟨rfl, rfl⟩ := hslot
      have hrelabel : CodeTree hhdmOffset root Leaf' s'.mem frames' owner' :=
        htree.relabel fun u p j _ _ hnot hold =>
          absurd (hregion p j hnot hold ▸ hnew.2 rfl) hnot
      exact ⟨owner', hrelabel.writePage howner₁ (by simp)
        (fun _ => hnew.2 rfl) hm, hkept, fun _ => ⟨howner₁, rfl⟩⟩
  | false =>
      obtain ⟨howner, rfl, haddress⟩ := hslot
      have hrelabel : CodeTree hhdmOffset root Leaf' s'.mem frames' owner' := by
        refine htree.relabel fun u p j hu hlen hnot hold => ?_
        have hpath : p ++ [j] = [levelIndex v 3, levelIndex v 2] ++
            [levelIndex v 1] := hregion p j hnot hold
        obtain ⟨rfl, hj⟩ := List.append_inj' hpath rfl
        rw [List.singleton_inj] at hj
        subst hj
        have hsame : u = t₁ := Option.some.inj
          ((htree.reach u _ hu (by simp)).symm.trans
            (htree.reach t₁ _ howner₁ (by simp)))
        rw [hsame, haddress, howner]
        rfl
      exact ⟨owner', hrelabel.writePage howner (by simp [regionPath])
        (by simp [regionPath]) hm, hkept, by simp⟩

end

end OptimistOS
