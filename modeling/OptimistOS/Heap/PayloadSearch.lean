import OptimistOS.Heap.ShownHeaders

/-!
# The search among the payloads of blocks

A search in a memory with payloads goes the same way as in one without, as long
as it splits no page with payload bytes where the header of the right half is
going to be: a split writes the size and the link of that header and takes over
the rest (`BlankRightHalf`).
-/

namespace OptimistOS

open ByteMemory

def adoptedMembers : Set Head := {f | f ≠ .previous ∧ f ≠ .size ∧ f ≠ .next}

/-- If the node at `node` is that of a page that was never split, the rest of
the header of its right half is blank. -/
def BlankRightHalf (m : Bytes) (node : Addr) : Prop :=
  head.get m node .size = PAGE_SIZE → ∀ f ∈ adoptedMembers,
    head.get m (node + head.get m node .childSize) f = 0

theorem NodeAt.eq_zero_of_blank {m : Bytes} {p : Addr}
    (h : NodeAt m p blankNode) {f : Head} (hf : f ∈ adoptedMembers) :
    head.get m p f = 0 := by
  obtain ⟨hprevious, hsize, hnext⟩ := hf
  cases f with
  | previous => exact absurd rfl hprevious
  | size => exact absurd rfl hsize
  | next => exact absurd rfl hnext
  | left => exact h.left
  | right => exact h.right
  | status => exact h.status
  | childSize => exact h.childSize
  | level => exact h.level
  | isBuddyCoalesced => exact h.isBuddyCoalesced

theorem Halve.rightSlot {m : Bytes} {b : Addr} {segs segs' : List Segment}
    {lastLive : Bool} {k : ℕ} (h : Halve segs k segs')
    (hpool : PoolAt m b segs lastLive) :
    slot b k + head.get m (slot b k) .childSize = slot b (k / 2 * 2 + 1) := by
  cases h with
  | page pre post =>
      have hnode := (hpool.segmentAt (focus_of_mid pre _ post)).node
      rw [← page_eq_slot, hnode.childSize, show 2 * spans pre / 2 * 2 + 1 =
        2 * spans pre + 1 by omega, ← rightHalf_eq_slot]
      rfl
  | left pre post left right liveRight =>
      have hnode := (hpool.segmentAt (focus_of_mid pre _ post)).node
      rw [← page_eq_slot, hnode.childSize, show 2 * spans pre / 2 * 2 + 1 =
        2 * spans pre + 1 by omega, ← rightHalf_eq_slot]
      rfl
  | right pre post left right liveLeft =>
      obtain ⟨-, -, l, r, -, -, hnode⟩ :=
        (hpool.segmentAt (focus_of_mid pre _ post)).rest
      rw [← rightHalf_eq_slot, hnode.childSize,
        show (2 * spans pre + 1) / 2 * 2 + 1 = 2 * spans pre + 1 by omega,
        ← rightHalf_eq_slot]
      exact BitVec.add_zero _

section

variable {m m' : Bytes} {b : Addr} {segs segs' : List Segment} {lastLive : Bool}
  {k : ℕ}

/-- A split whose right half shares its header but for the members that the
split writes. -/
theorem Shadowed.splitNode (h : Shadowed m m' b segs lastLive)
    (hk : Current segs k) (hhalve : Halve segs k segs')
    (hpool : PoolAt (OptimistOS.splitNode m (slot b k)) b segs' lastLive)
    {S : Set (Addr × Head)} (hS : head.SameOn (slots b) S m m')
    (hsub : shownMembers b segs' ⊆
      splitMembers (slot b k) (slot b (k / 2 * 2 + 1)) ∪
        (shownMembers b segs ∪ S)) :
    Shadowed (OptimistOS.splitNode m (slot b k))
      (OptimistOS.splitNode m' (slot b k)) b segs' lastLive := by
  have hshown := hk.mem_poolShown
  have hle := h.pool.shown_le hshown
  have hright := hhalve.rightSlot h.pool
  have hp := slot_mem_slots b (k := k) (by omega)
  have hr := slot_mem_slots b (k := k / 2 * 2 + 1) (by omega)
  rw [← hright] at hr hsub
  refine ⟨hpool, h.backlinks.splitNode rfl hp hr, ?_⟩
  exact (sameOn_splitNode (apart_slots b) (h.same.union hS) hp hr
    (Or.inl (mem_shownMembers hshown (by decide)))
    (Or.inl (mem_shownMembers hshown (by decide)))
    (Or.inl (mem_shownMembers hshown (by decide))) rfl).mono hsub

theorem sameOn_empty (b : Addr) (m m' : Bytes) :
    head.SameOn (slots b) ∅ m m' :=
  ⟨fun _ hx => absurd hx (Set.notMem_empty _),
    fun _ hx => absurd hx (Set.notMem_empty _)⟩

/-- A split of the search. -/
theorem Shadowed.split (h : Shadowed m m' b segs lastLive)
    (hk : Current segs k) (hhalve : Halve segs k segs')
    (hpool : PoolAt (OptimistOS.splitNode m (slot b k)) b segs' lastLive)
    (hblank : BlankRightHalf m' (slot b k)) :
    Shadowed (OptimistOS.splitNode m (slot b k))
      (OptimistOS.splitNode m' (slot b k)) b segs' lastLive := by
  have hright := hhalve.rightSlot h.pool
  have hchild := h.get hk.mem_poolShown (f := .childSize) (by decide)
  have hsize := h.get hk.mem_poolShown (f := .size) (by decide)
  cases hhalve with
  | page pre post =>
      have hsegment := h.pool.segmentAt (focus_of_mid pre _ post)
      have hpage : head.get m (slot b (2 * spans pre)) .size = PAGE_SIZE :=
        page_eq_slot b _ ▸ hsegment.node.size
      have hclean : NodeAt m (slot b (2 * spans pre + 1)) blankNode :=
        rightHalf_eq_slot b _ ▸ hsegment.rest
      have hodd : 2 * spans pre / 2 * 2 + 1 = 2 * spans pre + 1 := by omega
      have hle := h.pool.shown_le hk.mem_poolShown
      have hzero := hblank (hsize.trans hpage)
      rw [hchild, hright, hodd] at hzero
      refine h.splitNode hk (.page pre post) hpool
        (S := {x | x.1 = slot b (2 * spans pre + 1) ∧ x.2 ∈ adoptedMembers})
        ⟨fun x hx => hx.1 ▸ slot_mem_slots b (by omega), fun x hx => ?_⟩ ?_
      · rw [hx.1, hzero _ hx.2, hclean.eq_zero_of_blank hx.2]
      · rintro ⟨p, f⟩ ⟨l, hl, hp, hf⟩
        dsimp only at hp hf
        obtain rfl := hp
        rw [mem_poolShown_mid, shown_singleton, Segment.shown, List.mem_cons,
          List.mem_singleton] at hl
        rw [hodd]
        rcases hl with (rfl | rfl) | hl
        · refine Or.inr (Or.inl ⟨_, ?_, rfl, hf⟩)
          exact mem_poolShown_mid.2 (Or.inl (by simp [Segment.shown]))
        · have hprevious : f ≠ .previous := hf.resolve_left (by omega)
          by_cases hadopted : f ∈ adoptedMembers
          · exact Or.inr (Or.inr ⟨rfl, hadopted⟩)
          · left
            cases f <;> simp_all [adoptedMembers, splitMembers]
        · exact Or.inr (Or.inl ⟨l, mem_poolShown_mid.2 (Or.inr hl), rfl, hf⟩)
  | left pre post left right liveRight =>
      refine h.splitNode hk (.left pre post left right liveRight) hpool
        (sameOn_empty b m m') (fun x hx => Or.inr (Or.inl
          (shownMembers_subset (fun l hl => ?_) hx)))
      exact poolShown_subset (by simp [Segment.span])
        (by simp [Segment.shown]) hl
  | right pre post left right liveLeft =>
      refine h.splitNode hk (.right pre post left right liveLeft) hpool
        (sameOn_empty b m m') (fun x hx => Or.inr (Or.inl
          (shownMembers_subset (fun l hl => ?_) hx)))
      exact poolShown_subset (by simp [Segment.span])
        (by simp [Segment.shown]) hl

def shownHeaders (b : Addr) (segs : List Segment) : Set Addr :=
  {x | ∃ k ∈ poolShown segs, x ∈ head.recordRegion (slot b k)}

theorem mem_poolShown_right (pre post : List Segment) (left right : Word)
    (liveLeft liveRight : Bool) :
    2 * spans pre + 1 ∈ poolShown
      (pre ++ [.halves left right liveLeft liveRight] ++ post) :=
  mem_poolShown_mid.2 (Or.inl (by simp [Segment.shown]))

theorem Halve.shown (h : Halve segs k segs') :
    k / 2 * 2 + 1 ∈ poolShown segs' ∧ ∀ l ∈ poolShown segs, l ∈ poolShown segs' := by
  cases h with
  | page pre post =>
      rw [show 2 * spans pre / 2 * 2 + 1 = 2 * spans pre + 1 by omega]
      exact ⟨mem_poolShown_right pre post _ _ _ _, fun l hl => poolShown_subset
        (by simp [Segment.span]) (by simp [Segment.shown]) hl⟩
  | left pre post left right liveRight =>
      rw [show 2 * spans pre / 2 * 2 + 1 = 2 * spans pre + 1 by omega]
      exact ⟨mem_poolShown_right pre post _ _ _ _, fun l hl => poolShown_subset
        (by simp [Segment.span]) (by simp [Segment.shown]) hl⟩
  | right pre post left right liveLeft =>
      rw [show (2 * spans pre + 1) / 2 * 2 + 1 = 2 * spans pre + 1 by omega]
      exact ⟨mem_poolShown_right pre post _ _ _ _, fun l hl => poolShown_subset
        (by simp [Segment.span]) (by simp [Segment.shown]) hl⟩

theorem Shadowed.agreeOff_split {m₀ : Bytes}
    (h : Shadowed m m' b segs lastLive) (hk : Current segs k)
    (hhalve : Halve segs k segs')
    (hm : AgreeOff (shownHeaders b segs) m₀ m') :
    AgreeOff (shownHeaders b segs') m₀
      (OptimistOS.splitNode m' (slot b k)) := by
  obtain ⟨hright, hshown⟩ := hhalve.shown
  have hle := h.pool.shown_le hk.mem_poolShown
  have hslot := hhalve.rightSlot h.pool
  rw [← h.get hk.mem_poolShown (by decide)] at hslot
  have hsplit := agreeOff_splitNode (m := m') (p := slot b k) rfl
    ((eq_or_disjoint (apart_slots b) (slot_mem_slots b (k := k) (by omega))
      (hslot.symm ▸ slot_mem_slots b (k := k / 2 * 2 + 1) (by omega))))
  rw [hslot] at hsplit
  refine (hm.trans hsplit).mono ?_
  rintro x (⟨l, hl, hx⟩ | hx | hx)
  · exact ⟨l, hshown l hl, hx⟩
  · exact ⟨k, hshown k hk.mem_poolShown, hx⟩
  · exact ⟨_, hright, hx⟩

/-- An iteration among payloads leaves the pool as it was, or it halves a node
that is not allocated. -/
theorem Shadowed.iteration (h : Shadowed m m' b segs lastLive) {i : ℕ}
    (hi : Current segs i) {size : Word} {next : MallocStep}
    (hstep : mallocStep m' size (slot b i) = .ok next)
    (hblank : Splits m' size (slot b i) →
      BlankRightHalf m' (skipAllocated m' (slot b i))) :
    (∃ result, next = .done result ∧ Found m b segs size result) ∨
      (∃ k, Current segs k ∧ next = .next m' (slot b k)) ∨
      ∃ k segs' m₁, Splits m' size (slot b i) ∧
        skipAllocated m' (slot b i) = slot b k ∧ Current segs k ∧
        Halve segs k segs' ∧ Current segs' k ∧
        Shadowed m₁ (OptimistOS.splitNode m' (slot b k)) b segs' lastLive ∧
        next = .next (OptimistOS.splitNode m' (slot b k)) (slot b k) := by
  have hle := h.pool.current_le hi
  have hp : slot b i ≠ 0 := slot_ne_zero h.pool.base (by omega)
  rw [mallocStep, if_neg hp] at hstep
  cases hmulti : multiPage m' size (slot b i) with
  | error e =>
      rw [hmulti] at hstep
      exact absurd hstep (by simp [bind, Except.bind])
  | ok found =>
      rw [hmulti] at hstep
      cases found with
      | some result =>
          refine Or.inl ⟨result, (Except.ok.inj hstep).symm, ?_⟩
          rw [h.multiPage_eq size hi] at hmulti
          rcases multiPage_eq_some hmulti with rfl | ⟨rfl, hsize, hstatus,
            hblocks, hcan⟩
          · trivial
          · exact ⟨i, hi, rfl, hstatus, hsize, rfl, hblocks, hcan⟩
      | none =>
          obtain ⟨k, hk, hskip⟩ := h.pool.exists_skip hi
          rw [← h.skipAllocated_eq hi] at hskip
          have hkle := h.pool.current_le hk
          have hq : slot b k ≠ 0 := slot_ne_zero h.pool.base (by omega)
          have hget : ∀ f, f ≠ .previous →
              head.get m' (slot b k) f = head.get m (slot b k) f :=
            fun f hf => h.get hk.mem_poolShown hf
          change takeOrSplit m' size
            (skipAllocated m' (slot b i)) = .ok next at hstep
          rw [hskip, takeOrSplit, if_neg hq] at hstep
          split_ifs at hstep with hsize hgo hnext hnull
          · exact Or.inl ⟨_, (Except.ok.inj hstep).symm, k, hk, rfl,
              (hget _ (by decide)).symm.trans hsize⟩
          · rw [hget _ (by decide)] at hnext hstep
            obtain ⟨l, hl, heq⟩ :=
              (h.pool.links_current hk).2.2.resolve_left hnext
            exact Or.inr (Or.inl ⟨l, hl, by
              rw [← Except.ok.inj hstep, heq]⟩)
          · exact Or.inr (Or.inl ⟨k, hk, (Except.ok.inj hstep).symm⟩)
          · obtain ⟨hstatus, hlt⟩ := not_or.1 hgo
            have hsplits : Splits m' size (slot b i) :=
              ⟨hp, hmulti, hskip.symm ▸ hq, hskip.symm ▸ hsize,
                hskip.symm ▸ hstatus, hskip.symm ▸ BitVec.not_lt.1 hlt⟩
            have hblank' := hblank hsplits
            rw [hskip] at hblank'
            rw [hget _ (by decide)] at hsize hstatus hlt
            obtain ⟨segs', hhalve, hk', hpool, hleft⟩ :=
              h.pool.split hk hstatus hsize (BitVec.not_lt.1 hlt)
            have hshadow := h.split hk hhalve hpool hblank'
            refine Or.inr (Or.inr ⟨k, segs', _, hsplits, hskip, hk, hhalve, hk',
              hshadow, ?_⟩)
            rw [← Except.ok.inj hstep,
              hshadow.get hk'.mem_poolShown (by decide), hleft]

/-- What the splits of a search among payloads keep, of the memory and of the
segments, holds at its end. -/
theorem Shadowed.search {P : Bytes → Addr → Prop}
    {I : Bytes → List Segment → Prop} {size : Word} {fuel i : ℕ}
    {result : MallocResult} {m₁' : Bytes} (h : Shadowed m m' b segs lastLive)
    (hi : Current segs i) (hP : ∀ m q, P m q → BlankRightHalf m q)
    (hI : ∀ m m' segs k segs', Shadowed m m' b segs lastLive → I m' segs →
      P m' (slot b k) → Current segs k → Halve segs k segs' →
      I (OptimistOS.splitNode m' (slot b k)) segs')
    (hsplits : SplitsOnly P size m' (slot b i)) (hstart : I m' segs)
    (hloop : mallocLoop size fuel m' (slot b i) = .ok (result, m₁')) :
    ∃ m₁ segs', Shadowed m₁ m₁' b segs' lastLive ∧ I m₁' segs' ∧
      Found m₁ b segs' size result := by
  induction fuel generalizing m m' segs i with
  | zero => exact absurd hloop (by simp [mallocLoop])
  | succ fuel ih =>
      rw [mallocLoop] at hloop
      cases hstep : mallocStep m' size (slot b i) with
      | error e =>
          rw [hstep] at hloop
          exact absurd hloop (by simp [bind, Except.bind])
      | ok next =>
          rw [hstep] at hloop
          rcases h.iteration hi hstep (fun hs => hP _ _ (hsplits _ _ .refl hs))
            with ⟨found, rfl, hfound⟩ | ⟨k, hk, rfl⟩ |
              ⟨k, segs', m₁, hsplit, hskip, hk, hhalve, hk', hshadow, rfl⟩
          · obtain ⟨rfl, rfl⟩ := Prod.mk.inj (Except.ok.inj hloop)
            exact ⟨m, segs, h, hstart, hfound⟩
          · exact ih h hk (hsplits.next hstep) hstart hloop
          · have hallowed := hsplits _ _ .refl hsplit
            rw [hskip] at hallowed
            exact ih hshadow hk' (hsplits.next hstep)
              (hI _ _ _ _ _ h hstart hallowed hk hhalve) hloop

end

end OptimistOS
