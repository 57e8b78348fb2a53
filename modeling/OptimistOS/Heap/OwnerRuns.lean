import OptimistOS.Heap.PayloadCalls

/-!
# Runs of the heap and of the owners of its blocks

Next to the calls of the heap, the owner of a block writes any bytes to its
payload. `OwnerInv` is the invariant of the runs that keep the heap from two of
its defects: a split takes over the rest of a header that payloads may lie on,
and `freex` leaves members of the headers that it makes inside a block as they
are. The memory without payloads, which the invariant speaks about, is that of
a run in which nobody writes.
-/

namespace OptimistOS

open ByteMemory ByteMemory.Code Transition

inductive OwnerCall
  | malloc (size : Word)
  | free (block : Addr)
  | write (block : Addr)
  deriving DecidableEq, Repr

def OwnerStep {τ : Type} (T : SizeTable τ) (fuel : ℕ) (s : HeapState τ) :
    OwnerCall → HeapState τ → Prop
  | .malloc size, s' => HeapStep T fuel s (.malloc size) s'
  | .free block, s' => HeapStep T fuel s (.free block) s'
  | .write block, s' => block ∈ s.live ∧ s'.live = s.live ∧
      s'.machine.globals = s.machine.globals ∧
      AgreeOff (payload s.machine.mem block) s.machine.mem s'.machine.mem

/-- No split takes over payload bytes, only whole pages are merged, and a block
that is given back is one that is handed out, with blank inner headers. -/
def OwnerMeets {τ : Type} (T : SizeTable τ) (fuel : ℕ) (s : HeapState τ) :
    OwnerCall → Prop
  | .malloc size => CallMeets T fuel (fun _ => BlankRightHalf) s (.malloc size)
  | .free block => block ∈ s.live ∧
      BlankInnerHeaders s.machine.mem (block - sizeofHead)
  | .write _ => True

structure OwnedPool {α : Type} (s : Machine 64 (HeapGlobals α))
    (live : Set Addr) (m : Bytes) (segs : List Segment) (lastLive : Bool) :
    Prop where
  state : PoolState ⟨m, s.globals⟩ live segs lastLive
  shadow : Shadowed m s.mem s.globals.freeList segs lastLive

/-- Nothing was asked of the heap, or its pool is one among payloads. -/
def OwnerInv {τ : Type} (R : UsableRegion) (mem : Bytes) (table : τ) (used : ℕ)
    (s : HeapState τ) : Prop :=
  HeapBooted R mem table used s ∨
    ∃ m segs lastLive, OwnedPool s.machine s.live m segs lastLive

theorem Shadowed.refl {m : Bytes} {b : Addr} {segs : List Segment}
    {lastLive : Bool} (h : PoolAt m b segs lastLive) (hback : Backlinks m b) :
    Shadowed m m b segs lastLive := by
  refine ⟨h, hback, .refl ?_ m⟩
  rintro x ⟨k, hk, hx, -⟩
  exact hx ▸ slot_mem_slots b (le_trans (h.shown_le hk) (by omega))

section

variable {α : Type} {s s' : Machine 64 (HeapGlobals α)} {live : Set Addr}
  {m : Bytes} {segs : List Segment} {lastLive : Bool}

theorem OwnedPool.get_size (h : OwnedPool s live m segs lastLive) {k : ℕ}
    {w : Word} (hk : (k, w) ∈ poolNodes segs lastLive) :
    head.get s.mem (slot s.globals.freeList k) .size = w :=
  (h.shadow.get (mem_poolShown_of_live hk) (by decide)).trans
    (h.shadow.pool.liveAt hk).size

theorem OwnedPool.get_status (h : OwnedPool s live m segs lastLive) {k : ℕ}
    {w : Word} (hk : (k, w) ∈ poolNodes segs lastLive) :
    head.get s.mem (slot s.globals.freeList k) .status = Flag.allocated :=
  (h.shadow.get (mem_poolShown_of_live hk) (by decide)).trans
    (h.shadow.pool.liveAt hk).status

/-- A request is answered from a pool among payloads. The search keeps the rooms
of the blocks, and what its splits keep of the segments; it writes to headers
that the heap reads. -/
theorem OwnedPool.mallocx {P : Bytes → Addr → Prop} {I : List Segment → Prop}
    {size : Word} {fuel : ℕ} {result : MallocResult} {m₁ : Bytes} {p : Addr}
    (h : OwnedPool ⟨s.mem, { s.globals with mutex := 0 }⟩ live m segs lastLive)
    (hP : ∀ m q, P m q → BlankRightHalf m q)
    (hI : ∀ m m' segs k segs', Shadowed m m' s.globals.freeList segs lastLive →
      I segs → P m' (slot s.globals.freeList k) → Current segs k →
      Halve segs k segs' → I segs')
    (hstart : I segs) (hsplits : SplitsOnly P size s.mem s.globals.freeList)
    (hmerges : MergesOnly WholePages size s.mem s.globals.freeList)
    (hloop : mallocLoop size fuel s.mem s.globals.freeList = .ok (result, m₁))
    (hserve : (serveRequest (.ok (result, m₁))).run s = .ok p s') :
    ∃ m₂ segs₁ m' segs' lastLive', SameRooms lastLive segs segs₁ ∧ I segs₁ ∧
      AgreeOff (shownHeaders s.globals.freeList segs₁) s.mem m₁ ∧
      Shadowed m₂ m₁ s.globals.freeList segs₁ lastLive ∧
      Found m₂ s.globals.freeList segs₁ size result ∧ p = result.answer ∧
      s'.globals = { s.globals with mutex := 0 } ∧
      AgreeOff (head.recordRegion (p - sizeofHead)) m₁ s'.mem ∧
      Served s.globals.freeList (poolNodes segs₁ lastLive)
        (poolNodes segs' lastLive') p ∧
      OwnedPool s' (liveAfter live p) m' segs' lastLive' := by
  have hfirst : slot s.globals.freeList 0 = s.globals.freeList :=
    BitVec.add_zero _
  obtain ⟨m₂, segs₁, hshadow, ⟨hI₁, hslots, hrooms, hwritten⟩, hfound⟩ :=
    h.shadow.search
    (I := fun m' segs' => I segs' ∧ (liveNodes 0 segs').map Prod.fst =
      (liveNodes 0 segs).map Prod.fst ∧ SameRooms lastLive segs segs' ∧
      AgreeOff (shownHeaders s.globals.freeList segs') s.mem m')
    h.shadow.pool.current_first hP
    (fun m m' segs₂ k segs' hshadow ⟨hI₂, hslots, hrooms, hwritten⟩ hsplit hk
        hhalve => ⟨hI m m' segs₂ k segs' hshadow hI₂ hsplit hk hhalve,
      hhalve.slots_eq.trans hslots,
      hrooms.trans (hhalve.sameRooms hshadow.pool),
      hshadow.agreeOff_split hk hhalve hwritten⟩)
    (hfirst.symm ▸ hsplits) ⟨hstart, rfl, .refl _ _, .refl _ _⟩
    (hfirst.symm ▸ hloop)
  obtain ⟨s₁, m', segs', lastLive', hrun, hglobals, hshadow', hserved, hm⟩ :=
    hshadow.serve s hfound (hmerges.of_mallocLoop hloop)
  obtain ⟨rfl, rfl⟩ := EStateM.Result.ok.inj (hrun.symm.trans hserve)
  have hlive : ∀ q, q ∈ live ↔ ∃ k ∈ poolSlots segs₁ lastLive,
      q = slot s.globals.freeList k + sizeofHead := by
    rw [poolSlots, poolNodes, List.map_append, hslots, ← List.map_append]
    exact h.state.live
  refine ⟨m₂, segs₁, m', segs', lastLive', hrooms, hI₁, hwritten, hshadow,
    hfound, rfl, hglobals, hm, hserved, ⟨?_, ?_, ?_⟩, ?_⟩
  · exact congrArg HeapGlobals.mutex hglobals
  · rw [hglobals]
    exact hshadow'.pool
  · rw [hglobals]
    exact hserved.mem_liveAfter hshadow'.pool.base
      (fun x hx => (hshadow'.pool.liveAt hx).slot_le) hlive
  · rw [hglobals]
    exact hshadow'

theorem OwnedPool.freex (h : OwnedPool s live m segs lastLive) {k : ℕ} {w : Word}
    (hk : (k, w) ∈ poolNodes segs lastLive)
    (hblank : BlankInnerHeaders s.mem (slot s.globals.freeList k))
    (hrun : (OptimistOS.freex (slot s.globals.freeList k + sizeofHead)).run s =
      .ok () s') :
    ∃ m' segs' lastLive', s'.globals = s.globals ∧
      (∀ x, x ∈ poolNodes segs' lastLive' ↔
        x ∈ poolNodes segs lastLive ∧ x.1 ≠ k) ∧
      OwnedPool s' (live \ {slot s.globals.freeList k + sizeofHead}) m' segs'
        lastLive' := by
  obtain ⟨segs', lastLive', hshadow, hnodes⟩ := h.shadow.free hk hblank
  obtain ⟨-, hstate⟩ := h.state.givesBack hk hshadow.pool hnodes
  rw [run_freex (s := s) _ h.state.mutex, BitVec.add_sub_cancel] at hrun
  obtain ⟨-, rfl⟩ := EStateM.Result.ok.inj hrun
  exact ⟨_, segs', lastLive', rfl, hnodes, hstate, hshadow⟩

theorem OwnedPool.write (h : OwnedPool s live m segs lastLive) {block : Addr}
    (hblock : block ∈ live) (hglobals : s'.globals = s.globals)
    (hm : AgreeOff (payload s.mem block) s.mem s'.mem) :
    OwnedPool s' live m segs lastLive := by
  obtain ⟨k, w, hk, rfl⟩ := h.state.exists_of_mem hblock
  refine ⟨hglobals.symm ▸ h.state, ?_⟩
  rw [hglobals]
  exact h.shadow.write hk hm

end

section

variable {τ : Type} {T : SizeTable τ} {fuel : ℕ} {R : UsableRegion} {mem : Bytes}
  {table : τ} {used : ℕ}

theorem OwnerInv.searchStart {s : HeapState τ}
    {s₁ : Machine 64 (KernelGlobals τ)} (h : OwnerInv R mem table used s)
    (hs₁ : SearchStart T fuel s.machine s₁) :
    ∃ m segs lastLive, OwnedPool ⟨s₁.mem, { s₁.globals with mutex := 0 }⟩
      s.live m segs lastLive := by
  rcases h with hbooted | ⟨m, segs, lastLive, hpool⟩
  · have hlist := hbooted.heap.freeList
    have hroom := room_of_ensurePool (s := ⟨s.machine.mem,
      { s.machine.globals with mutex := 1 }⟩) hlist hbooted.frames hs₁
    obtain ⟨t, hrun, ht, -, hfresh, -⟩ := run_initNodes T fuel
      (s := ⟨s.machine.mem, { s.machine.globals with mutex := 1 }⟩)
      hbooted.frames hbooted.aligned hroom
    obtain ⟨m₀, hm₀⟩ := initNodes_eq_ok hrun
    rw [SearchStart, run_ensurePool_of_eq (by exact hlist), hrun] at hs₁
    obtain ⟨-, rfl⟩ := EStateM.Result.ok.inj hs₁
    rw [← ht] at hfresh
    have hback : Backlinks t.mem t.globals.freeList := by
      rw [hm₀] at hfresh ⊢
      exact hfresh.backlinks
    refine ⟨t.mem, _, false, ⟨rfl, hfresh.poolAt, fun p => ?_⟩,
      .refl hfresh.poolAt hback⟩
    rw [hbooted.live, poolSlots, poolNodes, liveNodes_replicate]
    simp
  · have hne := hpool.shadow.pool.base.ne_zero
    obtain rfl := hs₁.eq hne
    exact ⟨m, segs, lastLive, ⟨rfl, hpool.state.pool, hpool.state.live⟩,
      hpool.shadow⟩

/-- A step keeps the invariant. -/
theorem OwnerInv.step {s s' : HeapState τ} {c : OwnerCall}
    (h : OwnerInv R mem table used s)
    (hstep : Guarded (OwnerMeets T fuel) (OwnerStep T fuel) s c s') :
    OwnerInv R mem table used s' := by
  obtain ⟨hguard, hstep⟩ := hstep
  cases c with
  | malloc size =>
      obtain ⟨heapFuel, p, hrun, hlive⟩ := hstep
      obtain ⟨s₁, result, m₁, hs₁, hloop, hserve⟩ := mallocx_eq_ok hrun
      obtain ⟨hsplits, hmerges⟩ := hguard s₁ hs₁
      obtain ⟨m, segs, lastLive, hpool⟩ := h.searchStart hs₁
      obtain ⟨-, -, m', segs', lastLive', -, -, -, -, -, -, -, -, -, hpool'⟩ :=
        hpool.mallocx (fun _ _ hblank => hblank) (fun _ _ _ _ _ _ h _ _ _ => h)
          (I := fun _ => True) trivial hsplits hmerges hloop hserve
      exact Or.inr ⟨m', segs', lastLive', hlive ▸ hpool'⟩
  | free block =>
      obtain ⟨hrun, hlive⟩ := hstep
      obtain ⟨hblock, hblank⟩ := hguard
      rcases h with hbooted | ⟨m, segs, lastLive, hpool⟩
      · exact absurd hblock (by simp [hbooted.live])
      · obtain ⟨k, w, hk, rfl⟩ := hpool.state.exists_of_mem hblock
        obtain ⟨m', segs', lastLive', -, -, hpool'⟩ := hpool.freex hk
          (by rwa [BitVec.add_sub_cancel] at hblank) hrun
        exact Or.inr ⟨m', segs', lastLive', hlive ▸ hpool'⟩
  | write block =>
      obtain ⟨hblock, hlive, hglobals, hm⟩ := hstep
      rcases h with hbooted | ⟨m, segs, lastLive, hpool⟩
      · exact absurd hblock (by simp [hbooted.live])
      · exact Or.inr ⟨m, segs, lastLive,
          hlive ▸ hpool.write hblock hglobals hm⟩

theorem OwnerInv.run {s₀ s : HeapState τ} {cs : List OwnerCall}
    (h : HeapBooted R mem table used s₀)
    (hrun : Run (Guarded (OwnerMeets T fuel) (OwnerStep T fuel)) s₀ cs s) :
    OwnerInv R mem table used s :=
  hrun.invariant (OwnerInv R mem table used) (Or.inl h) fun _ _ _ hs hstep =>
    hs.step hstep

end

end OptimistOS
