import OptimistOS.Heap.BlockMoves

/-!
# The payloads of requests of one page

A block that is handed out is a loan: its owner has asked for a number of bytes,
writes any bytes to them, and gives the block back. In a run with requests of one
page at most, the payloads of the loans lie apart from each other, from the
headers that are reachable from `freeList`, and inside the pool, as long as the
heap is kept from two of its defects: a search that ends at an allocated node
lends it out twice, and a split takes over the rest of a header that a payload
may have lain on (`separated_of_loanMeets`).
-/

namespace OptimistOS

open ByteMemory ByteMemory.Code Transition

/-- A block, and the size that its owner has asked for. -/
structure Loan where
  block : Addr
  size : Word
  deriving DecidableEq, Repr

/-- The bytes that the owner has asked for. -/
def Loan.payload (x : Loan) : Set Addr := region x.block x.size.toNat

/-- The machine with the loans. A block that was lent out twice is on the list
twice. -/
structure LoanState (τ : Type) where
  machine : Machine 64 (KernelGlobals τ)
  loans : List Loan

def lentBlocks (loans : List Loan) : Set Addr := {p | ∃ x ∈ loans, x.block = p}

inductive LoanCall
  | malloc (size : Word)
  | free (block : Addr)
  | write (x : Loan)
  deriving DecidableEq, Repr

def LoanStep {τ : Type} (T : SizeTable τ) (fuel : ℕ) (s : LoanState τ) :
    LoanCall → LoanState τ → Prop
  | .malloc size, s' => ∃ heapFuel p,
      (mallocx (heapAllocator T fuel) heapFuel size).run s.machine =
        .ok p s'.machine ∧
      s'.loans = if p = 0 then s.loans else ⟨p, size⟩ :: s.loans
  | .free block, s' => (freex block).run s.machine = .ok () s'.machine ∧
      s'.loans = s.loans.filter fun x => x.block ≠ block
  | .write x, s' => x ∈ s.loans ∧ s'.loans = s.loans ∧
      s'.machine.globals = s.machine.globals ∧
      AgreeOff x.payload s.machine.mem s'.machine.mem

def LoanAllowed {τ : Type} (s : LoanState τ) : LoanCall → Prop
  | .malloc size => size.toNat + sizeofHead.toNat ≤ 4096
  | .free block => block ∈ lentBlocks s.loans
  | .write _ => True

/-- No split takes over payload bytes, and no search ends at an allocated
node. -/
def LoanSpares {τ : Type} (T : SizeTable τ) (fuel : ℕ) (s : LoanState τ) :
    LoanCall → Prop
  | .malloc size => ∀ s₁, SearchStart T fuel s.machine s₁ →
      SplitsOnly BlankRightHalf (blockSize size) s₁.mem s₁.globals.freeList ∧
        EndsOnly NotAllocated (blockSize size) s₁.mem s₁.globals.freeList
  | _ => True

/-- The conditions of a run. -/
def LoanMeets {τ : Type} (T : SizeTable τ) (fuel : ℕ) (s : LoanState τ)
    (c : LoanCall) : Prop :=
  LoanAllowed s c ∧ LoanSpares T fuel s c

/-- The payloads lie apart from each other and from the reachable headers, and
inside the 12 MB of the pool. -/
structure Separated {τ : Type} (s : LoanState τ) : Prop where
  disjoint : s.loans.Pairwise fun x y => Disjoint x.payload y.payload
  headers : ∀ x ∈ s.loans, ∀ p,
    Reachable s.machine.mem s.machine.globals.freeList p →
      Disjoint (head.recordRegion p) x.payload
  inside : ∀ x ∈ s.loans, x.payload ⊆
    region s.machine.globals.freeList (12 * 1024 * 1024)

/-- The loan has room in a block of one page at most. -/
def Loan.Fits (x : Loan) (b : Addr) (segs : List Segment) (lastLive : Bool) :
    Prop :=
  ∃ k w, (k, w) ∈ poolNodes segs lastLive ∧ x.block = slot b k + sizeofHead ∧
    64 + x.size.toNat ≤ max w.toNat 2048 ∧ w ≤ PAGE_SIZE

structure LoanPool {τ : Type} (s : LoanState τ) (m : Bytes)
    (segs : List Segment) (lastLive : Bool) : Prop where
  owned : OwnedPool s.machine (lentBlocks s.loans) m segs lastLive
  nodup : s.loans.Pairwise fun x y => x.block ≠ y.block
  fits : ∀ x ∈ s.loans, x.Fits s.machine.globals.freeList segs lastLive

/-- Nothing was asked of the heap, or its pool holds the loans. -/
def LoanInv {τ : Type} (R : UsableRegion) (mem : Bytes) (table : τ) (used : ℕ)
    (s : LoanState τ) : Prop :=
  s.loans = [] ∧ HeapBooted R mem table used ⟨s.machine, ∅⟩ ∨
    ∃ m segs lastLive, LoanPool s m segs lastLive

theorem lentBlocks_nil : lentBlocks [] = ∅ := by
  simp [lentBlocks]

theorem lentBlocks_cons (x : Loan) (loans : List Loan) :
    lentBlocks (x :: loans) = lentBlocks loans ∪ {x.block} := by
  ext p
  simp [lentBlocks, eq_comm]

theorem lentBlocks_filter (loans : List Loan) (block : Addr) :
    lentBlocks (loans.filter fun x => x.block ≠ block) =
      lentBlocks loans \ {block} := by
  ext p
  simp only [lentBlocks, List.mem_filter, decide_eq_true_eq]
  constructor
  · rintro ⟨x, ⟨hx, hne⟩, rfl⟩
    exact ⟨⟨x, hx, rfl⟩, hne⟩
  · rintro ⟨⟨x, hx, rfl⟩, hne⟩
    exact ⟨x, ⟨hx, hne⟩, rfl⟩

theorem Loan.Fits.sameRooms {x : Loan} {b : Addr} {segs segs' : List Segment}
    {lastLive : Bool} (h : x.Fits b segs lastLive)
    (hrooms : SameRooms lastLive segs segs') : x.Fits b segs' lastLive := by
  obtain ⟨k, w, hk, hblock, hroom, hpage⟩ := h
  obtain ⟨w', hk', hw'⟩ := hrooms k w hk
  refine ⟨k, w', hk', hblock, hw'.symm ▸ hroom, ?_⟩
  rw [BitVec.le_def, show (PAGE_SIZE : Word).toNat = 4096 from rfl] at hpage ⊢
  omega

section

variable {τ : Type} {s s' : LoanState τ} {m : Bytes} {segs : List Segment}
  {lastLive : Bool}

theorem LoanPool.separated (h : LoanPool s m segs lastLive) : Separated s where
  disjoint := by
    refine h.nodup.imp_of_mem fun {x y} hx hy hne => ?_
    obtain ⟨k, w, hk, hblock, hroom, -⟩ := h.fits x hx
    obtain ⟨l, v, hl, hblock', hroom', -⟩ := h.fits y hy
    rw [Loan.payload, Loan.payload, hblock, hblock']
    refine (h.owned.shadow.pool.disjoint_rooms hk hl ?_).mono
      (region_subset_room _ k hroom) (region_subset_room _ l hroom')
    rintro rfl
    exact hne (hblock.trans hblock'.symm)
  headers x hx p hp := by
    obtain ⟨k, w, hk, hblock, hroom, -⟩ := h.fits x hx
    obtain ⟨l, hl, rfl⟩ := h.owned.shadow.shown_of_reachable hp
    rw [Loan.payload, hblock]
    exact h.owned.shadow.pool.disjoint_behind hk hl hroom
  inside x hx := by
    obtain ⟨k, w, hk, hblock, hroom, -⟩ := h.fits x hx
    have hend := h.owned.shadow.pool.block_end hk
    have hle := h.owned.shadow.pool.shown_le (mem_poolShown_of_live hk)
    rw [Loan.payload, hblock, slot,
      show sizeofHead = BitVec.ofNat 64 64 from rfl, add_ofNat_add_ofNat]
    exact region_subset_of_le _ (by omega) (by decide)

theorem LoanInv.separated {R : UsableRegion} {mem : Bytes} {table : τ}
    {used : ℕ} (h : LoanInv R mem table used s) : Separated s := by
  rcases h with ⟨hnil, -⟩ | ⟨m, segs, lastLive, hpool⟩
  · rw [show s = ⟨s.machine, []⟩ from hnil ▸ rfl]
    exact ⟨List.Pairwise.nil, by simp, by simp⟩
  · exact hpool.separated

end

theorem blockSize_onePage {size : Word}
    (h : size.toNat + sizeofHead.toNat ≤ 4096) :
    size.toNat + 64 ≤ (blockSize size).toNat ∧ blockSize size ≤ PAGE_SIZE := by
  have hhead : sizeofHead.toNat = 64 := rfl
  obtain ⟨hblock, hsum⟩ := blockSize_of_lt (show
    size.toNat + sizeofHead.toNat < 2 ^ 64 by omega)
  have hpred : (size + sizeofHead - 1).toNat = size.toNat + 63 := by
    bv_omega
  have hsmear := smears_roundUpToNextPower2 (size + sizeofHead)
  have hle := BitVec.le_def.1 (hsmear.le (by decide))
  rw [hblock, BitVec.le_def, show (PAGE_SIZE : Word).toNat = 4096 from rfl]
  rcases hsmear.toNat_eq_of_lt (by omega) with ⟨-, hzero⟩ | ⟨k, -, hlow, hv⟩
  · omega
  · have hk : k < 12 := (Nat.pow_lt_pow_iff_right (a := 2) (by omega)).1
      (by omega)
    have hpow : 2 ^ (k + 1) ≤ 2 ^ 12 := Nat.pow_le_pow_right (by decide) hk
    bv_omega

section

variable {τ : Type} {T : SizeTable τ} {fuel : ℕ} {R : UsableRegion} {mem : Bytes}
  {table : τ} {used : ℕ} {s s' : LoanState τ} {c : LoanCall}
  {m : Bytes} {segs : List Segment} {lastLive : Bool}

theorem LoanInv.searchStart {s₁ : Machine 64 (KernelGlobals τ)}
    (h : LoanInv R mem table used s) (hs₁ : SearchStart T fuel s.machine s₁) :
    ∃ m segs lastLive, LoanPool
      ⟨⟨s₁.mem, { s₁.globals with mutex := 0 }⟩, s.loans⟩ m segs lastLive := by
  rcases h with ⟨hnil, hbooted⟩ | ⟨m, segs, lastLive, hpool⟩
  · obtain ⟨m, segs, lastLive, howned⟩ :=
      OwnerInv.searchStart (Or.inl hbooted) hs₁
    rw [hnil]
    exact ⟨m, segs, lastLive, lentBlocks_nil.symm ▸ howned, List.Pairwise.nil,
      by simp⟩
  · obtain rfl := hs₁.eq hpool.owned.shadow.pool.base.ne_zero
    exact ⟨m, segs, lastLive, ⟨⟨rfl, hpool.owned.state.pool,
      hpool.owned.state.live⟩, hpool.owned.shadow⟩, hpool.nodup, hpool.fits⟩

/-- A request of one page adds a loan. -/
theorem LoanPool.lends {t t' : Machine 64 (KernelGlobals τ)} {loans : List Loan}
    {size : Word} {heapFuel : ℕ} {result : MallocResult} {m₁ : Bytes} {p : Addr}
    (h : LoanPool ⟨⟨t.mem, { t.globals with mutex := 0 }⟩, loans⟩ m segs lastLive)
    (hsize : size.toNat + sizeofHead.toNat ≤ 4096)
    (hsplits : SplitsOnly BlankRightHalf (blockSize size) t.mem
      t.globals.freeList)
    (hends : EndsOnly NotAllocated (blockSize size) t.mem t.globals.freeList)
    (hloop : mallocLoop (blockSize size) heapFuel t.mem t.globals.freeList =
      .ok (result, m₁))
    (hserve : (serveRequest (.ok (result, m₁))).run t = .ok p t')
    (hrecord : p ≠ 0 → (head.get t'.mem (p - sizeofHead) .size).toNat =
      (blockSize size).toNat) :
    ∃ m' segs' lastLive', LoanPool
      ⟨t', if p = 0 then loans else ⟨p, size⟩ :: loans⟩ m' segs' lastLive' := by
  obtain ⟨hroom, hpage⟩ := blockSize_onePage hsize
  obtain ⟨m₂, segs₁, m', segs', lastLive', hrooms, -, -, hshadow, hfound, hp,
    hglobals, -, hserved, howned⟩ := h.owned.mallocx (I := fun _ => True)
      (fun _ _ hblank => hblank) (fun _ _ _ _ _ _ h _ _ _ => h) trivial hsplits
      (mergesOnly_of_le hpage _ _) hloop hserve
  have hlist : t'.globals.freeList = t.globals.freeList := by rw [hglobals]
  have hfits : ∀ x ∈ loans, x.Fits t.globals.freeList segs' lastLive' := by
    intro x hx
    obtain ⟨k, w, hk, hrest⟩ := (h.fits x hx).sameRooms hrooms
    refine ⟨k, w, ?_, hrest⟩
    rcases hserved with ⟨-, hsame⟩ | ⟨-, hadded⟩
    · rwa [hsame]
    · exact (hadded _).2 (Or.inl hk)
  refine ⟨m', segs', lastLive', ?_⟩
  by_cases hzero : p = 0
  · rw [if_pos hzero]
    rw [liveAfter, if_pos hzero] at howned
    exact ⟨howned, h.nodup, hlist.symm ▸ hfits⟩
  · rw [if_neg hzero]
    rw [liveAfter, if_neg hzero] at howned
    refine ⟨(lentBlocks_cons _ _).symm ▸ howned, List.pairwise_cons.2
      ⟨fun x hx heq => ?_, h.nodup⟩, fun x hx => ?_⟩
    · obtain ⟨k, w, hk, hblock, -⟩ := (h.fits x hx).sameRooms hrooms
      refine hfound.not_live hshadow (fun q hq => ?_) hk
        (fun hnull => hzero (hp.trans hnull)) ?_
      · subst hq
        exact hends.of_mallocLoop hloop
      · exact hp.symm.trans (heq.trans hblock)
    · rw [hlist]
      rcases List.mem_cons.1 hx with rfl | hx
      · rcases hserved with ⟨hnull, -⟩ | @⟨k, w, hblock, hadded⟩
        · exact absurd hnull hzero
        · have hk := (hadded (k, w)).2 (Or.inr rfl)
          have hw := hrecord hzero
          have hget := howned.shadow.get (mem_poolShown_of_live hk) (f := .size)
            (by decide)
          rw [hblock, BitVec.add_sub_cancel, ← hlist, hget,
            (howned.shadow.pool.liveAt hk).size] at hw
          dsimp only at hw
          refine ⟨k, w, hk, hblock, ?_, ?_⟩
          · change 64 + size.toNat ≤ _
            omega
          · rw [BitVec.le_def] at hpage ⊢
            omega
      · exact hfits x hx

theorem LoanPool.givesBack {block : Addr} {t' : Machine 64 (KernelGlobals τ)}
    (h : LoanPool s m segs lastLive) (hblock : block ∈ lentBlocks s.loans)
    (hrun : (freex block).run s.machine = .ok () t') :
    ∃ m' segs' lastLive', LoanPool
      ⟨t', s.loans.filter fun x => x.block ≠ block⟩ m' segs' lastLive' := by
  obtain ⟨x, hx, rfl⟩ := hblock
  obtain ⟨k, w, hk, hblock, -, hpage⟩ := h.fits x hx
  have hblank : BlankInnerHeaders s.machine.mem
      (slot s.machine.globals.freeList k) := by
    intro i hi hlen
    rw [h.owned.shadow.get (mem_poolShown_of_live hk) (by decide),
      (h.owned.shadow.pool.liveAt hk).size] at hlen
    rw [BitVec.le_def, show (PAGE_SIZE : Word).toNat = 4096 from rfl] at hpage
    dsimp only at hlen
    omega
  rw [hblock] at hrun
  obtain ⟨m', segs', lastLive', hglobals, hnodes, howned⟩ :=
    h.owned.freex hk hblank hrun
  refine ⟨m', segs', lastLive', ?_, h.nodup.filter _, fun y hy => ?_⟩
  · rw [lentBlocks_filter, hblock]
    exact howned
  · obtain ⟨hy, hne⟩ := List.mem_filter.1 hy
    obtain ⟨l, v, hl, hblock', hrest⟩ := h.fits y hy
    rw [hglobals]
    refine ⟨l, v, (hnodes _).2 ⟨hl, ?_⟩, hblock', hrest⟩
    rintro rfl
    exact of_decide_eq_true hne (hblock'.trans hblock.symm)

theorem LoanPool.writes {x : Loan} (h : LoanPool s m segs lastLive)
    (hx : x ∈ s.loans) (hloans : s'.loans = s.loans)
    (hglobals : s'.machine.globals = s.machine.globals)
    (hm : AgreeOff x.payload s.machine.mem s'.machine.mem) :
    LoanPool s' m segs lastLive := by
  obtain ⟨k, w, hk, hblock, hroom, -⟩ := h.fits x hx
  rw [Loan.payload, hblock] at hm
  refine ⟨⟨?_, ?_⟩, hloans.symm ▸ h.nodup, ?_⟩
  · rw [hloans, hglobals]
    exact h.owned.state
  · rw [hglobals]
    exact h.owned.shadow.congr hm fun l hl =>
      h.owned.shadow.pool.disjoint_behind hk hl hroom
  · rw [hloans, hglobals]
    exact h.fits

theorem LoanInv.step (h : LoanInv R mem table used s)
    (hstep : Guarded (LoanMeets T fuel) (LoanStep T fuel) s c s') :
    LoanInv R mem table used s' := by
  obtain ⟨⟨hallowed, hspares⟩, hstep⟩ := hstep
  have hnone : ∀ {x : Loan}, x ∈ s.loans → ∃ m segs lastLive,
      LoanPool s m segs lastLive := fun hx =>
    h.resolve_left fun hbooted => absurd hx (by simp [hbooted.1])
  cases c with
  | malloc size =>
      obtain ⟨heapFuel, p, hrun, hloans⟩ := hstep
      obtain ⟨s₁, result, m₁, hs₁, hloop, hserve⟩ := mallocx_eq_ok hrun
      obtain ⟨hsplits, hends⟩ := hspares s₁ hs₁
      obtain ⟨m, segs, lastLive, hpool⟩ := h.searchStart hs₁
      obtain ⟨m', segs', lastLive', hpool'⟩ := hpool.lends hallowed hsplits hends
        hloop hserve fun hp => size_of_mallocx hrun hp
      rw [← hloans] at hpool'
      exact Or.inr ⟨m', segs', lastLive', hpool'⟩
  | free block =>
      obtain ⟨hrun, hloans⟩ := hstep
      obtain ⟨x, hx, -⟩ := id hallowed
      obtain ⟨m, segs, lastLive, hpool⟩ := hnone hx
      obtain ⟨m', segs', lastLive', hpool'⟩ := hpool.givesBack hallowed hrun
      rw [← hloans] at hpool'
      exact Or.inr ⟨m', segs', lastLive', hpool'⟩
  | write x =>
      obtain ⟨hx, hloans, hglobals, hm⟩ := hstep
      obtain ⟨m, segs, lastLive, hpool⟩ := hnone hx
      exact Or.inr ⟨m, segs, lastLive, hpool.writes hx hloans hglobals hm⟩

/-- In a run of requests of one page in which no split takes over payload bytes
and no search ends at an allocated node, the payloads always lie apart. -/
theorem separated_of_loanMeets {s₀ : LoanState τ} {cs : List LoanCall}
    (h : HeapBooted R mem table used ⟨s₀.machine, ∅⟩) (hloans : s₀.loans = [])
    (hrun : Run (Guarded (LoanMeets T fuel) (LoanStep T fuel)) s₀ cs s) :
    Separated s :=
  LoanInv.separated (hrun.invariant (LoanInv R mem table used)
    (Or.inl ⟨hloans, h⟩) fun _ _ _ hs hstep => hs.step hstep)

end

section

variable {m : Bytes} {b : Addr} {rest : List Segment} {lastLive : Bool}

/-- Behind an allocated page the loop takes the next one, also if it is
allocated. -/
theorem PoolAt.step_takeSecond {live : Bool}
    (h : PoolAt m b (.page true :: .page live :: rest) lastLive) :
    mallocStep m PAGE_SIZE b = .ok (.done (.node (page b 1))) := by
  have hne := h.page_ne_zero (j := 1) (by decide)
  have hsize : head.get m (page b 1) .size = PAGE_SIZE :=
    (h.segmentAt (j := 1) ⟨[.page true], rest, rfl, rfl⟩).node.size
  have hskip : skipAllocated m b = page b 1 :=
    (h.nodeAt_first.skipAllocated_of_live rfl rfl).trans (if_pos hne)
  rw [mallocStep_of_le h.base.ne_zero (BitVec.le_refl _), hskip, takeOrSplit,
    if_neg hne, if_pos hsize]

end

section

variable {α : Type} {A : FrameAllocator α} {s : Machine 64 (HeapGlobals α)}
  {live : Set Addr} {rest : List Segment} {lastLive : Bool} {size : Word}

theorem PoolState.takesSecond {second : Bool}
    (h : PoolState s live (.page true :: .page second :: rest) lastLive)
    (hsize : blockSize size = PAGE_SIZE) :
    ∃ s', (OptimistOS.mallocx A 1 size).run s =
        .ok (page s.globals.freeList 1 + sizeofHead) s' ∧
      s'.globals = s.globals ∧
      PoolState s' (liveAfter live (page s.globals.freeList 1 + sizeofHead))
        (.page true :: .page true :: rest) lastLive := by
  have hloop := mallocLoop_of_done h.pool.step_takeSecond 0
  rw [← hsize] at hloop
  have hpool : PoolAt s.mem s.globals.freeList
      ([.page true] ++ [.page second] ++ rest) lastLive := h.pool
  obtain ⟨hgrant, hnodes⟩ := hpool.grantLeft
  exact h.handsOut (page_eq_slot _ 1) hloop rfl hgrant hnodes

end

/-- The first request of all, for a page. -/
theorem HeapBooted.takesPage {τ : Type} (T : SizeTable τ) (fuel : ℕ)
    {R : UsableRegion} {mem : Bytes} {table : τ} {used : ℕ} {s : HeapState τ}
    (h : HeapBooted R mem table used s)
    (hroom : used + poolBytes.toNat ≤ R.length.toNat) {size : Word}
    (hsize : blockSize size = PAGE_SIZE) :
    ∃ s₁ t, SearchStart T fuel s.machine s₁ ∧
      mallocStep s₁.mem (blockSize size) s₁.globals.freeList =
        .ok (.done (.node s₁.globals.freeList)) ∧
      NotAllocated s₁.mem s₁.globals.freeList ∧
      (mallocx (heapAllocator T fuel) 1 size).run s.machine =
        .ok (t.globals.freeList + sizeofHead) t ∧
      PoolState t (liveAfter ∅ (t.globals.freeList + sizeofHead))
        (.page true :: List.replicate 3070 (.page false)) false := by
  obtain ⟨s₁, hinit, hlist, -, hfresh, -⟩ := run_initNodes T fuel
    (s := ⟨s.machine.mem, { s.machine.globals with mutex := 1 }⟩) h.frames
    h.aligned hroom
  have hstart : SearchStart T fuel s.machine s₁ := by
    rw [SearchStart, run_ensurePool_of_eq (by exact h.heap.freeList), hinit]
  have hpool : PoolAt s₁.mem s₁.globals.freeList
      (.page false :: List.replicate 3070 (.page false)) false :=
    hlist ▸ hfresh.poolAt
  have hdone := hpool.step_takePage
  rw [← hsize] at hdone
  obtain ⟨hgrant, hnodes⟩ := PoolAt.grantLeft hpool.at_first
  rw [spans_nil, page_zero] at hgrant
  refine ⟨s₁, ⟨head.set s₁.mem s₁.globals.freeList .status Flag.allocated,
    { s₁.globals with mutex := 0 }⟩, hstart, hdone,
    hpool.nodeAt_first.status_ne_allocated.2 rfl, ?_, rfl, hgrant, Served.mem_liveAfter (.block
      (congrArg (· + sizeofHead) (slot_zero _).symm) hnodes) hgrant.base
      (fun _ hx => (hgrant.liveAt hx).slot_le) fun p => ?_⟩
  · rw [run_mallocx h.heap.mutex hstart, mallocLoop_of_done hdone,
      run_serveRequest_node]
  · have hnone : poolNodes (.page false :: List.replicate 3070 (.page false))
        false = [] := by
      rw [← List.replicate_succ, poolNodes, liveNodes_replicate]
      rfl
    change p ∈ (∅ : Set Addr) ↔ ∃ k ∈ (poolNodes (.page false ::
      List.replicate 3070 (.page false)) false).map Prod.fst, _
    rw [hnone]
    simp

/-- The kernel with 16 MB before any loan. -/
def bootedLoans : LoanState HashTable := ⟨bootedHeap.machine, []⟩

/-- Two requests for a page: the second one is given the next page. -/
theorem separated_twoLoans :
    ∃ s x y, Run (LoanStep addressSizeTable 0) bootedLoans
        [.malloc 4000, .malloc 4000] s ∧
      s.loans = [x, y] ∧ x ≠ y ∧ Separated s := by
  have hbooted : HeapBooted largeRegion (fun _ => 0) HashTable.zero 0
    ⟨bootedLoans.machine, ∅⟩ := heapBooted_bootedHeap
  have hsize : blockSize 4000 = PAGE_SIZE := by decide
  have hallowed : ∀ s : LoanState HashTable, LoanAllowed s (.malloc 4000) :=
    fun _ => (by decide : (4000 : Word).toNat + sizeofHead.toNat ≤ 4096)
  obtain ⟨s₁, t₁, hstart, hdone, hunused, hrun₁, hpool₁⟩ :=
    hbooted.takesPage addressSizeTable 0 (by decide) hsize
  have hpair : PoolState t₁ (liveAfter ∅ (t₁.globals.freeList + sizeofHead))
      (.page true :: .page false :: List.replicate 3069 (.page false)) false :=
    hpool₁
  obtain ⟨t₂, hrun₂, -, -⟩ := hpair.takesSecond
    (A := heapAllocator addressSizeTable 0) hsize
  have hne₁ := slot_add_header_ne_zero hpair.pool.base (Nat.zero_le 6142)
  rw [slot_zero] at hne₁
  have hne₂ := slot_add_header_ne_zero hpair.pool.base (show 2 ≤ 6142 by decide)
  rw [← page_eq_slot _ 1] at hne₂
  have hstep₁ : LoanStep addressSizeTable 0 bootedLoans (.malloc 4000)
      ⟨t₁, [⟨t₁.globals.freeList + sizeofHead, 4000⟩]⟩ :=
    ⟨1, _, hrun₁, (if_neg hne₁).symm⟩
  have hstep₂ : LoanStep addressSizeTable 0
      ⟨t₁, [⟨t₁.globals.freeList + sizeofHead, 4000⟩]⟩ (.malloc 4000)
      ⟨t₂, [⟨page t₁.globals.freeList 1 + sizeofHead, 4000⟩,
        ⟨t₁.globals.freeList + sizeofHead, 4000⟩]⟩ :=
    ⟨1, _, hrun₂, (if_neg hne₂).symm⟩
  have hspares₁ : LoanSpares addressSizeTable 0 bootedLoans (.malloc 4000) := by
    intro u hu
    obtain ⟨-, rfl⟩ := EStateM.Result.ok.inj (hstart.symm.trans hu)
    refine ⟨splitsOnly_of_done hdone, endsOnly_of_done hdone fun q hq => ?_⟩
    obtain rfl := MallocResult.node.inj hq
    exact hunused
  have hspares₂ : LoanSpares addressSizeTable 0
      ⟨t₁, [⟨t₁.globals.freeList + sizeofHead, 4000⟩]⟩ (.malloc 4000) := by
    intro u hu
    obtain rfl := hu.eq hpair.pool.base.ne_zero
    have htakes := hpair.pool.step_takeSecond
    rw [← hsize] at htakes
    refine ⟨splitsOnly_of_done htakes, endsOnly_of_done htakes fun q hq => ?_⟩
    obtain rfl := MallocResult.node.inj hq
    exact (hpair.pool.segmentAt (j := 1)
      ⟨[.page true], _, rfl, rfl⟩).node.status_ne_allocated.2 rfl
  refine ⟨_, _, _, .snoc (.single hstep₁) hstep₂, rfl, fun heq => ?_,
    separated_of_loanMeets hbooted rfl
      (.snoc (.single ⟨⟨hallowed _, hspares₁⟩, hstep₁⟩)
        ⟨⟨hallowed _, hspares₂⟩, hstep₂⟩)⟩
  have hslots : slot t₁.globals.freeList 2 + sizeofHead =
      slot t₁.globals.freeList 0 + sizeofHead := by
    rw [slot_zero, ← page_eq_slot _ 1]
    have hblocks := congrArg Loan.block heq
    exact hblocks
  have htwo := slot_add_header_inj (by decide) (by decide) hslots
  exact absurd htwo (by decide)

theorem not_separated_of_twice {τ : Type} {s : LoanState τ} {x : Loan}
    {loans : List Loan} (h : s.loans = x :: x :: loans) (hx : 0 < x.size.toNat) :
    ¬ Separated s := by
  intro hseparated
  have hdisjoint := hseparated.disjoint
  rw [h, List.pairwise_cons] at hdisjoint
  have hmem : x.block ∈ x.payload := by
    rw [Loan.payload, mem_region, BitVec.sub_self]
    exact hx
  exact Set.disjoint_left.1 (hdisjoint.1 x List.mem_cons_self) hmem hmem

/-- Three requests for a page: the last two are given the same one. -/
theorem exists_not_separated :
    ∃ s, Run (Guarded LoanAllowed (LoanStep addressSizeTable 0)) bootedLoans
      [.malloc 4000, .malloc 4000, .malloc 4000] s ∧ ¬ Separated s := by
  have hsize : blockSize 4000 = PAGE_SIZE := by decide
  have hallowed : ∀ s : LoanState HashTable, LoanAllowed s (.malloc 4000) :=
    fun _ => (by decide : (4000 : Word).toNat + sizeofHead.toNat ≤ 4096)
  obtain ⟨-, t₁, -, -, -, hrun₁, hpool₁⟩ :=
    heapBooted_bootedHeap.takesPage addressSizeTable 0 (by decide) hsize
  obtain ⟨t₂, hrun₂, hglobals₂, hpool₂⟩ := hpool₁.takesSecond
    (A := heapAllocator addressSizeTable 0) hsize
  obtain ⟨t₃, hrun₃, -, -⟩ := hpool₂.takesSecond
    (A := heapAllocator addressSizeTable 0) hsize
  have hne := slot_add_header_ne_zero hpool₂.pool.base (show 2 ≤ 6142 by decide)
  rw [← page_eq_slot _ 1] at hne
  rw [hglobals₂] at hrun₃ hne
  have hstep₁ : LoanStep addressSizeTable 0 bootedLoans (.malloc 4000)
      ⟨t₁, if t₁.globals.freeList + sizeofHead = 0 then bootedLoans.loans
        else ⟨t₁.globals.freeList + sizeofHead, 4000⟩ :: bootedLoans.loans⟩ :=
    ⟨1, _, hrun₁, rfl⟩
  have hstep₂ : ∀ loans, LoanStep addressSizeTable 0 ⟨t₁, loans⟩
      (.malloc 4000)
      ⟨t₂, ⟨page t₁.globals.freeList 1 + sizeofHead, 4000⟩ :: loans⟩ :=
    fun _ => ⟨1, _, hrun₂, (if_neg hne).symm⟩
  have hstep₃ : ∀ loans, LoanStep addressSizeTable 0 ⟨t₂, loans⟩
      (.malloc 4000)
      ⟨t₃, ⟨page t₁.globals.freeList 1 + sizeofHead, 4000⟩ :: loans⟩ :=
    fun _ => ⟨1, _, hrun₃, (if_neg hne).symm⟩
  exact ⟨_, .snoc (.snoc (.single ⟨hallowed _, hstep₁⟩)
    ⟨hallowed _, hstep₂ _⟩) ⟨hallowed _, hstep₃ _⟩,
    not_separated_of_twice rfl (by decide : 0 < (4000 : Word).toNat)⟩

end OptimistOS
