import OptimistOS.Heap.BlockMoves
import OptimistOS.Heap.FreedBlocks
import OptimistOS.Heap.LiveHeaders
import OptimistOS.Heap.LockDiscipline
import OptimistOS.Heap.RecordedSizes

/-!
# Blocks of another size

`reallocx` compares sizes that include the header with sizes that do not. A block
is kept when its size, header included, is the new size rounded up, and the
header of a block that was moved records the new size rounded up, also when
there is no room for the header in it; a block that is merged with its buddy is
returned with the address in front of its header. Locking aside, a call does
what its name says for blocks that are kept or moved and have room for the
header as well (`reallocates_of_moves`).
-/

namespace OptimistOS

open ByteMemory ByteMemory.Code Transition

def reallocxUnlocked {α : Type} (A : FrameAllocator α) (fuel : ℕ) (block : Addr)
    (size : Word) : Code 64 (HeapGlobals α) Addr := do
  let s ← get
  let roundedSize := roundUpToNextPower2 size
  let node := block - sizeofHead
  let buddyNode := node ^^^ head.get s.mem node .size
  if roundedSize = head.get s.mem node .size then
    return block
  else if head.get s.mem node .size * 2 ≤ roundedSize ∨
      head.get s.mem buddyNode .status = Flag.allocated then
    let newNode ← mallocx A fuel size
    if newNode = 0 then
      modifyMem fun m => takeBuddy m node buddyNode
      return node - sizeofHead
    else
      modifyMem fun m => moveBlock m newNode block roundedSize
      freex block
      return newNode
  else
    modifyMem fun m => takeBuddy m node buddyNode
    return node - sizeofHead

inductive BlockCall
  | owner (c : OwnerCall)
  | realloc (block : Addr) (size : Word)
  deriving DecidableEq, Repr

def BlockStep {τ : Type} (T : SizeTable τ) (fuel : ℕ) (s : HeapState τ) :
    BlockCall → HeapState τ → Prop
  | .owner c, s' => OwnerStep T fuel s c s'
  | .realloc block size, s' => ∃ heapFuel p,
      (reallocxUnlocked (heapAllocator T fuel) heapFuel block size).run
        s.machine = .ok p s'.machine ∧
      s'.live = if p = 0 then s.live else s.live \ {block} ∪ {p}

/-- The block is as it was: allocated or not, of the same size, and with the
same payload. -/
structure SameBlock (m m' : Bytes) (block : Addr) : Prop where
  status : head.get m' (block - sizeofHead) .status =
    head.get m (block - sizeofHead) .status
  size : head.get m' (block - sizeofHead) .size =
    head.get m (block - sizeofHead) .size
  payload : ∀ x ∈ payload m block, m' x = m x

def payloadSize (m : Bytes) (block : Addr) : ℕ :=
  (head.get m (block - sizeofHead) .size).toNat - sizeofHead.toNat

/-- `p` is an allocated block with `size` bytes, which begin with those of
`block`, and `block` is freed if it is another one. -/
structure HoldsOld (m m' : Bytes) (block : Addr) (size : Word) (p : Addr) :
    Prop where
  live : head.get m' (p - sizeofHead) .status = Flag.allocated
  room : size.toNat ≤ payloadSize m' p
  bytes : ∀ i < min (payloadSize m block) size.toNat,
    m' (p + BitVec.ofNat 64 i) = m (block + BitVec.ofNat 64 i)
  freed : p ≠ block →
    head.get m' (block - sizeofHead) .status ≠ Flag.allocated

/-- A call of `reallocx` returns: the null pointer, and the block is as it was,
or a block that holds the old bytes. No other live block is changed. -/
def Reallocates {τ : Type} (T : SizeTable τ) (fuel : ℕ) (s : HeapState τ)
    (block : Addr) (size : Word) : Prop :=
  ∃ heapFuel p s', (reallocxUnlocked (heapAllocator T fuel) heapFuel block
      size).run s.machine = .ok p s' ∧
    (p = 0 ∧ SameBlock s.machine.mem s'.mem block ∨
      p ≠ 0 ∧ HoldsOld s.machine.mem s'.mem block size p) ∧
    ∀ other ∈ s.live, other ≠ block →
      other ≠ p ∧ SameBlock s.machine.mem s'.mem other

/-- The block is kept, and has room for the header as well. -/
def KeepsRoom (m : Bytes) (block : Addr) (size : Word) : Prop :=
  roundUpToNextPower2 size = head.get m (block - sizeofHead) .size ∧
    size.toNat + sizeofHead.toNat ≤
      (head.get m (block - sizeofHead) .size).toNat

/-- The block is moved to one that has room for the header and for all that is
copied. `mallocx` grants the request, splits no page with payload bytes where
the header of the right half is going to be nor next to a live right half, only
puts whole pages together, and hands out no block again. -/
structure MovesRoom {τ : Type} (T : SizeTable τ) (fuel : ℕ) (s : HeapState τ)
    (block : Addr) (size : Word) : Prop where
  moves : MovesBlock s.machine.mem block size
  header : sizeofHead.toNat ≤
    (head.get s.machine.mem (block - sizeofHead) .size).toNat
  room : size.toNat + sizeofHead.toNat ≤ (roundUpToNextPower2 size).toNat
  copy : (head.get s.machine.mem (block - sizeofHead) .size).toNat ≤
    max (roundUpToNextPower2 size).toNat 2048
  grants : ∃ heapFuel p t, (mallocx (heapAllocator T fuel) heapFuel size).run
    s.machine = .ok p t ∧ p ≠ 0
  search : ∀ s₁, SearchStart T fuel s.machine s₁ →
    SplitsOnly (fun m q => BlankRightHalf m q ∧ SparesRightHalf s.live m q)
        (blockSize size) s₁.mem s₁.globals.freeList ∧
      MergesOnly WholePages (blockSize size) s₁.mem s₁.globals.freeList ∧
      EndsOnly NotAllocated (blockSize size) s₁.mem s₁.globals.freeList

/-- The conditions of a run. -/
def BlockMeets {τ : Type} (T : SizeTable τ) (fuel : ℕ) (s : HeapState τ) :
    BlockCall → Prop
  | .owner c => OwnerMeets T fuel s c
  | .realloc block size => block ∈ s.live ∧ size.toNat ≤ 16320 ∧
      (KeepsRoom s.machine.mem block size ∨
        MovesRoom T fuel s block size ∧
          BlankInnerHeaders s.machine.mem (block - sizeofHead))

theorem SameBlock.refl (m : Bytes) (block : Addr) : SameBlock m m block :=
  ⟨rfl, rfl, fun _ _ => rfl⟩

theorem SameBlock.trans {m m' m'' : Bytes} {block : Addr}
    (h : SameBlock m m' block) (h' : SameBlock m' m'' block) :
    SameBlock m m'' block := by
  refine ⟨h'.status.trans h.status, h'.size.trans h.size, fun x hx => ?_⟩
  rw [h'.payload x (by rwa [OptimistOS.payload, h.size]), h.payload x hx]

theorem SameBlock.of_agreeOff {m m' : Bytes} {b : Addr} {k : ℕ} {w : Word}
    {F : Set Addr} (h : AgreeOff F m m') (hF : Disjoint (room b k w) F)
    (hw : head.get m (slot b k) .size = w) :
    SameBlock m m' (slot b k + sizeofHead) := by
  have hget : ∀ f, head.get m' (slot b k + sizeofHead - sizeofHead) f =
      head.get m (slot b k + sizeofHead - sizeofHead) f := by
    rw [BitVec.add_sub_cancel]
    exact fun f => head.get_congr h _ f
      (hF.mono_left (record_subset_room b k w))
  have hhead : sizeofHead.toNat = 64 := rfl
  refine ⟨hget _, hget _, fun x hx => (h x ?_).symm⟩
  rw [OptimistOS.payload, BitVec.add_sub_cancel, hw, hhead] at hx
  exact Set.disjoint_left.1 hF (region_subset_room b k (by omega) hx)

theorem BlankInnerHeaders.congr {m m' : Bytes} {node : Addr}
    (h : BlankInnerHeaders m node)
    (hsize : head.get m' node .size = head.get m node .size)
    (hsame : ∀ x ∈ region (node + sizeofHead)
      ((head.get m node .size).toNat - 64), m' x = m x) :
    BlankInnerHeaders m' node := by
  intro i hi hlen f hf
  rw [hsize] at hlen
  have hlt := (head.get m node .size).isLt
  rw [← h i hi hlen f hf]
  refine head.get_congr (s := (region (node + sizeofHead)
    ((head.get m node .size).toNat - 64))ᶜ)
    (fun x hx => (hsame x (not_not.1 hx)).symm) _ _ ?_
  rw [Set.disjoint_compl_right_iff_subset,
    show page node i = node + sizeofHead + BitVec.ofNat 64 (4096 * i - 64) by
      rw [page, show sizeofHead = BitVec.ofNat 64 64 from rfl,
        add_ofNat_add_ofNat, show 64 + (4096 * i - 64) = 4096 * i by omega]]
  exact region_subset_of_le _ (n := 64) (by omega) (by omega)

section

variable {α : Type} {A : FrameAllocator α} {s t u : Machine 64 (HeapGlobals α)}
  {block p : Addr} {size : Word} {heapFuel : ℕ}

theorem run_reallocxUnlocked_keep
    (h : roundUpToNextPower2 size = head.get s.mem (block - sizeofHead) .size) :
    (reallocxUnlocked A heapFuel block size).run s = .ok block s := by
  rw [reallocxUnlocked, run_bind_of_ok (EStateM.run_get _)]
  dsimp only
  rw [if_pos h]
  rfl

/-- With the lock free, `reallocx` does the same as without it, but for blocks
that are moved: there `mallocx` waits for the lock. -/
theorem run_reallocx (hmutex : s.globals.mutex = 0)
    (h : ¬ MovesBlock s.mem block size) :
    (reallocx A heapFuel block size).run s =
      (reallocxUnlocked A heapFuel block size).run s := by
  obtain ⟨m, freeList, mutex, frames⟩ := s
  obtain rfl : mutex = 0 := hmutex
  rw [reallocx, lockHeap, run_bind_of_ok (run_lock_of_free rfl),
    run_bind_of_ok (EStateM.run_get _), reallocxUnlocked,
    run_bind_of_ok (EStateM.run_get _)]
  dsimp only
  by_cases hsame : roundUpToNextPower2 size =
      head.get m (block - sizeofHead) .size
  · rw [if_pos hsame, if_pos hsame]
    rfl
  · have hmove := fun hmove => h ⟨hsame, hmove⟩
    rw [if_neg hsame, if_neg hsame, if_neg hmove, if_neg hmove]
    rfl

theorem run_reallocxUnlocked_move (h : MovesBlock s.mem block size)
    (hcall : (mallocx A heapFuel size).run s = .ok p t) (hp : p ≠ 0)
    (hfree : (freex block).run ⟨moveBlock t.mem p block
      (roundUpToNextPower2 size), t.globals⟩ = .ok () u) :
    (reallocxUnlocked A heapFuel block size).run s = .ok p u := by
  rw [reallocxUnlocked, run_bind_of_ok (EStateM.run_get _)]
  dsimp only
  rw [if_neg h.1, if_pos h.2, run_bind_of_ok hcall]
  simp only [if_neg hp]
  rw [run_bind_of_ok (run_modifyMem _ _), run_bind_of_ok hfree]
  rfl

theorem mallocx_unique {fuel fuel' : ℕ} {q : Addr}
    (h : (mallocx A fuel size).run s = .ok p t)
    (h' : (mallocx A fuel' size).run s = .ok q u) : p = q ∧ t = u := by
  obtain ⟨s₁, result, m, hs₁, hloop, hserve⟩ := mallocx_eq_ok h
  obtain ⟨s₂, result', m', hs₂, hloop', hserve'⟩ := mallocx_eq_ok h'
  obtain ⟨-, rfl⟩ := EStateM.Result.ok.inj (hs₁.symm.trans hs₂)
  have hsame := (mallocLoop_add hloop fuel').symm.trans
    (Nat.add_comm fuel fuel' ▸ mallocLoop_add hloop' fuel)
  obtain ⟨rfl, rfl⟩ := Prod.mk.inj (Except.ok.inj hsame)
  exact EStateM.Result.ok.inj (hserve.symm.trans hserve')

theorem reallocxUnlocked_unique {fuel fuel' : ℕ} {q : Addr}
    (hmoves : MovesBlock s.mem block size)
    (h : (reallocxUnlocked A fuel block size).run s = .ok p t)
    (h' : (reallocxUnlocked A fuel' block size).run s = .ok q u) :
    p = q ∧ t = u := by
  rw [reallocxUnlocked, run_bind_of_ok (EStateM.run_get _)] at h h'
  dsimp only at h h'
  rw [if_neg hmoves.1, if_pos hmoves.2] at h h'
  obtain ⟨x, v, hcall, h⟩ := run_bind_eq_ok.1 h
  obtain ⟨y, v', hcall', h'⟩ := run_bind_eq_ok.1 h'
  obtain ⟨rfl, rfl⟩ := mallocx_unique hcall hcall'
  exact EStateM.Result.ok.inj (h.symm.trans h')

end

theorem exists_pow_roundUp {x : Word} (hx : 1 < x.toNat)
    (hmax : x.toNat ≤ 16384) :
    ∃ k, (roundUpToNextPower2 x).toNat = 2 ^ (k + 1) ∧ 2 ^ k < x.toNat ∧
      x.toNat ≤ 2 ^ (k + 1) := by
  have hsmear := smears_roundUpToNextPower2 x
  have hle := BitVec.le_def.1 (hsmear.le (by decide))
  have hpred : (x - 1).toNat = x.toNat - 1 := by bv_omega
  rcases hsmear.toNat_eq_of_lt (by omega) with ⟨-, hzero⟩ | ⟨k, hk, hlow, hv⟩
  · omega
  · have hbound : 2 ^ (k + 1) ≤ 2 ^ 32 := Nat.pow_le_pow_right (by decide) hk
    have hpos := Nat.two_pow_pos (k + 1)
    exact ⟨k, by bv_omega, by omega, by omega⟩

theorem blockSize_of_room {size : Word} (hmax : size.toNat ≤ 16320)
    (h : size.toNat + sizeofHead.toNat ≤ (roundUpToNextPower2 size).toNat) :
    blockSize size = roundUpToNextPower2 size := by
  have hhead : sizeofHead.toNat = 64 := rfl
  obtain ⟨hblock, hsum⟩ := blockSize_of_lt (show
    size.toNat + sizeofHead.toNat < 2 ^ 64 by omega)
  have hmin : 1 < size.toNat := by
    by_contra hsmall
    have hcases : size = 0 ∨ size = 1 := by bv_omega
    rcases hcases with rfl | rfl <;> exact absurd h (by decide)
  obtain ⟨i, hi, hilow, hihigh⟩ := exists_pow_roundUp hmin (by omega)
  obtain ⟨j, hj, hjlow, hjhigh⟩ :=
    exists_pow_roundUp (x := size + sizeofHead) (by omega) (by omega)
  have hij : i < j + 1 := (Nat.pow_lt_pow_iff_right (a := 2) (by decide)).1
    (by omega)
  have hji : j < i + 1 := (Nat.pow_lt_pow_iff_right (a := 2) (by decide)).1
    (by omega)
  obtain rfl : i = j := by omega
  rw [hblock]
  exact BitVec.eq_of_toNat_eq (hj.trans hi.symm)

section

variable {τ : Type} {T : SizeTable τ} {fuel : ℕ} {s : HeapState τ}
  {block : Addr} {size : Word} {m : Bytes} {segs : List Segment}
  {lastLive : Bool}

/-- What the request of a move does: the new block is none of the blocks that
are handed out, they keep their nodes, and the bytes behind their headers. -/
theorem OwnedPool.grantsRoom (h : OwnedPool s.machine s.live m segs lastLive)
    (hmax : size.toNat ≤ 16320) (hmoves : MovesRoom T fuel s block size) :
    ∃ heapFuel l t m' segs' lastLive',
      (OptimistOS.mallocx (heapAllocator T fuel) heapFuel size).run s.machine =
        .ok (slot s.machine.globals.freeList l + sizeofHead) t ∧
      t.globals = s.machine.globals ∧
      slot s.machine.globals.freeList l + sizeofHead ≠ 0 ∧
      (∀ x, x ∈ poolNodes segs' lastLive' ↔ x ∈ poolNodes segs lastLive ∨
        x = (l, roundUpToNextPower2 size)) ∧
      (∀ x ∈ poolNodes segs lastLive, x.1 ≠ l) ∧
      (∀ k w n, (k, w) ∈ poolNodes segs lastLive →
        64 + n ≤ max w.toNat 2048 →
        ∀ x ∈ region (slot s.machine.globals.freeList k + sizeofHead) n,
          t.mem x = s.machine.mem x) ∧
      OwnedPool t (s.live ∪ {slot s.machine.globals.freeList l + sizeofHead})
        m' segs' lastLive' := by
  obtain ⟨heapFuel, p, t, hcall, hp⟩ := hmoves.grants
  obtain ⟨s₁, result, m₁, hs₁, hloop, hserve⟩ := mallocx_eq_ok hcall
  obtain ⟨hsplits, hmerges, hends⟩ := hmoves.search s₁ hs₁
  obtain rfl := SearchStart.eq hs₁ h.shadow.pool.base.ne_zero
  have hmutex := h.state.mutex
  set b := s.machine.globals.freeList with hb
  have hpool : OwnedPool ⟨s.machine.mem, { s.machine.globals with mutex := 0 }⟩
      s.live m segs lastLive :=
    ⟨⟨rfl, h.state.pool, h.state.live⟩, h.shadow⟩
  have hspared : ∀ m m' segs₁ i segs', Shadowed m m' b segs₁ lastLive →
      liveNodes 0 segs₁ = liveNodes 0 segs →
      BlankRightHalf m' (slot b i) ∧ SparesRightHalf s.live m' (slot b i) →
      Current segs₁ i → Halve segs₁ i segs' →
        liveNodes 0 segs' = liveNodes 0 segs := by
    intro m m' segs₁ i segs' hshadow hnodes hspares hi hhalve
    have hright := hspares.2
    rw [SparesRightHalf, hshadow.get hi.mem_poolShown (by decide)] at hright
    refine (hhalve.liveNodes_of_spares hshadow.pool (fun k hk => ?_)
      hright).trans hnodes
    rw [poolSlots, poolNodes, hnodes] at hk
    exact (h.state.live _).2 ⟨k, hk, rfl⟩
  obtain ⟨m₂, segs₁, m', segs', lastLive', -, hnodes, hwritten, hshadow, hfound,
    hanswer, hglobals, hheader, hserved, howned⟩ := hpool.mallocx
      (I := fun segs' => liveNodes 0 segs' = liveNodes 0 segs)
      (s := ⟨s.machine.mem, { s.machine.globals with mutex := 1 }⟩)
      (fun _ _ hblank => hblank.1) hspared rfl hsplits hmerges hloop hserve
  dsimp only at hwritten hshadow hfound hserved
  rw [← hb] at hwritten hshadow hfound hserved
  have hsame : poolNodes segs₁ lastLive = poolNodes segs lastLive := by
    rw [poolNodes, poolNodes, hnodes]
  have hanswer' : result.answer ≠ 0 := hanswer ▸ hp
  obtain ⟨i, hi, hslot⟩ := hfound.exists_answer hanswer'
  rcases hserved with ⟨hnull, -⟩ | @⟨l, v, rfl, hadded⟩
  · exact absurd hnull hp
  have hlist : t.globals.freeList = b := by rw [hglobals]
  have hrecord := size_of_mallocx hcall hp
  have hv : v = roundUpToNextPower2 size := by
    rw [BitVec.add_sub_cancel, ← hlist,
      howned.get_size ((hadded _).2 (Or.inr rfl))] at hrecord
    rw [← blockSize_of_room hmax hmoves.room]
    exact BitVec.eq_of_toNat_eq hrecord
  rw [hsame, hv] at hadded
  rw [liveAfter, if_neg hp] at howned
  refine ⟨heapFuel, l, t, m', segs', lastLive', hcall, ?_, hp, hadded,
    fun x hx heq => ?_, fun k w n hk hn x hx => ?_, howned⟩
  · rw [hglobals, ← hmutex]
  · refine hfound.not_live (k := x.1) (w := x.2) hshadow (fun q hq => ?_)
      (hsame ▸ hx) hanswer' (hanswer.symm.trans (by rw [heq]))
    subst hq
    exact hends.of_mallocLoop hloop
  · refine ((hwritten.trans hheader) x ?_).symm
    have hdisj := hshadow.pool.disjoint_shownHeaders (hsame.symm ▸ hk) hn
    rw [BitVec.add_sub_cancel,
      (BitVec.add_left_inj _).1 (hanswer.trans hslot)]
    rintro (hmem | hmem)
    · exact Set.disjoint_left.1 hdisj hmem hx
    · exact Set.disjoint_left.1 hdisj ⟨i, hi.mem_poolShown, hmem⟩ hx

/-- The new block holds the old bytes, before the old block is given back. -/
theorem OwnedPool.copies {k : ℕ} {w : Word}
    (h : OwnedPool s.machine s.live m segs lastLive)
    (hk : (k, w) ∈ poolNodes segs lastLive) (hmax : size.toNat ≤ 16320)
    (hmoves : MovesRoom T fuel s
      (slot s.machine.globals.freeList k + sizeofHead) size) :
    ∃ heapFuel l t m₁ m' segs' lastLive',
      (OptimistOS.mallocx (heapAllocator T fuel) heapFuel size).run s.machine =
        .ok (slot s.machine.globals.freeList l + sizeofHead) t ∧
      t.globals = s.machine.globals ∧
      slot s.machine.globals.freeList l + sizeofHead ≠ 0 ∧
      m₁ = OptimistOS.moveBlock t.mem
        (slot s.machine.globals.freeList l + sizeofHead)
        (slot s.machine.globals.freeList k + sizeofHead)
        (roundUpToNextPower2 size) ∧
      (∀ x, x ∈ poolNodes segs' lastLive' ↔ x ∈ poolNodes segs lastLive ∨
        x = (l, roundUpToNextPower2 size)) ∧
      (∀ x ∈ poolNodes segs lastLive, x.1 ≠ l) ∧
      (∀ i v n, (i, v) ∈ poolNodes segs lastLive →
        64 + n ≤ max v.toNat 2048 →
        ∀ x ∈ region (slot s.machine.globals.freeList i + sizeofHead) n,
          m₁ x = s.machine.mem x) ∧
      (∀ i < w.toNat - 64,
        m₁ (slot s.machine.globals.freeList l + sizeofHead +
            BitVec.ofNat 64 i) =
          s.machine.mem (slot s.machine.globals.freeList k + sizeofHead +
            BitVec.ofNat 64 i)) ∧
      OwnedPool ⟨m₁, t.globals⟩
        (s.live ∪ {slot s.machine.globals.freeList l + sizeofHead})
        m' segs' lastLive' := by
  obtain ⟨heapFuel, l, ⟨memory, globals⟩, m', segs', lastLive', hcall, hglobals,
    hne, hnodes, hnew, hframe, howned⟩ := h.grantsRoom hmax hmoves
  obtain rfl : globals = s.machine.globals := hglobals
  have hheader := hmoves.header
  have hcopy := hmoves.copy
  have hhead : sizeofHead.toNat = 64 := rfl
  rw [BitVec.add_sub_cancel, h.get_size hk] at hheader hcopy
  rw [hhead] at hheader
  have hlt := w.isLt
  have hk' := (hnodes _).2 (Or.inl hk)
  have hl' := (hnodes (l, roundUpToNextPower2 size)).2 (Or.inr rfl)
  obtain ⟨hwritten, hbytes, hpool⟩ := howned.moveBlock hk' hl' (hnew _ hk)
    hheader hcopy rfl
  dsimp only at hwritten hbytes hpool
  refine ⟨heapFuel, l, _, _, m', segs', lastLive', hcall, rfl, hne, rfl,
    hnodes, hnew, fun i v n hi hn x hx => ?_, fun i hi => ?_, hpool⟩
  · rw [← hframe i v n hi hn x hx]
    refine (hwritten x fun hmem => ?_).symm
    exact Set.disjoint_left.1 (howned.shadow.pool.disjoint_rooms hl'
        ((hnodes _).2 (Or.inl hi)) (hnew _ hi).symm)
      (region_subset_room _ l (by omega) hmem)
      (region_subset_room _ i hn hx)
  · rw [hbytes i hi]
    exact hframe k w (w.toNat - 64) hk (by omega) _
      (add_ofNat_mem_region _ hi (by omega))

theorem OwnedPool.sameBlock {α : Type} {s s' : Machine 64 (HeapGlobals α)}
    {live live' : Set Addr} {m m' : Bytes} {segs segs' : List Segment}
    {lastLive lastLive' : Bool} {k : ℕ} {w : Word}
    (h : OwnedPool s live m segs lastLive)
    (h' : OwnedPool s' live' m' segs' lastLive')
    (hglobals : s'.globals = s.globals)
    (hk : (k, w) ∈ poolNodes segs lastLive)
    (hk' : (k, w) ∈ poolNodes segs' lastLive')
    (hsame : ∀ x ∈ region (slot s.globals.freeList k + sizeofHead)
      (w.toNat - 64), s'.mem x = s.mem x) :
    SameBlock s.mem s'.mem (slot s.globals.freeList k + sizeofHead) := by
  have hstatus := h'.get_status hk'
  have hsize := h'.get_size hk'
  rw [hglobals] at hstatus hsize
  refine ⟨?_, ?_, fun x hx => hsame x ?_⟩
  · rw [BitVec.add_sub_cancel, hstatus, h.get_status hk]
  · rw [BitVec.add_sub_cancel, hsize, h.get_size hk]
  · rwa [payload, BitVec.add_sub_cancel, h.get_size hk] at hx

/-- A block is given back. The other blocks stay as they are, also when the
pages of this one do not become page nodes. -/
theorem OwnedPool.freesBlock {α : Type} {s : Machine 64 (HeapGlobals α)}
    {live : Set Addr} {k : ℕ} {w : Word} (h : OwnedPool s live m segs lastLive)
    (hk : (k, w) ∈ poolNodes segs lastLive) :
    ∃ m', (OptimistOS.freex (slot s.globals.freeList k + sizeofHead)).run s =
        .ok () ⟨m', s.globals⟩ ∧
      head.get m' (slot s.globals.freeList k) .status ≠ Flag.allocated ∧
      (∀ i v, (i, v) ∈ poolNodes segs lastLive → i ≠ k →
        SameBlock s.mem m' (slot s.globals.freeList i + sizeofHead)) ∧
      (BlankInnerHeaders s.mem (slot s.globals.freeList k) →
        ∃ m₁ segs' lastLive', OwnedPool ⟨m', s.globals⟩
          (live \ {slot s.globals.freeList k + sizeofHead}) m₁ segs'
          lastLive') := by
  have hrun := run_freex (s := s) (slot s.globals.freeList k + sizeofHead)
    h.state.mutex
  rw [BitVec.add_sub_cancel] at hrun
  obtain ⟨hwritten, hstatus⟩ := h.shadow.agreeOff_freeNode hk
  refine ⟨_, hrun, hstatus, fun i v hi hik => ?_, fun hblank => ?_⟩
  · exact .of_agreeOff hwritten (h.shadow.pool.disjoint_rooms hi hk hik)
      (h.get_size hi)
  · obtain ⟨m₁, segs', lastLive', -, -, hpool⟩ := h.freex hk hblank hrun
    exact ⟨m₁, segs', lastLive', hpool⟩

/-- A move of a block: the old bytes are in a new block, and the old block is
given back. -/
theorem OwnedPool.moves (h : OwnedPool s.machine s.live m segs lastLive)
    (hblock : block ∈ s.live) (hmax : size.toNat ≤ 16320)
    (hmoves : MovesRoom T fuel s block size) :
    ∃ heapFuel p u, (reallocxUnlocked (heapAllocator T fuel) heapFuel block
        size).run s.machine = .ok p u ∧ p ≠ 0 ∧
      HoldsOld s.machine.mem u.mem block size p ∧
      (∀ other ∈ s.live, other ≠ block →
        other ≠ p ∧ SameBlock s.machine.mem u.mem other) ∧
      (BlankInnerHeaders s.machine.mem (block - sizeofHead) →
        ∃ m' segs' lastLive',
          OwnedPool u (s.live \ {block} ∪ {p}) m' segs' lastLive') := by
  obtain ⟨k, w, hk, rfl⟩ := h.state.exists_of_mem hblock
  obtain ⟨heapFuel, l, t, m₁, m', segs', lastLive', hcall, hglobals, hne, hm₁,
    hnodes, hnew, hframe, hbytes, howned⟩ := h.copies hk hmax hmoves
  rw [hglobals] at howned
  have hold : ∀ {x}, x ∈ poolNodes segs lastLive →
      x ∈ poolNodes segs' lastLive' := fun hx => (hnodes _).2 (Or.inl hx)
  have hl := (hnodes (l, roundUpToNextPower2 size)).2 (Or.inr rfl)
  obtain ⟨m₂, hfree, hstatus, hothers, hpool⟩ := howned.freesBlock (hold hk)
  dsimp only at hfree hstatus hothers hpool
  have hrun := run_reallocxUnlocked_move hmoves.moves hcall hne
    (by rw [← hm₁, hglobals]; exact hfree)
  have hcopy := hothers l _ hl (hnew _ hk).symm
  have hnewStatus := howned.get_status hl
  have hnewSize := howned.get_size hl
  dsimp only at hnewStatus hnewSize
  have hhead : sizeofHead.toNat = 64 := rfl
  have hlt := w.isLt
  have hroom := hmoves.room
  have hdistinct : ∀ i v, (i, v) ∈ poolNodes segs lastLive →
      slot s.machine.globals.freeList i + sizeofHead ≠
        slot s.machine.globals.freeList l + sizeofHead := by
    intro i v hi heq
    have hle := (howned.shadow.pool.liveAt (hold hi)).slot_le
    have hle' := (howned.shadow.pool.liveAt hl).slot_le
    exact hnew _ hi (slot_inj _ (by omega) (by omega)
      ((BitVec.add_left_inj _).1 heq))
  refine ⟨heapFuel, _, _, hrun, hne, ⟨?_, ?_, fun i hi => ?_, fun _ => ?_⟩,
    fun other hmem hdiff => ?_, fun hblank => ?_⟩
  · rw [hcopy.status, BitVec.add_sub_cancel, hnewStatus]
  · rw [payloadSize, hcopy.size, BitVec.add_sub_cancel, hnewSize]
    omega
  · rw [payloadSize, BitVec.add_sub_cancel, h.get_size hk, hhead] at hi
    rw [← hbytes i (by omega)]
    refine hcopy.payload _ ?_
    rw [payload, BitVec.add_sub_cancel, hnewSize]
    exact add_ofNat_mem_region _ (by omega) (by omega)
  · rwa [BitVec.add_sub_cancel]
  · obtain ⟨i, v, hi, rfl⟩ := h.state.exists_of_mem hmem
    have hik : i ≠ k := fun heq => hdiff (by rw [heq])
    have hlt' := v.isLt
    have hkept := h.sameBlock howned rfl hi (hold hi)
      fun x hx => hframe i v (v.toNat - 64) hi (by omega) x hx
    exact ⟨hdistinct i v hi, hkept.trans (hothers i v (hold hi) hik)⟩
  · rw [BitVec.add_sub_cancel] at hblank
    have hsize := howned.get_size (hold hk)
    dsimp only at hsize
    obtain ⟨m'', segs'', lastLive'', hpool⟩ := hpool
      (hblank.congr (hsize.trans (h.get_size hk).symm) (by
        rw [h.get_size hk]
        exact hframe k w _ hk (by omega)))
    rw [Set.union_sdiff_distrib, Set.sdiff_singleton_eq_self
      (Set.mem_singleton_iff.not.2 (hdistinct k w hk))] at hpool
    exact ⟨m'', segs'', lastLive'', hpool⟩

theorem OwnedPool.reallocates (h : OwnedPool s.machine s.live m segs lastLive)
    (hblock : block ∈ s.live) (hmax : size.toNat ≤ 16320)
    (hmeets : KeepsRoom s.machine.mem block size ∨
      MovesRoom T fuel s block size) : Reallocates T fuel s block size := by
  rcases hmeets with ⟨hkeep, hroom⟩ | hmoves
  · obtain ⟨k, w, hk, rfl⟩ := h.state.exists_of_mem hblock
    have hlive := h.get_status hk
    have hle := (h.shadow.pool.liveAt hk).slot_le
    refine ⟨0, _, _, run_reallocxUnlocked_keep hkeep, Or.inr
      ⟨slot_add_header_ne_zero h.shadow.pool.base (by omega), ?_, ?_,
        fun _ _ => rfl, fun hne => absurd rfl hne⟩,
      fun other _ hne => ⟨hne, .refl _ _⟩⟩
    · rwa [BitVec.add_sub_cancel]
    · rw [payloadSize]
      omega
  · obtain ⟨heapFuel, p, u, hrun, hne, hholds, hothers, -⟩ :=
      h.moves hblock hmax hmoves
    exact ⟨heapFuel, p, u, hrun, Or.inr ⟨hne, hholds⟩, hothers⟩

variable {R : UsableRegion} {mem : Bytes} {table : τ} {used : ℕ}

theorem OwnedPool.reallocStep {s' : HeapState τ}
    (h : OwnedPool s.machine s.live m segs lastLive)
    (hmeets : BlockMeets T fuel s (.realloc block size))
    (hstep : BlockStep T fuel s (.realloc block size) s') :
    ∃ m' segs' lastLive', OwnedPool s'.machine s'.live m' segs' lastLive' := by
  obtain ⟨hblock, hmax, hmeets⟩ := hmeets
  obtain ⟨heapFuel, p, hrun, hlive⟩ := hstep
  rcases hmeets with ⟨hkeep, -⟩ | ⟨hmoves, hblank⟩
  · obtain ⟨rfl, hsame⟩ := EStateM.Result.ok.inj
      ((run_reallocxUnlocked_keep hkeep).symm.trans hrun)
    have hlive' : s'.live = s.live := by
      rw [hlive]
      split_ifs
      · rfl
      · rw [Set.sdiff_union_self, Set.union_eq_self_of_subset_right
          (Set.singleton_subset_iff.2 hblock)]
    rw [hlive', ← hsame]
    exact ⟨m, segs, lastLive, h⟩
  · obtain ⟨heapFuel', q, u, hrun', hne, -, -, hpool⟩ := h.moves hblock hmax hmoves
    obtain ⟨rfl, rfl⟩ := reallocxUnlocked_unique hmoves.moves hrun' hrun
    rw [hlive, if_neg hne]
    exact hpool hblank

theorem OwnerInv.blockStep {s' : HeapState τ} {c : BlockCall}
    (h : OwnerInv R mem table used s)
    (hstep : Guarded (BlockMeets T fuel) (BlockStep T fuel) s c s') :
    OwnerInv R mem table used s' := by
  obtain ⟨hguard, hstep⟩ := hstep
  cases c with
  | owner c => exact h.step ⟨hguard, hstep⟩
  | realloc block size =>
      rcases h with hbooted | ⟨m, segs, lastLive, hpool⟩
      · exact absurd hguard.1 (by simp [hbooted.live])
      · exact Or.inr (hpool.reallocStep hguard hstep)

/-- In a run that meets the conditions, a block that is kept or moved with room
for the header holds the bytes of the old one. -/
theorem reallocates_of_moves {s₀ : HeapState τ} {cs : List BlockCall}
    (h : HeapBooted R mem table used s₀)
    (hrun : Run (Guarded (BlockMeets T fuel) (BlockStep T fuel)) s₀ cs s)
    (hblock : block ∈ s.live) (hmax : size.toNat ≤ 16320)
    (hmeets : KeepsRoom s.machine.mem block size ∨
      MovesRoom T fuel s block size) : Reallocates T fuel s block size := by
  have hinv : OwnerInv R mem table used s :=
    hrun.invariant (OwnerInv R mem table used) (Or.inl h) fun _ _ _ hs hstep =>
      hs.blockStep hstep
  rcases hinv with hbooted | ⟨m, segs, lastLive, hpool⟩
  · exact absurd hblock (by simp [hbooted.live])
  · exact hpool.reallocates hblock hmax hmeets

end

theorem exists_pagesRun :
    ∃ s, Run (Guarded (BlockMeets addressSizeTable 0)
        (BlockStep addressSizeTable 0)) bootedHeap
        [.owner (.malloc 20000), .owner (.malloc 8000)] s ∧
      bootedBlock ∈ s.live ∧ bootedBlock ≠ 0 ∧
      head.get s.machine.mem (bootedBlock - sizeofHead) .size = 8192 ∧
      PoolState s.machine s.live
        (.run 1 :: List.replicate 3069 (.page false)) false := by
  obtain ⟨s, hrun, hfirst, hlive, hsize, hpool⟩ := exists_pagesBlock
  have hne := slot_add_header_ne_zero hpool.pool.base (Nat.zero_le 6142)
  rw [slot_zero, hfirst] at hne
  have hrun' : Run (Guarded (BlockMeets addressSizeTable 0)
      (BlockStep addressSizeTable 0)) bootedHeap
      ([.malloc 20000, .malloc 8000].map BlockCall.owner) s :=
    hrun.map BlockCall.owner fun _ _ _ hstep => hstep
  refine ⟨s, hrun', hlive ▸ Set.mem_singleton _, hne, ?_, hpool⟩
  rwa [← hfirst, BitVec.add_sub_cancel]

/-- A block of two pages is kept for a size that fills its payload, and moved for
one that fills four pages. -/
theorem reallocates_bootedBlock :
    ∃ s, Run (BlockStep addressSizeTable 0) bootedHeap
        [.owner (.malloc 20000), .owner (.malloc 8000)] s ∧
      bootedBlock ∈ s.live ∧ Reallocates addressSizeTable 0 s bootedBlock 8128 ∧
      Reallocates addressSizeTable 0 s bootedBlock 16320 := by
  obtain ⟨s, hrun, hblock, -, hsize, hpool⟩ := exists_pagesRun
  have hkeeps : KeepsRoom s.machine.mem bootedBlock 8128 := by
    rw [KeepsRoom, hsize]
    decide
  have hpages : PoolState s.machine s.live ([.run 1, .page false] ++
      List.replicate 4 (.page false) ++ List.replicate 3064 (.page false))
      false := hpool
  obtain ⟨⟨p, t, hcall, hne⟩, hsplits, hmerges, hends⟩ := hpages.passesRun
    (A := heapAllocator addressSizeTable 0) (t := 3) (by decide)
    (by decide : PAGE_SIZE < blockSize 16320) (by decide)
  have hmoves : MovesRoom addressSizeTable 0 s bootedBlock 16320 := by
    refine ⟨?_, ?_, by decide, ?_, ⟨2, p, t, hcall, hne⟩, fun u hu => ?_⟩
    · rw [MovesBlock, hsize]
      exact ⟨by decide, .inl (by decide)⟩
    · rw [hsize]
      decide
    · rw [hsize]
      decide
    · obtain rfl := hu.eq hpool.pool.base.ne_zero
      exact ⟨hsplits _, hmerges, hends⟩
  exact ⟨s, hrun.of_guarded, hblock,
    reallocates_of_moves heapBooted_bootedHeap hrun hblock (by decide)
      (.inl hkeeps),
    reallocates_of_moves heapBooted_bootedHeap hrun hblock (by decide)
      (.inr hmoves)⟩

/-- A block of two pages is kept for a size of two pages, which its payload has
no room for. -/
theorem exists_not_reallocates :
    ∃ s, Run (BlockStep addressSizeTable 0) bootedHeap
        [.owner (.malloc 20000), .owner (.malloc 8000)] s ∧
      bootedBlock ∈ s.live ∧
      ¬ Reallocates addressSizeTable 0 s bootedBlock 8192 := by
  obtain ⟨s, hrun, hblock, hne, hsize, -⟩ := exists_pagesRun
  refine ⟨s, hrun.of_guarded, hblock, ?_⟩
  rintro ⟨heapFuel, p, s', hcall, hanswer, -⟩
  have hkeep : roundUpToNextPower2 8192 =
      head.get s.machine.mem (bootedBlock - sizeofHead) .size := by
    rw [hsize]
    decide
  obtain ⟨rfl, rfl⟩ := EStateM.Result.ok.inj
    ((run_reallocxUnlocked_keep hkeep).symm.trans hcall)
  rcases hanswer with ⟨hzero, -⟩ | ⟨-, hholds⟩
  · exact hne hzero
  · have hroom := hholds.room
    rw [payloadSize, hsize] at hroom
    exact absurd hroom (by decide)

end OptimistOS
