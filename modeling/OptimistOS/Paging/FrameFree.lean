import OptimistOS.Paging.FrameRuns

/-!
# Freeing frames

With the kernel's own size table `freeFrame` never frees: `search` answers `-1`
for every key, and the call ends in `hlt` (`freeFrame_halts`).

With a correct table the frame is put in front of the list that `head` names,
but the search of `allocateFrame` starts at `freeBlock`, which keeps naming the
old head. `EntryCovered` says that every byte of the region has exactly one
owner when `allocateFrame` starts to search. It holds along the runs that free
nothing but empty frames of an exhausted region, and every other `freeFrame`
breaks it at once.
-/

namespace OptimistOS

open ByteMemory ByteMemory.Code Transition

inductive FrameOp
  | allocateFrame (requestSize : Word)
  | freeFrame (frame : Word)
  deriving DecidableEq, Repr

theorem run_toVirtualAddr_frame {τ : Type} (addr : Word) (s : FrameMachine τ) :
    ∃ a b, (toVirtualAddr addr).run s =
      .ok a { s with globals := { s.globals with bootInformation := b } } := by
  by_cases h : addr = -1
  · exact ⟨0, s.globals.bootInformation, by
      rw [toVirtualAddr, if_pos h, EStateM.run_pure]⟩
  · by_cases h0 : s.globals.bootInformation.memory.hhdmOffset = 0
    · exact ⟨addr + s.globals.globalBootInfo.memory.hhdmOffset,
        s.globals.globalBootInfo, by
          rw [run_toVirtualAddr h, if_pos h0, if_pos h0]⟩
    · exact ⟨addr + s.globals.bootInformation.memory.hhdmOffset,
        s.globals.bootInformation, by
          rw [run_toVirtualAddr h, if_neg h0, if_neg h0]⟩

theorem run_freeFrame_of_search_eq_none {τ : Type} (T : SizeTable τ)
    (s : FrameMachine τ) (frame : Word)
    (h : ∀ a, T.search s.globals.addressSizeHT a = none) :
    ∃ b, (freeFrame T frame).run s = .error .halt
      { s with globals := { s.globals with bootInformation := b } } := by
  obtain ⟨a, b, hrun⟩ := run_toVirtualAddr_frame frame s
  refine ⟨b, ?_⟩
  rw [freeFrame, run_bind_of_ok hrun]
  simp only [EStateM.run_bind, EStateM.run_get, h a, run_throw]

/-- `freeFrame` halts on every argument in every machine, with the memory, the
list and the counters as they were. -/
theorem freeFrame_halts (s : FrameMachine HashTable) (frame : Word) :
    ∃ b, (freeFrame addressSizeTable frame).run s = .error .halt
      { s with globals := { s.globals with bootInformation := b } } :=
  run_freeFrame_of_search_eq_none addressSizeTable s frame fun a => by
    simp only [addressSizeTable, search_eq, if_true]

/-- The machine and the live frames. A frame is live from the call that returns
it to the call that frees it; at most 100 are live at once, and requests are
between 1 and `2 ^ 31 - 4096` bytes. -/
def liveStep (fuel : ℕ) :
    FrameMachine HashTable × List Frame → FrameOp →
      FrameMachine HashTable × List Frame → Prop
  | s, .allocateFrame requestSize, s' =>
      1 ≤ requestSize.toNat ∧ requestSize.toNat ≤ 2 ^ 31 - 4096 ∧
        s.2.length < 100 ∧
        ∃ f, (allocateFrame addressSizeTable fuel requestSize).run s.1 =
            .ok f s'.1 ∧
          s'.2 = s.2 ++ [⟨f, roundUpToPageBoundary requestSize⟩]
  | s, .freeFrame frame, s' =>
      (freeFrame addressSizeTable frame).run s.1 = .ok () s'.1 ∧
        s'.2 = s.2.filter fun f => f.address ≠ frame

/-- What freeing the live frame `f` should do: it returns, moves the size of the
frame from `usedMemory` to the free memory and ends the life of the frame; and
from then on, until the frame is handed out again, freeing it halts and leaves
the free list and the counters alone. -/
def FreesOnce (fuel : ℕ) (s : FrameMachine HashTable × List Frame)
    (f : Frame) : Prop :=
  ∃ s', liveStep fuel s (.freeFrame f.address) s' ∧
    s'.1.globals.usedMemory = s.1.globals.usedMemory - f.size ∧
    s'.1.globals.globalBootInfo.memory.freeMemSize =
      s.1.globals.globalBootInfo.memory.freeMemSize + f.size ∧
    (∀ g ∈ s'.2, g.address ≠ f.address) ∧
    ∀ ops t, Run (liveStep fuel) s' ops t →
      (∀ g ∈ t.2, g.address ≠ f.address) →
      ∃ u, (freeFrame addressSizeTable f.address).run t.1 = .error .halt u ∧
        u.mem = t.1.mem ∧ u.globals.head = t.1.globals.head ∧
        u.globals.freeBlock = t.1.globals.freeBlock ∧
        u.globals.usedMemory = t.1.globals.usedMemory ∧
        u.globals.globalBootInfo = t.1.globals.globalBootInfo

theorem freeFrame_run_ne_ok (s t : FrameMachine HashTable) (frame : Word) :
    (freeFrame addressSizeTable frame).run s ≠ .ok () t := by
  obtain ⟨b, hhalt⟩ := freeFrame_halts s frame
  rw [hhalt]
  simp

/-- In no state, reachable or not, is a live frame freed as it should be. -/
theorem not_freesOnce (fuel : ℕ) (s : FrameMachine HashTable × List Frame)
    (f : Frame) : ¬ FreesOnce fuel s f := by
  rintro ⟨s', ⟨hok, -⟩, -⟩
  exact freeFrame_run_ne_ok s.1 s'.1 f.address hok

theorem run_liveStep_smallRegion : ∃ s : FrameMachine HashTable,
    Run (liveStep 0) (bootMachine smallRegion (fun _ => 0) HashTable.zero, [])
      [.allocateFrame 1] (s, [⟨0x100000, 4096⟩]) := by
  obtain ⟨s, hrun⟩ := allocateFrame_smallRegion fun _ => 0
  exact ⟨s, .single ⟨by decide, by decide, by decide, 0x100000, hrun, rfl⟩⟩

theorem exists_live_not_freesOnce :
    ¬ ∀ (R : UsableRegion) (mem : Bytes) (fuel : ℕ) (ops : List FrameOp)
      (s : FrameMachine HashTable × List Frame),
      Run (liveStep fuel) (bootMachine R mem HashTable.zero, []) ops s →
        ∀ f ∈ s.2, FreesOnce fuel s f := by
  intro h
  obtain ⟨s, hrun⟩ := run_liveStep_smallRegion
  obtain ⟨s', ⟨hok, -⟩, -⟩ := h smallRegion (fun _ => 0) 0 _ _ hrun
    ⟨0x100000, 4096⟩ (List.mem_singleton.2 rfl)
  exact freeFrame_run_ne_ok s s'.1 0x100000 hok

def frameStep {τ : Type} (T : SizeTable τ) (fuel : ℕ) :
    FrameMachine τ → FrameOp → FrameMachine τ → Prop
  | s, .allocateFrame requestSize, s' =>
      ∃ f, (allocateFrame T fuel requestSize).run s = .ok f s'
  | s, .freeFrame frame, s' => (freeFrame T frame).run s = .ok () s'

/-- The machine with a correct size table: `some n` at the pointer of a live
frame of `n` bytes. -/
abbrev ExactMachine := FrameMachine (Addr → Option Word)

/-- What a byte can belong to. -/
inductive Owner
  | frame (a : Addr)
  | block (p : Addr)
  deriving DecidableEq, Repr

/-- The byte at `x` belongs to the live frame at `a`, or to the block at `p` of
the list `blocks`. -/
def Owns (s : ExactMachine) (blocks : List Addr) (x : Addr) : Owner → Prop
  | .frame a => ∃ n : Word, s.globals.addressSizeHT a = some n ∧
      x ∈ region a n.toNat
  | .block p => p ∈ blocks ∧ x ∈ blockRegion s.mem p

/-- `freeBlock` starts a list, and every byte of the region belongs to exactly
one live frame or exactly one block of that list. -/
def Covered (R : UsableRegion) (s : ExactMachine) : Prop :=
  ∃ blocks, BlockList s.mem s.globals.freeBlock blocks ∧
    ∀ i < R.length.toNat, ∃! o, Owns s blocks (R.addr i) o

/-- The region is covered when `allocateFrame` starts to search. -/
def EntryCovered (R : UsableRegion) (s : ExactMachine) : Prop :=
  ∃ s', ensureFreeList.run s = .ok () s' ∧ Covered R s'

/-- The only calls of `freeFrame` that lose nothing: the frame is empty and no
memory is left. -/
def LosesNothing (s : ExactMachine) : FrameOp → Prop
  | .allocateFrame _ => True
  | .freeFrame frame =>
      s.globals.addressSizeHT
          (frame + s.globals.globalBootInfo.memory.hhdmOffset) = some 0 ∧
        s.globals.globalBootInfo.memory.freeMemSize = 0

/-- The live frames fill the first `used` bytes; an empty frame can only be the
last one. -/
structure LiveTable (R : UsableRegion) (t : Addr → Option Word) (used : ℕ) :
    Prop where
  offset : ∀ a n, t a = some n → ∃ o, a = R.addr o ∧
    o + n.toNat ≤ used ∧ n.toNat % 4096 = 0 ∧ (n.toNat = 0 → o = used)
  cover : ∀ i < used, ∃! a, ∃ n : Word, t a = some n ∧
    R.addr i ∈ region a n.toNat

theorem liveTable_empty (R : UsableRegion) :
    LiveTable R (fun _ => none) 0 :=
  ⟨by simp, by simp⟩

theorem LiveTable.lt_of_mem {R : UsableRegion} {t : Addr → Option Word}
    {used : ℕ} (h : LiveTable R t used) (hused : used ≤ R.length.toNat)
    {a : Addr} {n : Word} (ha : t a = some n) {i : ℕ}
    (hi : i < R.length.toNat) (hmem : R.addr i ∈ region a n.toNat) :
    i < used := by
  obtain ⟨o, rfl, hle, -, -⟩ := h.offset a n ha
  have hbound := (R.addr_mem_region hi (by omega)).1 hmem
  omega

theorem LiveTable.last_empty {R : UsableRegion} {t : Addr → Option Word}
    {used : ℕ} (h : LiveTable R t used) (hused : used ≤ R.length.toNat)
    {n : Word} (ha : t (R.addr used) = some n) : n.toNat = 0 := by
  obtain ⟨o, ho, hle, -, -⟩ := h.offset _ n ha
  have := R.addr_inj hused (by omega) ho
  omega

theorem LiveTable.insert {R : UsableRegion} {t : Addr → Option Word}
    {used : ℕ} (h : LiveTable R t used) {n : Word}
    (hn : n.toNat % 4096 = 0) (hfit : used + n.toNat ≤ R.length.toNat) :
    LiveTable R (Function.update t (R.addr used) (some n))
      (used + n.toNat) := by
  constructor
  · intro a k ha
    by_cases hlast : a = R.addr used
    · subst hlast
      rw [Function.update_self] at ha
      obtain rfl := Option.some.inj ha
      exact ⟨used, rfl, le_rfl, hn, fun h0 => by omega⟩
    · rw [Function.update_of_ne hlast] at ha
      obtain ⟨o, rfl, hle, hmod, hzero⟩ := h.offset a k ha
      exact ⟨o, rfl, by omega, hmod,
        fun h0 => absurd (by rw [hzero h0]) hlast⟩
  · intro i hi
    have hnew := R.addr_mem_region (i := i) (by omega) hfit
    by_cases hold : i < used
    · obtain ⟨a, ⟨k, ha, hmem⟩, huniq⟩ := h.cover i hold
      have hne : a ≠ R.addr used := by
        rintro rfl
        rw [h.last_empty (by omega) ha, region_zero] at hmem
        exact hmem
      refine ⟨a, ⟨k, by rw [Function.update_of_ne hne, ha], hmem⟩, ?_⟩
      rintro a' ⟨k', ha', hmem'⟩
      by_cases hlast : a' = R.addr used
      · subst hlast
        rw [Function.update_self] at ha'
        obtain rfl := Option.some.inj ha'
        have := hnew.1 hmem'
        omega
      · rw [Function.update_of_ne hlast] at ha'
        exact huniq a' ⟨k', ha', hmem'⟩
    · refine ⟨R.addr used, ⟨n, Function.update_self .., ?_⟩, ?_⟩
      · exact hnew.2 ⟨by omega, hi⟩
      · rintro a' ⟨k', ha', hmem'⟩
        by_contra hlast
        rw [Function.update_of_ne hlast] at ha'
        exact hold (h.lt_of_mem (by omega) ha' (by omega) hmem')

theorem LiveTable.erase_empty {R : UsableRegion} {t : Addr → Option Word}
    {used : ℕ} (h : LiveTable R t used) {a : Addr} {n : Word}
    (ha : t a = some n) (hn : n.toNat = 0) :
    LiveTable R (Function.update t a none) used := by
  have hold : ∀ a' k, Function.update t a none a' = some k → t a' = some k := by
    intro a' k hk
    by_cases hne : a' = a
    · subst hne
      rw [Function.update_self] at hk
      exact absurd hk (by simp)
    · rwa [Function.update_of_ne hne] at hk
  refine ⟨fun a' k hk => h.offset a' k (hold a' k hk), fun i hi => ?_⟩
  obtain ⟨b, ⟨k, hb, hmem⟩, huniq⟩ := h.cover i hi
  have hne : b ≠ a := by
    rintro rfl
    obtain rfl := Option.some.inj (ha.symm.trans hb)
    rw [hn, region_zero] at hmem
    exact hmem
  exact ⟨b, ⟨k, by rw [Function.update_of_ne hne, hb], hmem⟩,
    fun b' ⟨k', hb', hmem'⟩ => huniq b' ⟨k', hold b' k' hb', hmem'⟩⟩

theorem covered_of_bumpState {R : UsableRegion} {s : ExactMachine} {used : ℕ}
    (hs : BumpState R s used)
    (ht : LiveTable R s.globals.addressSizeHT used) : Covered R s := by
  have hle := hs.used_le
  have hlen := R.length.isLt
  refine ⟨[R.addr used], ?_, fun i hi => ?_⟩
  · rw [hs.freeBlock]
    exact blockList_singleton (R.addr_ne_zero hle) hs.next
  · have hblock : R.addr i ∈ blockRegion s.mem (R.addr used) ↔ used ≤ i := by
      rw [blockRegion, hs.size, BitVec.toNat_ofNat,
        Nat.mod_eq_of_lt (by omega : R.length.toNat - used < 2 ^ 64),
        R.addr_mem_region hi (by omega)]
      omega
    by_cases hold : i < used
    · obtain ⟨a, hown, huniq⟩ := ht.cover i hold
      refine ⟨.frame a, hown, ?_⟩
      rintro (b | p) hb
      · rw [huniq b hb]
      · obtain ⟨hp, hmem⟩ := hb
        rw [List.mem_singleton.1 hp] at hmem
        exact absurd (hblock.1 hmem) (by omega)
    · refine ⟨.block (R.addr used), ⟨by simp, hblock.2 (by omega)⟩, ?_⟩
      rintro (b | p) hb
      · obtain ⟨n, hn, hmem⟩ := hb
        exact absurd (ht.lt_of_mem hle hn hi hmem) hold
      · rw [List.mem_singleton.1 hb.1]

/-- `freeFrame` of a frame that is not the head of the list: it is linked in
front of the head, and `freeBlock` keeps its value. -/
theorem run_freeFrame_other {τ : Type} {R : UsableRegion} (T : SizeTable τ)
    {s : FrameMachine τ} {used : ℕ} (hs : BumpState R s used) {frame n : Word}
    (h : frame ≠ -1) (hne : frame + R.hhdmOffset ≠ R.addr used)
    (hsearch : T.search s.globals.addressSizeHT (frame + R.hhdmOffset) =
      some n) :
    ∃ s', (freeFrame T frame).run s = .ok () s' ∧
      s'.mem = fBlock.set (fBlock.set (fBlock.set (fBlock.set s.mem
        (frame + R.hhdmOffset) .size n) (frame + R.hhdmOffset) .inUse 0)
        (frame + R.hhdmOffset) .next (R.addr used)) (R.addr used) .previous
        (frame + R.hhdmOffset) ∧
      s'.globals.head = frame + R.hhdmOffset ∧
      s'.globals.freeBlock = R.addr used ∧
      s'.globals.addressSizeHT =
        T.deleteKey s.globals.addressSizeHT (frame + R.hhdmOffset) := by
  rw [freeFrame, run_bind_of_ok (run_toVirtualAddr_bump hs h)]
  simp only [EStateM.run_bind, EStateM.run_get, hsearch, run_modifyMem,
    hs.head, if_neg hne, run_modifyGlobals]
  by_cases h0 : s.globals.bootInformation.memory.freeMemSize = 0
  · refine ⟨_, by rw [if_neg (not_not.2 h0)]; rfl, rfl, rfl, ?_, rfl⟩
    exact hs.freeBlock
  · refine ⟨_, by rw [if_pos h0]; rfl, rfl, rfl, ?_, rfl⟩
    exact hs.freeBlock

theorem run_freeFrame_head {τ : Type} {R : UsableRegion} (T : SizeTable τ)
    {s : FrameMachine τ} {used : ℕ} (hs : BumpState R s used) {frame n : Word}
    (h : frame ≠ -1) (heq : frame + R.hhdmOffset = R.addr used)
    (hsearch : T.search s.globals.addressSizeHT (R.addr used) = some n) :
    ∃ s', (freeFrame T frame).run s = .ok () s' ∧
      s'.mem = fBlock.set (fBlock.set s.mem (R.addr used) .size n)
        (R.addr used) .inUse 0 ∧
      s'.globals.head = R.addr used ∧
      s'.globals.freeBlock = R.addr used ∧
      s'.globals.addressSizeHT =
        T.deleteKey s.globals.addressSizeHT (R.addr used) ∧
      s'.globals.usedMemory = s.globals.usedMemory - n ∧
      (s.globals.globalBootInfo.memory.freeMemSize = 0 →
        s'.globals.globalBootInfo = s.globals.globalBootInfo ∧
          s'.globals.bootInformation = s.globals.globalBootInfo) := by
  rw [freeFrame, run_bind_of_ok (run_toVirtualAddr_bump hs h), heq]
  simp only [EStateM.run_bind, EStateM.run_get, hsearch, run_modifyMem,
    hs.head, if_true, run_modifyGlobals, hs.copy]
  by_cases h0 : s.globals.globalBootInfo.memory.freeMemSize = 0
  · refine ⟨_, by rw [if_neg (not_not.2 h0)]; rfl, rfl, rfl, rfl, rfl, rfl, ?_⟩
    intro _
    exact ⟨rfl, rfl⟩
  · refine ⟨_, by rw [if_pos h0]; rfl, rfl, rfl, rfl, rfl, rfl, ?_⟩
    intro h'
    exact absurd h' h0

/-- The invariant of the runs that lose nothing. -/
def ExactState (R : UsableRegion) (mem : Bytes) (s : ExactMachine)
    (used : ℕ) : Prop :=
  AllocState R mem (fun _ => none) s used ∧
    LiveTable R s.globals.addressSizeHT used

theorem ExactState.entryCovered {R : UsableRegion} {mem : Bytes}
    {s : ExactMachine} {used : ℕ} (h : ExactState R mem s used) :
    EntryCovered R s := by
  obtain ⟨⟨rfl, rfl⟩ | hs, ht⟩ := h
  · obtain ⟨s', hrun, hs', -, htable⟩ := run_ensureFreeList_boot R mem
      (fun _ => none : Addr → Option Word)
    exact ⟨s', hrun, covered_of_bumpState hs' (by rw [htable]; exact ht)⟩
  · have hne : s.globals.head ≠ 0 := by
      rw [hs.head]
      exact R.addr_ne_zero hs.used_le
    exact ⟨s, run_ensureFreeList_of_ne hne, covered_of_bumpState hs ht⟩

theorem ExactState.allocateFrame {R : UsableRegion} {mem : Bytes}
    {fuel : ℕ} {requestSize f : Word} {s s' : ExactMachine} {used : ℕ}
    (h : ExactState R mem s used)
    (hcall : (allocateFrame exactSizeTable fuel requestSize).run s =
      .ok f s') :
    ∃ used', ExactState R mem s' used' := by
  obtain ⟨hfit, -, hg⟩ := granted_of_allocateFrame exactSizeTable h.1 hcall
  refine ⟨_, Or.inr hg.state, ?_⟩
  rw [hg.table]
  exact h.2.insert (roundUpToPageBoundary_mod requestSize) hfit

/-- A call of `freeFrame` that returns was made on a live frame. -/
theorem ExactState.freeFrame_live {R : UsableRegion} {mem : Bytes}
    {frame : Word} {s s' : ExactMachine} {used : ℕ}
    (h : ExactState R mem s used)
    (hcall : (freeFrame exactSizeTable frame).run s = .ok () s') :
    BumpState R s used ∧ frame ≠ -1 ∧ ∃ (n : Word) (o : ℕ),
      s.globals.addressSizeHT (R.addr o) = some n ∧
        frame + R.hhdmOffset = R.addr o ∧
        o + n.toNat ≤ used ∧ n.toNat % 4096 = 0 ∧ (n.toNat = 0 → o = used) := by
  obtain ⟨⟨rfl, rfl⟩ | hs, ht⟩ := h
  · obtain ⟨b, hhalt⟩ := run_freeFrame_of_search_eq_none exactSizeTable
      (bootMachine R mem fun _ => none) frame fun a => rfl
    rw [hcall] at hhalt
    exact absurd hhalt (by simp)
  have hentry : ∀ a t, (toVirtualAddr frame).run s = .ok a t →
      t.globals.addressSizeHT = s.globals.addressSizeHT →
      ∃ n, s.globals.addressSizeHT a = some n := by
    intro a t hrun htable
    rw [freeFrame, run_bind_of_ok hrun] at hcall
    simp only [EStateM.run_bind, EStateM.run_get, exactSizeTable,
      htable] at hcall
    cases hn : s.globals.addressSizeHT a with
    | none =>
        rw [hn] at hcall
        exact absurd hcall (by simp)
    | some n => exact ⟨n, rfl⟩
  by_cases hframe : frame = -1
  · obtain ⟨n, hn⟩ := hentry 0 s
      (by rw [toVirtualAddr, if_pos hframe, EStateM.run_pure]) rfl
    obtain ⟨o, ho, hle, -, -⟩ := ht.offset 0 n hn
    have hused := hs.used_le
    exact absurd ho.symm (R.addr_ne_zero (by omega))
  · obtain ⟨n, hn⟩ := hentry _ s (run_toVirtualAddr_bump hs hframe) rfl
    obtain ⟨o, ho, hrest⟩ := ht.offset _ n hn
    exact ⟨hs, hframe, n, o, by rw [← ho]; exact hn, ho, hrest⟩

/-- Freeing an empty frame of an exhausted region leaves the list alone. -/
theorem ExactState.freeFrame_empty {R : UsableRegion} {mem : Bytes}
    {frame : Word} {s s' : ExactMachine} {used : ℕ}
    (h : ExactState R mem s used)
    (hlose : LosesNothing s (.freeFrame frame))
    (hcall : (freeFrame exactSizeTable frame).run s = .ok () s') :
    ExactState R mem s' used := by
  obtain ⟨hs, hframe, n, o, hn, ho, hle, -, hlast⟩ := h.freeFrame_live hcall
  obtain ⟨hzero, hfree⟩ := hlose
  rw [hs.info, ho, hn] at hzero
  obtain rfl := Option.some.inj hzero
  obtain rfl := hlast rfl
  obtain ⟨t, hrun, hmem, hhead, hblock, htable, husedMem, hinfo⟩ :=
    run_freeFrame_head exactSizeTable hs hframe ho hn
  obtain ⟨hglobal, hcopy⟩ := hinfo hfree
  have hsize : BitVec.ofNat 64 (R.length.toNat - o) = 0 := by
    rw [hs.info] at hfree
    exact hfree
  rw [hcall] at hrun
  simp only [EStateM.Result.ok.injEq, true_and] at hrun
  subst hrun
  refine ⟨Or.inr ⟨hs.used_le, hhead, hblock, ?_, ?_, ?_, ?_, ?_⟩, ?_⟩
  · rw [hmem]
    simpa [fBlock.get_set_of_ne] using hs.next
  · rw [hmem, hsize]
    simp [fBlock.get_set_of_ne]
  · rw [hglobal, hs.info]
  · rw [hcopy, hglobal]
  · rw [husedMem, hs.usedMemory]
    exact BitVec.sub_zero _
  · rw [htable]
    exact h.2.erase_empty hn rfl

/-- Every other call of `freeFrame` that returns loses bytes at once. -/
theorem ExactState.freeFrame_loses {R : UsableRegion} {mem : Bytes}
    {frame : Word} {s s' : ExactMachine} {used : ℕ}
    (h : ExactState R mem s used)
    (hlose : ¬ LosesNothing s (.freeFrame frame))
    (hcall : (freeFrame exactSizeTable frame).run s = .ok () s') :
    ¬ EntryCovered R s' := by
  obtain ⟨hs, hframe, n, o, hn, ho, hle, hmod, hlast⟩ := h.freeFrame_live hcall
  have hused := hs.used_le
  have hlen := R.length_le
  -- it is enough to find a byte that no live frame and not the one block owns
  have hlost : ∀ k i, i < R.length.toNat →
      s'.globals.head ≠ 0 → s'.globals.freeBlock = R.addr used →
      fBlock.get s'.mem (R.addr used) .next = 0 →
      fBlock.get s'.mem (R.addr used) .size = BitVec.ofNat 64 k →
      used + k ≤ R.length.toNat → (i < used ∨ used + k ≤ i) →
      (∀ a m, s'.globals.addressSizeHT a = some m →
        R.addr i ∉ region a m.toNat) → ¬ EntryCovered R s' := by
    rintro k i hi hhead hblock hnext hsize hk hout hfree ⟨t, hrun, blocks,
      hlist, hown⟩
    rw [run_ensureFreeList_of_ne hhead] at hrun
    simp only [EStateM.Result.ok.injEq, true_and] at hrun
    subst hrun
    have hblocks : blocks = [R.addr used] := by
      rw [hblock] at hlist
      exact hlist.unique (blockList_singleton (R.addr_ne_zero hused) hnext)
    obtain ⟨(a | p), ho, -⟩ := hown i hi
    · obtain ⟨m, hm, hmem⟩ := ho
      exact hfree a m hm hmem
    · obtain ⟨hp, hmem⟩ := ho
      rw [hblocks, List.mem_singleton] at hp
      rw [hp, blockRegion, hsize, BitVec.toNat_ofNat,
        Nat.mod_eq_of_lt (by omega : k < 2 ^ 64),
        R.addr_mem_region hi hk] at hmem
      omega
  have hok : ∀ {t}, (freeFrame exactSizeTable frame).run s = .ok () t →
      t = s' := by
    intro t ht
    rw [hcall] at ht
    simpa using ht.symm
  by_cases hzero : n.toNat = 0
  · -- the head is emptied, so the bytes behind `used` are lost
    obtain rfl := hlast hzero
    have hn0 : n = 0 := BitVec.eq_of_toNat_eq hzero
    subst hn0
    obtain ⟨t, hrun, hmem, hhead, hblock, htable, -, -⟩ :=
      run_freeFrame_head exactSizeTable hs hframe ho hn
    obtain rfl := hok hrun
    have hleft : o < R.length.toNat := by
      by_contra hfull
      refine hlose ⟨by rw [hs.info, ho, hn], ?_⟩
      rw [hs.info, show R.length.toNat - o = 0 by omega]
      rfl
    refine hlost 0 o hleft (by rw [hhead]; exact R.addr_ne_zero hused) hblock
      ?_ ?_ hused (Or.inr le_rfl) ?_
    · rw [hmem]
      simpa [fBlock.get_set_of_ne] using hs.next
    · rw [hmem]
      simp [fBlock.get_set_of_ne]
    · intro a m hm hmem'
      rw [htable] at hm
      exact absurd ((h.2.erase_empty hn rfl).lt_of_mem hused hm hleft hmem')
        (lt_irrefl o)
  · -- the frame is in front of `head`, and `freeBlock` still names the old head
    have hlt : o < used := by omega
    have hne : frame + R.hhdmOffset ≠ R.addr used := by
      rw [ho]
      intro he
      exact absurd (R.addr_inj (by omega) hused he) (by omega)
    obtain ⟨t, hrun, hmem, hhead, hblock, htable⟩ :=
      run_freeFrame_other exactSizeTable hs hframe hne (by rw [ho]; exact hn)
    obtain rfl := hok hrun
    rw [ho] at hmem hhead htable
    have hdisj : Disjoint (fBlock.recordRegion (R.addr used))
        (fBlock.recordRegion (R.addr o)) :=
      (R.disjoint_region (by omega : o + 40 ≤ used)
        (by omega : used + 40 ≤ 2 ^ 64)).symm
    have hkeep : ∀ (m : Bytes) (f g : FBlock) (v : Word),
        fBlock.get (fBlock.set m (R.addr o) g v) (R.addr used) f =
          fBlock.get m (R.addr used) f := fun m f g v =>
      fBlock.get_set_of_disjoint fBlock m f g v hdisj
    refine hlost (R.length.toNat - used) o (by omega)
      (by rw [hhead]; exact R.addr_ne_zero (by omega)) hblock ?_ ?_ (by omega)
      (Or.inl hlt) ?_
    · rw [hmem]
      simp [fBlock.get_set_of_ne, hkeep, hs.next]
    · rw [hmem]
      simp [fBlock.get_set_of_ne, hkeep, hs.size]
    · intro a m hm hmem'
      rw [htable] at hm
      change Function.update s.globals.addressSizeHT (R.addr o) none a =
        some m at hm
      have hane : a ≠ R.addr o := by
        rintro rfl
        rw [Function.update_self] at hm
        exact absurd hm (by simp)
      rw [Function.update_of_ne hane] at hm
      obtain ⟨b, -, huniq⟩ := h.2.cover o hlt
      have hself : R.addr o ∈ region (R.addr o) n.toNat :=
        (R.addr_mem_region (by omega) (by omega)).2 ⟨le_rfl, by omega⟩
      exact hane ((huniq a ⟨m, hm, hmem'⟩).trans
        (huniq (R.addr o) ⟨n, hn, hself⟩).symm)

theorem exactState_of_run {R : UsableRegion} {mem : Bytes} {fuel : ℕ}
    {ops : List FrameOp} {s : ExactMachine}
    (h : Run (Guarded LosesNothing (frameStep exactSizeTable fuel))
      (bootMachine R mem fun _ => none) ops s) :
    ∃ used, ExactState R mem s used := by
  refine h.invariant (fun s => ∃ used, ExactState R mem s used)
    ⟨0, Or.inl ⟨rfl, rfl⟩, liveTable_empty R⟩ ?_
  rintro s (requestSize | frame) s' ⟨used, hs⟩ ⟨hlose, hstep⟩
  · obtain ⟨f, hcall⟩ := hstep
    exact hs.allocateFrame hcall
  · exact ⟨used, hs.freeFrame_empty hlose hstep⟩

/-- The region is covered at every entry of `allocateFrame` along the runs that
lose nothing, and at none right after a call that leaves them. -/
theorem entryCovered_of_losesNothing (R : UsableRegion) (mem : Bytes)
    (fuel : ℕ) {ops : List FrameOp} {s : ExactMachine}
    (hrun : Run (Guarded LosesNothing (frameStep exactSizeTable fuel))
      (bootMachine R mem fun _ => none) ops s) :
    EntryCovered R s ∧ ∀ op s', frameStep exactSizeTable fuel s op s' →
      (EntryCovered R s' ↔ LosesNothing s op) := by
  obtain ⟨used, hs⟩ := exactState_of_run hrun
  refine ⟨hs.entryCovered, ?_⟩
  rintro (requestSize | frame) s' hstep
  · obtain ⟨f, hcall⟩ := hstep
    obtain ⟨used', hs'⟩ := hs.allocateFrame hcall
    exact ⟨fun _ => trivial, fun _ => hs'.entryCovered⟩
  · refine ⟨fun hcov => ?_, fun hlose =>
      (hs.freeFrame_empty hlose hstep).entryCovered⟩
    by_contra hlose
    exact hs.freeFrame_loses hlose hstep hcov

theorem exists_run_smallRegion : ∃ s s' : ExactMachine,
    ExactState smallRegion (fun _ => 0) s 4096 ∧
      Run (frameStep exactSizeTable 0)
        (bootMachine smallRegion (fun _ => 0) fun _ => none)
        [.allocateFrame 4096] s ∧
      ¬ LosesNothing s (.freeFrame 0x100000) ∧
      frameStep exactSizeTable 0 s (.freeFrame 0x100000) s' := by
  obtain ⟨s, hcall, hg⟩ := allocateFrame_first smallRegion (fun _ => 0)
    (fun _ => none) exactSizeTable 0 4096 (by decide)
  have hs : BumpState smallRegion s 4096 := hg.state
  have htable : s.globals.addressSizeHT = Function.update (fun _ => none)
    (smallRegion.addr 0) (some 4096) := hg.table
  have hlive : LiveTable smallRegion s.globals.addressSizeHT 4096 := by
    rw [htable]
    exact (liveTable_empty smallRegion).insert (n := 4096) (by decide)
      (by decide)
  have haddr : (0x100000 : Word) + smallRegion.hhdmOffset =
      smallRegion.addr 0 := by decide
  have hentry : s.globals.addressSizeHT (smallRegion.addr 0) = some 4096 := by
    rw [htable, Function.update_self]
  obtain ⟨s', hrun, -⟩ : ∃ s', (freeFrame exactSizeTable 0x100000).run s =
      .ok () s' ∧ _ :=
    run_freeFrame_other exactSizeTable hs (by decide) (by decide)
      (by rw [haddr]; exact hentry)
  refine ⟨s, s', ⟨Or.inr hs, hlive⟩, .single ⟨_, hcall⟩, ?_, hrun⟩
  rintro ⟨hempty, -⟩
  rw [hs.info, haddr, hentry] at hempty
  exact absurd hempty (by decide)

theorem not_forall_entryCovered :
    ¬ ∀ (R : UsableRegion) (mem : Bytes) (fuel : ℕ) (ops : List FrameOp)
      (s : ExactMachine), Run (frameStep exactSizeTable fuel)
        (bootMachine R mem fun _ => none) ops s → EntryCovered R s := by
  intro h
  obtain ⟨s, s', hs, hrun, hlose, hstep⟩ := exists_run_smallRegion
  exact hs.freeFrame_loses hlose hstep
    (h smallRegion (fun _ => 0) 0 _ s' (.snoc hrun hstep))

theorem entryCovered_of_losesNothing_smallRegion :
    ∃ s : ExactMachine, (∃ f, (allocateFrame exactSizeTable 0 4096).run
        (bootMachine smallRegion (fun _ => 0) fun _ => none) = .ok f s) ∧
      EntryCovered smallRegion s := by
  obtain ⟨s, hcall, -⟩ := allocateFrame_first smallRegion (fun _ => 0)
    (fun _ => none) exactSizeTable 0 4096 (by decide)
  have hrun : Run (Guarded LosesNothing (frameStep exactSizeTable 0))
      (bootMachine smallRegion (fun _ => 0) fun _ => none)
      [.allocateFrame 4096] s := .single ⟨trivial, _, hcall⟩
  exact ⟨s, ⟨_, hcall⟩, (entryCovered_of_losesNothing smallRegion
    (fun _ => 0) 0 hrun).1⟩

end OptimistOS
