import OptimistOS.Heap.HeapRuns
import OptimistOS.Heap.PoolAnswers
import OptimistOS.Paging.KernelTables
import OptimistOS.Process.KeepsMemory

/-!
# The blocks of a process on the kernel's memory

What the setting up of processes relies on, proved of the kernel's own memory
management. The pool of the heap lies in frames that hold no tables, so frames
and tables leave its nodes alone, and the heap leaves the tables alone
(`MemoryReady`). The blocks for the record of a process and for the kernel stack
of its thread are refused. A node of the thread list is a block of the pool, and
no block of the pool starts where a frame starts (`threadBlocks_kernelMemory`).
-/

namespace OptimistOS

open ByteMemory ByteMemory.Code

/-- The calls that set up a process keep `P`. `IsFrame` holds of the frames that
are handed out and of no block for a node of the thread list. -/
structure ThreadBlocks {α : Type} (M : MemoryManager α)
    (P : Machine 64 α → Prop) (IsFrame : Addr → Prop) : Prop where
  keeps : KeepsCalls M P
  newPML4 : Keeps P M.newPML4
  frame : ∀ size t p t', P t → (M.frame size).run t = .ok p t' →
    p ≠ 0 ∧ IsFrame p
  node : ∀ t p t', P t → (M.mallocx sizeofThreadList).run t = .ok p t' →
    p ≠ 0 ∧ ¬ IsFrame p

theorem PoolAt.congr {m m' : Bytes} {b : Addr} {segs : List Segment}
    {lastLive : Bool} (h : PoolAt m b segs lastLive)
    (hm : ∀ x ∈ region b poolBytes.toNat, m' x = m x) :
    PoolAt m' b segs lastLive := by
  have hagree : AgreeOff (Set.compl (region b poolBytes.toNat)) m m' :=
    fun x hx => (hm x (not_not.1 hx)).symm
  have hdisjoint : ∀ k ≤ 6143, Disjoint (head.recordRegion (slot b k))
      (Set.compl (region b poolBytes.toNat)) := fun k hk =>
    Set.disjoint_left.2 fun x hx hx' => hx' (record_slot_subset b hk hx)
  refine ⟨h.base, h.segments.congr hagree ?_, h.spans_eq, ?_⟩
  · rw [Set.disjoint_left]
    rintro x ⟨k, -, hk, hx⟩
    rw [h.spans_eq] at hk
    exact Set.disjoint_left.1 (hdisjoint k (by omega)) hx
  · refine h.last.congr hagree ?_
    rw [page_eq_slot]
    exact hdisjoint _ (by decide)

def poolPages : ℕ := 3120

theorem poolBytes_eq : poolBytes.toNat = 4096 * poolPages := by decide

section

variable {τ : Type} (T : SizeTable τ) (fuel : ℕ) (R : UsableRegion)
  (hlow : R.start.toNat + R.length.toNat ≤ 2 ^ 52)

def pagingMachine (u : Machine 64 (KernelGlobals τ)) :
    Machine 64 (PagingGlobals (FrameGlobals τ)) :=
  ⟨u.mem, u.globals.frames⟩

structure PoolInPages (u : Machine 64 (KernelGlobals τ)) (o : ℕ) : Prop where
  aligned : o % 4096 = 0
  room : o + poolBytes.toNat ≤ R.length.toNat
  freeList : u.globals.freeList = R.addr o
  pool : ∃ segs lastLive, PoolAt u.mem (R.addr o) segs lastLive

/-- The tables are in order, and so is the pool if there is one. -/
def MemoryReady (u : Machine 64 (KernelGlobals τ)) : Prop :=
  (u.globals.freeList = 0 ∧
      TablesBeside T fuel R hlow [] (pagingMachine u)) ∨
    ∃ o, PoolInPages R u o ∧
      TablesBeside T fuel R hlow (R.pages o poolPages) (pagingMachine u)

def IsFramePointer (p : Addr) : Prop :=
  ∃ o ≤ R.length.toNat, o % 4096 = 0 ∧ p = R.addr o

end

section

variable {τ : Type} {T : SizeTable τ} {fuel heapFuel : ℕ} {R : UsableRegion}
  {hlow : R.start.toNat + R.length.toNat ≤ 2 ^ 52}
  {u u' : Machine 64 (KernelGlobals τ)} {o : ℕ}

theorem PoolInPages.congr (h : PoolInPages R u o)
    (hlist : u'.globals.freeList = u.globals.freeList)
    (hkept : ∀ x ∈ frameBytes R.hhdmOffset (R.pages o poolPages),
      u'.mem x = u.mem x) : PoolInPages R u' o := by
  obtain ⟨segs, lastLive, hpool⟩ := h.pool
  refine ⟨h.aligned, h.room, hlist.trans h.freeList, segs, lastLive,
    hpool.congr fun x hx => hkept x ?_⟩
  rw [poolBytes_eq] at hx
  exact R.region_subset_pages o poolPages (by decide) hx

theorem MemoryReady.exists_base (h : MemoryReady T fuel R hlow u) :
    ∃ base, TablesBeside T fuel R hlow base (pagingMachine u) ∧
      ∀ u' : Machine 64 (KernelGlobals τ),
        u'.globals.freeList = u.globals.freeList →
        LeavesBeside T fuel R hlow base (pagingMachine u) (pagingMachine u') →
        MemoryReady T fuel R hlow u' := by
  rcases h with ⟨hlist, htables⟩ | ⟨o, hpool, htables⟩
  · exact ⟨[], htables, fun u' hlist' hleaves =>
      Or.inl ⟨hlist'.trans hlist, hleaves.tables⟩⟩
  · exact ⟨_, htables, fun u' hlist' hleaves =>
      Or.inr ⟨o, hpool.congr hlist' hleaves.kept, hleaves.tables⟩⟩

theorem run_heapFrames {β : Type} {x : Code 64 (PagingGlobals (FrameGlobals τ)) β}
    {a : β} (h : (callHeapFrames x).run u = .ok a u') :
    x.run (pagingMachine u) = .ok a (pagingMachine u') ∧
      u'.globals.freeList = u.globals.freeList := by
  obtain ⟨t, ht, rfl⟩ := run_zoom_eq_ok.1 h
  exact ⟨ht, rfl⟩

theorem MemoryReady.frame {size : Word} {p : Addr}
    (h : MemoryReady T fuel R hlow u)
    (hrun : ((kernelMemory T fuel heapFuel).frame size).run u = .ok p u') :
    p ≠ 0 ∧ IsFramePointer R p ∧ MemoryReady T fuel R hlow u' := by
  obtain ⟨base, htables, hready⟩ := h.exists_base
  obtain ⟨f, u₁, hframe, hvirtual⟩ := run_bind_eq_ok.1 hrun
  obtain ⟨hframe, hlist₁⟩ := run_heapFrames
    (x := callFrames (allocateFrame T fuel size)) hframe
  obtain ⟨hvirtual, hlist₂⟩ := run_heapFrames
    (x := callFrames (toVirtualAddr f)) hvirtual
  obtain ⟨hf, ⟨o, ho, hmod, haddr⟩, hleaves⟩ := htables.allocateFrame hframe
  obtain ⟨hsame, hp⟩ := hleaves.tables.toVirtualAddr hvirtual
  have hp' : p = R.addr o := (hp hf).trans haddr
  exact ⟨hp' ▸ R.addr_ne_zero ho, ⟨o, ho, hmod, hp'⟩,
    hready u' (hlist₂.trans hlist₁) (hsame ▸ hleaves)⟩

theorem MemoryReady.toPhysicalAddr {addr p : Addr}
    (h : MemoryReady T fuel R hlow u)
    (hrun : ((kernelMemory T fuel heapFuel).toPhysicalAddr addr).run u =
      .ok p u') : MemoryReady T fuel R hlow u' := by
  obtain ⟨base, htables, hready⟩ := h.exists_base
  obtain ⟨hcall, hlist⟩ := run_heapFrames
    (x := callFrames (OptimistOS.toPhysicalAddr addr)) hrun
  refine hready u' hlist ?_
  rw [htables.toPhysicalAddr hcall]
  exact ⟨htables, fun _ _ => rfl⟩

theorem MemoryReady.map {physicalAddr virtualAddr : Word} {b : Bool}
    (h : MemoryReady T fuel R hlow u)
    (hrun : ((kernelMemory T fuel heapFuel).map physicalAddr virtualAddr
      stackFlags).run u = .ok b u') : MemoryReady T fuel R hlow u' := by
  obtain ⟨base, htables, hready⟩ := h.exists_base
  obtain ⟨hcall, hlist⟩ := run_heapFrames (x := OptimistOS.map
    (kernelAllocator T fuel) physicalAddr virtualAddr stackFlags) hrun
  exact hready u' hlist (htables.map (by decide) hcall)

theorem MemoryReady.newPML4 {p : Word} (h : MemoryReady T fuel R hlow u)
    (hrun : (kernelMemory T fuel heapFuel).newPML4.run u = .ok p u') :
    MemoryReady T fuel R hlow u' := by
  obtain ⟨base, htables, hready⟩ := h.exists_base
  obtain ⟨hcall, hlist⟩ := run_heapFrames (x := OptimistOS.newPML4
    (kernelAllocator T fuel) OptimistOS.toPhysicalAddr) hrun
  exact hready u' hlist (htables.newPML4 hcall)

theorem TablesBeside.writePool
    (h : TablesBeside T fuel R hlow (R.pages o poolPages) (pagingMachine u))
    (hm : AgreeOff (region (R.addr o) poolBytes.toNat) u.mem u'.mem)
    (hframes : u'.globals.frames = u.globals.frames) :
    TablesBeside T fuel R hlow (R.pages o poolPages) (pagingMachine u') := by
  have hpages : AgreeOff (frameBytes R.hhdmOffset (R.pages o poolPages))
      (pagingMachine u).mem u'.mem :=
    hm.mono (poolBytes_eq ▸ R.region_subset_pages o poolPages (by decide))
  rw [pagingMachine, hframes]
  exact h.write hpages

/-- The first request sets up the pool in pages of its own. -/
theorem initNodes_poolInPages
    (htables : TablesBeside T fuel R hlow [] (pagingMachine u))
    (hrun : (initNodes (heapAllocator T fuel)).run u = .ok () u') :
    ∃ o, PoolInPages R u' o ∧
      TablesBeside T fuel R hlow (R.pages o poolPages) (pagingMachine u') := by
  obtain ⟨f, u₁, hframe, hrun⟩ := run_bind_eq_ok.1 hrun
  obtain ⟨p, u₂, hvirtual, hrun⟩ := run_bind_eq_ok.1 hrun
  obtain ⟨hframe, -⟩ := run_heapFrames
    (x := callFrames (allocateFrame T fuel poolBytes)) hframe
  obtain ⟨hvirtual, -⟩ := run_heapFrames
    (x := callFrames (toVirtualAddr f)) hvirtual
  obtain ⟨o, hmod, hroom, hf, haddr, hzero, htables₁⟩ :=
    htables.allocatePages (k := poolPages) (by decide) hframe
  rw [← poolBytes_eq] at hroom hzero
  obtain ⟨hsame, hp⟩ := htables₁.toVirtualAddr hvirtual
  obtain rfl : p = R.addr o := (hp hf).trans haddr
  rw [← hsame] at hzero htables₁
  have hle : o ≤ R.length.toNat := by omega
  have hfits : (R.addr o).toNat + poolBytes.toNat < 2 ^ 64 := by
    have hwindow := R.window
    have hnat := R.toNat_addr hle
    rw [UsableRegion.base] at hnat
    omega
  obtain ⟨hpool, hagree⟩ := freshPool_initNodesLoop (m := u₂.mem)
    (R.addr_ne_zero hle) hfits hzero
  have hu' : (⟨initNodesLoop (POOL_ARRAY_SIZE - 1) 0 u₂.mem (R.addr o),
      { u₂.globals with freeList := R.addr o }⟩ :
        Machine 64 (KernelGlobals τ)) = u' := (EStateM.Result.ok.inj hrun).2
  -- of the new memory only the headers matter
  generalize initNodesLoop (POOL_ARRAY_SIZE - 1) 0 u₂.mem (R.addr o) = m'
    at hpool hagree hu'
  subst hu'
  exact ⟨o, ⟨hmod, hroom, rfl, _, _, hpool.poolAt⟩,
    htables₁.writePool (hagree.mono (headers_subset _)) rfl⟩

theorem MemoryReady.ensurePool {u₁ : Machine 64 (KernelGlobals τ)}
    (h : MemoryReady T fuel R hlow u)
    (hrun : (OptimistOS.ensurePool (heapAllocator T fuel)).run
      ⟨u.mem, { u.globals with mutex := 1 }⟩ = .ok () u₁) :
    ∃ o, PoolInPages R u₁ o ∧
      TablesBeside T fuel R hlow (R.pages o poolPages) (pagingMachine u₁) := by
  rcases h with ⟨hlist, htables⟩ | ⟨o, hpool, htables⟩
  · rw [run_ensurePool_of_eq (by exact hlist)] at hrun
    exact initNodes_poolInPages
      (u := ⟨u.mem, { u.globals with mutex := 1 }⟩) htables hrun
  · have hne : u.globals.freeList ≠ 0 := by
      have hroom := hpool.room
      exact hpool.freeList ▸ R.addr_ne_zero (by omega)
    rw [run_ensurePool_of_ne (by exact hne)] at hrun
    obtain rfl := (EStateM.Result.ok.inj hrun).2
    exact ⟨o, ⟨hpool.aligned, hpool.room, hpool.freeList, hpool.pool⟩, htables⟩

theorem MemoryReady.mallocx_tooLarge {size : Word} {p : Addr}
    (h : MemoryReady T fuel R hlow u)
    (hblocks : MAXIMUM_COALESCE_BLOCKS < blockSize size / PAGE_SIZE)
    (hrun : (mallocx (heapAllocator T fuel) heapFuel size).run u = .ok p u') :
    MemoryReady T fuel R hlow u' := by
  obtain ⟨u₁, result, m, hensure, hloop, hserve⟩ := mallocx_eq_ok hrun
  obtain ⟨o, hpool, htables⟩ := h.ensurePool hensure
  obtain ⟨segs, lastLive, hat⟩ := hpool.pool
  obtain ⟨-, rfl⟩ := (hpool.freeList.symm ▸ hat).serve_tooLarge hblocks hloop
    hserve
  exact Or.inr ⟨o, ⟨hpool.aligned, hpool.room, hpool.freeList, hpool.pool⟩,
    htables⟩

theorem MemoryReady.mallocx_node {size : Word} {p : Addr}
    (h : MemoryReady T fuel R hlow u) (hsize : blockSize size ≤ PAGE_SIZE)
    (hrun : (mallocx (heapAllocator T fuel) heapFuel size).run u = .ok p u') :
    (∃ o k, o % 4096 = 0 ∧ o + 2048 * k + 64 ≤ R.length.toNat ∧
      p = R.addr (o + 2048 * k + 64)) ∧ MemoryReady T fuel R hlow u' := by
  obtain ⟨u₁, result, m, hensure, hloop, hserve⟩ := mallocx_eq_ok hrun
  obtain ⟨o, hpool, htables⟩ := h.ensurePool hensure
  obtain ⟨segs, lastLive, hat⟩ := hpool.pool
  have hroom := hpool.room
  have hbytes : poolBytes.toNat = 12779520 := by decide
  obtain ⟨hglobals, ⟨k, hk, rfl⟩, ⟨segs', lastLive', hat'⟩, hm⟩ :=
    (hpool.freeList.symm ▸ hat).serve_node hsize hloop hserve
  rw [hpool.freeList] at hat' hm
  refine ⟨⟨o, k, hpool.aligned, by omega, ?_⟩, Or.inr ⟨o, ⟨hpool.aligned, hroom,
    ?_, segs', lastLive', hat'⟩, htables.writePool hm ?_⟩⟩
  · rw [hpool.freeList, slot, UsableRegion.addr, UsableRegion.addr,
      show sizeofHead = BitVec.ofNat 64 64 from rfl, add_ofNat_add_ofNat,
      add_ofNat_add_ofNat, Nat.add_assoc]
  · rw [hglobals]
    exact hpool.freeList
  · rw [hglobals]

variable (T fuel heapFuel R hlow) in
theorem threadBlocks_kernelMemory :
    ThreadBlocks (kernelMemory T fuel heapFuel) (MemoryReady T fuel R hlow)
      (IsFramePointer R) := by
  have hnode : blockSize sizeofThreadList ≤ PAGE_SIZE := by decide
  refine ⟨⟨fun size t p t' h hrun => (h.frame hrun).2.2,
    fun addr t p t' h hrun => h.toPhysicalAddr hrun, ?_,
    fun a v t b t' h hrun => h.map hrun⟩, fun t p t' h hrun => h.newPML4 hrun,
    fun size t p t' h hrun => ?_, fun t p t' h hrun => ?_⟩
  · intro size hsize t p t' h hrun
    simp only [blockSizes, List.mem_cons, List.not_mem_nil, or_false] at hsize
    rcases hsize with rfl | rfl | rfl
    · exact h.mallocx_tooLarge (by decide) hrun
    · exact h.mallocx_tooLarge (by decide) hrun
    · exact (h.mallocx_node hnode hrun).2
  · obtain ⟨hne, hframe, -⟩ := h.frame hrun
    exact ⟨hne, hframe⟩
  · obtain ⟨⟨o, k, hmod, hle, rfl⟩, -⟩ := h.mallocx_node hnode hrun
    refine ⟨R.addr_ne_zero hle, ?_⟩
    rintro ⟨o', ho', hmod', heq⟩
    have heq' := R.addr_inj hle ho' heq
    omega

end

end OptimistOS
