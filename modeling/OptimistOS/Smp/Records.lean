import OptimistOS.Heap.RepeatedRequests
import OptimistOS.Smp.BringUp

/-!
# The records of the processors

Every processor takes the block for its record from the heap, the boot processor
first. The processors pass `initOtherCPUs` one after the other (`InOrder`), so
these requests do not meet although `mallocx` gives up its lock too early: the
processor with the number `n` gets the block of the `n`-th request. All requests
are of one size class, hence the records of the processors from the second
application processor on lie in one and the same block.
-/

namespace OptimistOS

open ByteMemory ByteMemory.Code Transition

def BringUp.getCPUInfo {ι σ τ α : Type} (s : BringUp ι σ τ α)
    (cpuNumber : BitVec 32) : Addr :=
  if s.smp.cpusStarted < cpuNumber then 0 else s.record cpuNumber

/-- The writes of `initSMP` to the record of the boot processor. -/
def fillCpu0Information (m : Bytes) (cpu : Addr) : Bytes :=
  let m := cpuInfo.set m cpu .lock 0
  let m := cpuInfo.set m cpu .lapicID 0
  let m := cpuInfo.set m cpu .currentProcess 0
  let m := cpuInfo.set m cpu .processSize 0
  let m := cpuInfo.set m cpu .processIndex 0
  let m := cpuInfo.set m cpu .totalTime 0
  let m := cpuInfo.set m cpu .lastIdleTime 0
  let m := cpuInfo.set m cpu .processPRCount 0
  cpuInfo.set m cpu .cpuNumber 0

/-- `initSMP` up to the record of the boot processor. -/
def initCpu0 {α : Type} (A : FrameAllocator α) (fuel : ℕ) :
    Code 64 (HeapGlobals α) Addr := do
  let cpu0Information ← mallocx A fuel sizeofCpuInfo
  modifyMem fun m => fillCpu0Information m cpu0Information
  return cpu0Information

def recordClass : Word := blockSize sizeofCpuInfo

theorem recordClass_mul : recordClass.toNat * 2 ^ 4 = 4096 := by decide

theorem recordClass_ne : recordClass ≠ PAGE_SIZE := by decide

theorem agreeOff_fillCpuInfo (m : Bytes) (p : Addr) (lapicID n : BitVec 32) :
    AgreeOff (cpuInfo.recordRegion p) m (fillCpuInfo m p lapicID n) := by
  intro x hx
  have hp : ∀ (m : Bytes) (f : CpuInfoMember) (v : Word),
      cpuInfo.set m p f v x = m x :=
    fun m f v => (cpuInfo.agreeOff_set m p f v x hx).symm
  rw [fillCpuInfo, hp, hp, hp, hp, hp, hp, hp, hp, hp, hp]

theorem agreeOff_fillCpu0Information (m : Bytes) (p : Addr) :
    AgreeOff (cpuInfo.recordRegion p) m (fillCpu0Information m p) := by
  intro x hx
  have hp : ∀ (m : Bytes) (f : CpuInfoMember) (v : Word),
      cpuInfo.set m p f v x = m x :=
    fun m f v => (cpuInfo.agreeOff_set m p f v x hx).symm
  rw [fillCpu0Information, hp, hp, hp, hp, hp, hp, hp, hp, hp]

theorem recordRegion_subset (b : Addr) (n : ℕ) :
    cpuInfo.recordRegion (requestBlock b recordClass n) ⊆
      (requestHeaders b recordClass)ᶜ := by
  refine Set.Subset.trans ?_ (Set.subset_compl_iff_disjoint_right.2
    (disjoint_requestRoom b recordClass_mul n))
  intro x hx
  have hroom : cpuInfo.sizeof ≤ recordClass.toNat - 64 := by decide
  exact lt_of_lt_of_le hx hroom

structure HeapServes {α : Type} (s : Machine 64 (HeapGlobals α)) (b : Addr)
    (n : ℕ) : Prop where
  mutex : s.globals.mutex = 0
  freeList : s.globals.freeList = b
  served : ServedRequests recordClass s.mem b n

/-- The heap while the processor that is inside comes through its request for
the `n`-th block. -/
def RequestAt {α : Type} (s : Machine 64 (HeapGlobals α)) (b : Addr) (n : ℕ) :
    RequestStage → Prop
  | .lock => HeapServes s b n
  | .search => s.globals.freeList = b ∧ ServedRequests recordClass s.mem b n
  | .finish result =>
      result = .node (requestNode b recordClass n) ∧ s.globals.freeList = b ∧
        ServedRequests recordClass (head.set s.mem
          (requestNode b recordClass n) .status Flag.allocated) b (n + 1)
  | .served block =>
      block = requestBlock b recordClass n ∧ HeapServes s b (n + 1)

section

variable {α : Type} {A : FrameAllocator α} {fuel n : ℕ} {b : Addr}
  {s : Machine 64 (HeapGlobals α)}

theorem RequestAt.search (h : RequestAt s b n .search) (hptr : PoolPointers b)
    (hfuel : 4 < fuel) :
    ∃ t, (mallocSearch A fuel sizeofCpuInfo).run s =
        .ok (.node (requestNode b recordClass n)) t ∧
      RequestAt t b n (.finish (.node (requestNode b recordClass n))) := by
  obtain ⟨hlist, hserved⟩ := h
  subst hlist
  obtain ⟨m', hloop, hserved'⟩ := hserved.search hptr recordClass_mul
    (fuel - 5)
  rw [show fuel - 5 + 4 + 1 = fuel by omega] at hloop
  refine ⟨⟨m', { s.globals with mutex := 0 }⟩, ?_, rfl, rfl, hserved'⟩
  rw [mallocSearch, run_bind_of_ok (run_ensurePool_of_ne hptr.ne_zero),
    EStateM.run_bind, EStateM.run_get]
  rw [recordClass] at hloop
  simp only [hloop]
  rfl

theorem RequestAt.finish (h : RequestAt s b n
    (.finish (.node (requestNode b recordClass n)))) :
    ∃ t, (mallocFinish (.node (requestNode b recordClass n))).run s =
        .ok (requestBlock b recordClass n) t ∧
      RequestAt t b n (.served (requestBlock b recordClass n)) :=
  ⟨_, rfl, rfl, rfl, h.2.1, h.2.2⟩

theorem HeapServes.fill (h : HeapServes s b (n + 1)) (k : ℕ)
    (lapicID cpuNumber : BitVec 32) :
    HeapServes ⟨fillCpuInfo s.mem (requestBlock b recordClass k) lapicID
      cpuNumber, s.globals⟩ b (n + 1) :=
  ⟨h.mutex, h.freeList, h.served.congr
    ((agreeOff_fillCpuInfo _ _ _ _).mono (recordRegion_subset b k))⟩

end

/-- The record of the boot processor is the first block of an untouched heap. -/
structure Cpu0Placed {τ : Type} (T : SizeTable τ) (fuel heapFuel : ℕ)
    (R : UsableRegion) (used : ℕ) (block : Addr)
    (heap : Machine 64 (KernelGlobals τ)) : Prop where
  exists_run : ∃ mem table s, HeapUntouched s.globals ∧
    AllocState R mem table (frameMachine s) used ∧
    (initCpu0 (heapAllocator T fuel) heapFuel).run s = .ok block heap
  aligned : used % 4096 = 0
  room : used + poolBytes.toNat ≤ R.length.toNat
  fuel : 4 < heapFuel

section

variable {τ : Type} {T : SizeTable τ} {fuel heapFuel used : ℕ}
  {R : UsableRegion} {block : Addr} {heap : Machine 64 (KernelGlobals τ)}

variable (T fuel) in
theorem run_initCpu0 {mem : Bytes} {table : τ} {s : Machine 64 (KernelGlobals τ)}
    (hheap : HeapUntouched s.globals)
    (hs : AllocState R mem table (frameMachine s) used)
    (haligned : used % 4096 = 0)
    (hroom : used + poolBytes.toNat ≤ R.length.toNat) (hfuel : 4 < heapFuel) :
    ∃ t, (initCpu0 (heapAllocator T fuel) heapFuel).run s =
        .ok (requestBlock (R.addr used) recordClass 0) t ∧
      HeapServes t (R.addr used) 1 ∧ PoolPointers (R.addr used) := by
  have hserving : HeapUser.Serving R used recordClass ⟨s, []⟩ ⟨s, []⟩ :=
    ⟨rfl, .inl rfl⟩
  obtain ⟨t, hrun, -, hstate⟩ := hserving.request T fuel hheap hs haligned hroom
    recordClass_mul hfuel rfl
  rcases hstate with h | ⟨-, hmutex, hlist, hptr, hserved⟩
  · exact absurd (congrArg HeapUser.answers h) (by simp)
  · refine ⟨⟨fillCpu0Information t.mem
      (requestBlock (R.addr used) recordClass 0), t.globals⟩, ?_,
      ⟨hmutex, hlist, ?_⟩, hptr⟩
    · rw [initCpu0, run_bind_of_ok hrun]
      rfl
    · exact ServedRequests.congr (n := 0) hserved
        ((agreeOff_fillCpu0Information _ _).mono
          (recordRegion_subset (R.addr used) 0))

theorem Cpu0Placed.serves (h : Cpu0Placed T fuel heapFuel R used block heap) :
    block = requestBlock (R.addr used) recordClass 0 ∧
      HeapServes heap (R.addr used) 1 ∧ PoolPointers (R.addr used) := by
  obtain ⟨mem, table, s, hheap, hs, hrun⟩ := h.exists_run
  obtain ⟨t, ht, hserves, hptr⟩ := run_initCpu0 T fuel hheap hs
    h.aligned h.room h.fuel
  rw [hrun, EStateM.Result.ok.injEq] at ht
  obtain ⟨rfl, rfl⟩ := ht
  exact ⟨rfl, hserves, hptr⟩

end

/-- The processors take the blocks in the order of their numbers. -/
structure TakesRecords {ι σ τ α : Type} [Fintype ι] (b : Addr)
    (s : BringUp ι σ τ α) : Prop where
  idle : (∀ i, ¬ (s.smp.phase i).Inside) →
    HeapServes s.heap b (1 + (finished s.smp).card)
  inside : ∀ i, (s.smp.phase i).Inside →
    RequestAt s.heap b (1 + (finished s.smp).card) (s.request i)
  waiting : ∀ i, s.smp.phase i = .waiting → s.request i = .lock
  served : ∀ i, s.smp.phase i ≠ .waiting → s.smp.phase i ≠ .released →
    ∃ block, s.request i = .served block
  record : ∀ i n, s.smp.phase i = .stored n ∨ s.smp.phase i = .started n →
    s.record n = requestBlock b recordClass n.toNat
  boot : s.record 0 = requestBlock b recordClass 0

section

variable {ι σ τ α : Type} [DecidableEq ι] [Fintype ι]
  {P : Processors ι σ τ α} {b : Addr} {s s' : BringUp ι σ τ α}

omit [DecidableEq ι] in
theorem TakesRecords.move (h : TakesRecords b s) {i : ι}
    (hinside : (s'.smp.phase i).Inside)
    (hunique : ∀ j, (s'.smp.phase j).Inside → j = i)
    (hcard : (finished s'.smp).card = (finished s.smp).card)
    (hrequest : RequestAt s'.heap b (1 + (finished s.smp).card) (s'.request i))
    (hserved : s'.smp.phase i ≠ .released → ∃ block, s'.request i = .served block)
    (hphase : ∀ j, j ≠ i → s'.smp.phase j = s.smp.phase j)
    (hothers : ∀ j, j ≠ i → s'.request j = s.request j)
    (hrecord : ∀ j n, s'.smp.phase j = .stored n ∨ s'.smp.phase j = .started n →
      s'.record n = requestBlock b recordClass n.toNat)
    (hboot : s'.record 0 = requestBlock b recordClass 0) :
    TakesRecords b s' := by
  refine ⟨fun hnone => absurd hinside (hnone i), fun j hj => ?_, fun j hj => ?_,
    fun j hj hj' => ?_, hrecord, hboot⟩
  · rw [hunique j hj, hcard]
    exact hrequest
  · have hji : j ≠ i := by
      rintro rfl
      rw [hj] at hinside
      exact hinside
    rw [hothers j hji]
    exact h.waiting j (hphase j hji ▸ hj)
  · by_cases hji : j = i
    · subst hji
      exact hserved hj'
    · rw [hothers j hji]
      rw [hphase j hji] at hj hj'
      exact h.served j hj hj'

omit [DecidableEq ι] in
theorem TakesRecords.congr (h : TakesRecords b s) (hsmp : s'.smp = s.smp)
    (hheap : s'.heap = s.heap) (hrequest : s'.request = s.request)
    (hrecord : s'.record = s.record) : TakesRecords b s' := by
  obtain ⟨smp, boot, sent, paging, heap, request, record⟩ := s'
  subst hsmp hheap hrequest hrecord
  exact ⟨h.idle, h.inside, h.waiting, h.served, h.record, h.boot⟩

/-- A processor leaves the wait loop, or tests its condition once more. -/
theorem TakesRecords.release (h : TakesRecords b s) {i : ι} {t : SmpState ι}
    (hphase : s.smp.phase i = .waiting) (hstep : SmpStep P.lapic s.smp i t)
    (hunique : ∀ i j, (t.phase i).Inside → (t.phase j).Inside → i = j) :
    TakesRecords b { s with smp := t } := by
  rw [SmpStep, OptimistOS.initOtherCPUs, hphase] at hstep
  simp only at hstep
  split_ifs at hstep with hwait <;> obtain rfl := Option.some.inj hstep
  · exact h
  · have hnot : i ∉ finished s.smp := by
      rw [mem_finished, hphase]
      simp
    have hinside : (Function.update s.smp.phase i .released i).Inside := by
      rw [Function.update_self]
      trivial
    refine h.move (i := i) hinside (fun j hj => hunique j i hj hinside) ?_ ?_ ?_
      (fun j hj => Function.update_of_ne hj _ _) (fun j _ => rfl)
      (fun j n hj => h.record j n ?_) h.boot
    · exact congrArg Finset.card
        (finished_update hnot (p := .released) (by simp) rfl)
    · rw [h.waiting i hphase]
      refine h.idle fun j hj => ?_
      have hji : j ≠ i := by
        rintro rfl
        rw [hphase] at hj
        exact hj
      refine hji (hunique j i ?_ hinside)
      change (Function.update s.smp.phase i .released j).Inside
      rwa [Function.update_of_ne hji]
    · intro hne
      exact absurd (Function.update_self i Phase.released s.smp.phase) hne
    · refine hj.imp (fun hj => ?_) fun hj => ?_ <;>
        rcases of_update_eq hj with ⟨-, hp⟩ | ⟨-, hj⟩
      · cases hp
      · exact hj
      · cases hp
      · exact hj

/-- `cpusStarted++`. -/
theorem TakesRecords.increment (h : TakesRecords b s) {i : ι} {n : BitVec 32}
    {t : SmpState ι} (hphase : s.smp.phase i = .stored n)
    (hstep : SmpStep P.lapic s.smp i t)
    (hunique : ∀ i j, (s.smp.phase i).Inside → (s.smp.phase j).Inside → i = j) :
    TakesRecords b { s with smp := t } := by
  rw [SmpStep, OptimistOS.initOtherCPUs, hphase] at hstep
  obtain rfl := Option.some.inj hstep
  have hinside : (s.smp.phase i).Inside := by
    rw [hphase]
    trivial
  have hnot : i ∉ finished s.smp := by
    rw [mem_finished, hphase]
    simp
  have hnone : ∀ j, ¬ (Function.update s.smp.phase i (.started n) j).Inside := by
    intro j hj
    rcases of_update_eq (q := Function.update s.smp.phase i (.started n) j) rfl
      with ⟨-, hp⟩ | ⟨hji, hp⟩
    · rw [← hp] at hj
      exact hj
    · rw [← hp] at hj
      exact hji (hunique j i hj hinside)
  obtain ⟨block, hblock⟩ := h.served i (by rw [hphase]; simp)
    (by rw [hphase]; simp)
  have hrequest := h.inside i hinside
  rw [hblock] at hrequest
  refine ⟨fun _ => ?_, fun j hj => absurd hj (hnone j), fun j hj => ?_,
    fun j hj hj' => ?_, fun j k hj => ?_, h.boot⟩
  · rw [finished_start (s := s.smp) (i := i) (n := n) rfl,
      Finset.card_insert_of_notMem hnot, ← Nat.add_assoc]
    exact hrequest.2
  · rcases of_update_eq hj with ⟨-, hp⟩ | ⟨-, hj⟩
    · cases hp
    · exact h.waiting j hj
  · by_cases hji : j = i
    · exact ⟨block, hji ▸ hblock⟩
    · refine h.served j (fun hw => hj ?_) fun hr => hj' ?_
      · exact (Function.update_of_ne hji _ _).trans hw
      · exact (Function.update_of_ne hji _ _).trans hr
  · rcases hj with hj | hj <;> rcases of_update_eq hj with ⟨hji, hp⟩ | ⟨-, hj⟩
    · cases hp
    · exact h.record j k (.inl hj)
    · obtain rfl := Phase.started.inj hp
      exact h.record j n (.inl (hji ▸ hphase))
    · exact h.record j k (.inr hj)

theorem TakesRecords.request (h : TakesRecords b s) {i : ι}
    (hphase : s.smp.phase i = .released)
    (hunique : ∀ i j, (s.smp.phase i).Inside → (s.smp.phase j).Inside → i = j)
    {heap : Machine 64 (HeapGlobals α)} {request : RequestStage}
    (hrequest : RequestAt heap b (1 + (finished s.smp).card) request) :
    TakesRecords b { s with
      heap := heap
      request := Function.update s.request i request } := by
  have hinside : (s.smp.phase i).Inside := by
    rw [hphase]
    trivial
  refine h.move (i := i) hinside (fun j hj => hunique j i hj hinside) rfl ?_
    (fun hne => absurd hphase hne) (fun j _ => rfl)
    (fun j hj => Function.update_of_ne hj _ _) h.record h.boot
  change RequestAt heap b _ (Function.update s.request i request i)
  rwa [Function.update_self]

/-- The record is filled, and its number is taken. -/
theorem TakesRecords.fill (h : TakesRecords b s) {i : ι} {block : Addr}
    {t : SmpState ι} (hphase : s.smp.phase i = .released)
    (hrequest : s.request i = .served block)
    (hstep : SmpStep P.lapic s.smp i t)
    (hunique : ∀ i j, (t.phase i).Inside → (t.phase j).Inside → i = j) :
    TakesRecords b { s with
      smp := t
      heap := ⟨fillCpuInfo s.heap.mem block (P.lapic i) s.smp.cpusStarted,
        s.heap.globals⟩ } := by
  rw [SmpStep, OptimistOS.initOtherCPUs, hphase] at hstep
  obtain rfl := Option.some.inj hstep
  have hnot : i ∉ finished s.smp := by
    rw [mem_finished, hphase]
    simp
  have hat := h.inside i (by rw [hphase]; trivial)
  rw [hrequest] at hat
  obtain ⟨rfl, hserves⟩ := hat
  have hinside : (Function.update s.smp.phase i
      (.numbered s.smp.cpusStarted) i).Inside := by
    rw [Function.update_self]
    trivial
  refine h.move (i := i) hinside (fun j hj => hunique j i hj hinside) ?_ ?_
    (fun _ => ⟨_, hrequest⟩) (fun j hj => Function.update_of_ne hj _ _)
    (fun j _ => rfl) (fun j n hj => h.record j n ?_) h.boot
  · exact congrArg Finset.card (finished_update hnot
      (p := .numbered s.smp.cpusStarted) (by simp) rfl)
  · change RequestAt _ b _ (s.request i)
    rw [hrequest, Nat.add_comm 1]
    rw [Nat.add_comm 1] at hserves
    exact ⟨rfl, hserves.fill _ _ _⟩
  · refine hj.imp (fun hj => ?_) fun hj => ?_ <;>
      rcases of_update_eq hj with ⟨-, hp⟩ | ⟨-, hj⟩
    · cases hp
    · exact hj
    · cases hp
    · exact hj

/-- The address of the record is stored in the slot of the number. -/
theorem TakesRecords.store (h : TakesRecords b s) (hord : InOrder P.lapic s.smp)
    {i : ι} {n : BitVec 32} {t : SmpState ι}
    (hphase : s.smp.phase i = .numbered n) (hstep : SmpStep P.lapic s.smp i t)
    (hunique : ∀ i j, (s.smp.phase i).Inside → (s.smp.phase j).Inside → i = j) :
    TakesRecords b { s with
      smp := t
      record := Function.update s.record n (s.request i).block } := by
  rw [SmpStep, OptimistOS.initOtherCPUs, hphase] at hstep
  obtain rfl := Option.some.inj hstep
  have hnot : i ∉ finished s.smp := by
    rw [mem_finished, hphase]
    simp
  have hinside : (s.smp.phase i).Inside := by
    rw [hphase]
    trivial
  have hn := hord.inside i n (.inl hphase)
  obtain ⟨block, hblock⟩ := h.served i (by rw [hphase]; simp)
    (by rw [hphase]; simp)
  have hat := h.inside i hinside
  rw [hblock] at hat
  have hiff : ∀ j, (Function.update s.smp.phase i (.stored n) j).Inside →
      j = i := by
    intro j hj
    rcases of_update_eq (q := Function.update s.smp.phase i (.stored n) j) rfl
      with ⟨hji, -⟩ | ⟨-, hp⟩
    · exact hji
    · rw [← hp] at hj
      exact hunique j i hj hinside
  have hnext : ∀ j k, Function.update s.smp.phase i (.stored n) j = .stored k ∨
      Function.update s.smp.phase i (.stored n) j = .started k →
      (j = i ∧ k = n) ∨
        k ≠ n ∧ (s.smp.phase j = .stored k ∨ s.smp.phase j = .started k) := by
    intro j k hj
    rcases hj with hj | hj <;> rcases of_update_eq hj with ⟨hji, hp⟩ | ⟨hji, hk⟩
    · exact .inl ⟨hji, (Phase.stored.inj hp).symm⟩
    · exact absurd (hunique j i (by rw [hk]; trivial) hinside) hji
    · cases hp
    · have hdone := (hord.done j k hk).2
      exact .inr ⟨fun hkn => by rw [hkn] at hdone; omega, .inr hk⟩
  refine h.move (i := i) ?_ hiff ?_ ?_ (fun _ => ⟨block, hblock⟩)
    (fun j hj => Function.update_of_ne hj _ _) (fun j _ => rfl)
    (fun j k hj => ?_) ?_
  · change (Function.update s.smp.phase i (.stored n) i).Inside
    rw [Function.update_self]
    trivial
  · exact congrArg Finset.card
      (finished_update hnot (p := .stored n) (by simp) rfl)
  · change RequestAt _ b _ (s.request i)
    rw [hblock]
    exact hat
  · change Function.update s.record n (s.request i).block k = _
    rcases hnext j k hj with ⟨-, rfl⟩ | ⟨hkn, hj⟩
    · rw [Function.update_self, hblock, hn]
      exact hat.1
    · rw [Function.update_of_ne hkn]
      exact h.record j k hj
  · have hzero : (0 : BitVec 32) ≠ n := by
      rintro rfl
      exact absurd hn (by simp; omega)
    exact (Function.update_of_ne hzero _ _).trans h.boot

/-- Every step keeps the order of the records. -/
theorem TakesRecords.step (h : TakesRecords b s)
    (hord : InOrder P.lapic s.smp) (hinj : Function.Injective P.lapic)
    {bsp : BitVec 32} (hbsp : ∀ i, P.lapic i ≠ bsp) {m : BitVec 32}
    (hm : m = 0 ∨ m = 1) (hmiss : ∀ i, P.lapic i ≠ m) (hptr : PoolPointers b)
    (hfuel : 4 < P.fuel) {c : Option ι} (hstep : P.Step s c s') :
    TakesRecords b s' := by
  have hunique : ∀ {t : SmpState ι}, InOrder P.lapic t →
      ∀ i j, (t.phase i).Inside → (t.phase j).Inside → i = j :=
    fun ht i j hi hj => ht.insideAtMostOne hinj hm hmiss hi hj
  have hord' := Processors.inOrder_step hinj hbsp hm hmiss hord hstep
  have hat : ∀ {i request}, s.smp.phase i = .released → s.request i = request →
      RequestAt s.heap b (1 + (finished s.smp).card) request := by
    intro i request hphase hrequest
    rw [← hrequest]
    exact h.inside i (by rw [hphase]; trivial)
  cases Processors.step_cases hstep with
  | skip | send | sentAll | waitAll | bootDone | paging | waitHeap =>
      exact h.congr rfl rfl rfl rfl
  | smp _ _ hphase hsmp =>
      rcases hphase with hphase | ⟨n, hphase⟩
      · exact h.release hphase hsmp (hunique hord')
      · exact h.increment hphase hsmp (hunique hord)
  | lockHeap _ _ hphase hrequest =>
      have hlock := hat hphase hrequest
      exact h.request hphase (hunique hord) ⟨hlock.freeList, hlock.served⟩
  | search _ _ hphase hrequest hrun =>
      obtain ⟨t, ht, hfinish⟩ := (hat hphase hrequest).search hptr hfuel
      rw [hrun, EStateM.Result.ok.injEq] at ht
      obtain ⟨rfl, rfl⟩ := ht
      exact h.request hphase (hunique hord) hfinish
  | finish _ _ hphase hrequest hrun =>
      have hfinish := hat hphase hrequest
      obtain rfl := hfinish.1
      obtain ⟨t, ht, hserved⟩ := RequestAt.finish hfinish
      rw [hrun, EStateM.Result.ok.injEq] at ht
      obtain ⟨rfl, rfl⟩ := ht
      exact h.request hphase (hunique hord) hserved
  | fill _ _ hphase hrequest hsmp =>
      exact h.fill hphase hrequest hsmp (hunique hord')
  | store _ _ hphase hsmp => exact h.store hord hphase hsmp (hunique hord)

end

end OptimistOS
