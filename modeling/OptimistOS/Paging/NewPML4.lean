import OptimistOS.Paging.KernelFrames
import OptimistOS.Paging.Levels

/-!
# A new top level table

`newPML4` of `paging.cpp`: the entries 256 to 511 and the entry 0 of the current
top level table are copied once into a fresh frame. The other entries of the
copy are blank, and no table changes (`returns_newPML4`).
-/

namespace OptimistOS

open ByteMemory ByteMemory.Code PageDirectoryEntry

def copyEntry (newPML4 pml4 : Addr) (m : Bytes) (i : ℕ) : Bytes :=
  storeWord m (entryPointer newPML4 (BitVec.ofNat 64 i))
    (word m (entryPointer pml4 (BitVec.ofNat 64 i)))

def newPML4 {α : Type} (A : FrameAllocator α)
    (toPhysicalAddr : Addr → Code 64 α Word) :
    Code 64 (PagingGlobals α) Word := do
  let frame ← callFrames (A.allocateFrame 0x1000)
  let newPML4 ← callFrames (A.toVirtualAddr frame)
  let PML4 := (← get).globals.PML4
  let pml4 ← callFrames (A.toVirtualAddr PML4)
  modifyMem fun m => (List.range' 256 256).foldl (copyEntry newPML4 pml4) m
  modifyMem fun m => copyEntry newPML4 pml4 m 0
  callFrames (toPhysicalAddr newPML4)

/-- What `newPML4` relies on beyond the other code: pointers into the direct map
are taken back to physical addresses. -/
def TakesBack {α : Type} {A : FrameAllocator α} {hhdmOffset : Word}
    (S : FrameSource A hhdmOffset) (toPhysicalAddr : Addr → Code 64 α Word) :
    Prop :=
  ∀ n s frames, S.Ready n s frames → frames ≠ [] → ∀ a,
    (toPhysicalAddr a).run s = .ok (a - hhdmOffset) s

theorem run_toPhysicalAddr_bump {τ : Type} {R : UsableRegion}
    {s : FrameMachine τ} {used : ℕ} (hs : BumpState R s used) (a : Addr) :
    (toPhysicalAddr a).run s = .ok (a - R.hhdmOffset) s := by
  have hload : (if s.globals.bootInformation.memory.hhdmOffset = 0 then
      { s.globals with bootInformation := s.globals.globalBootInfo }
      else s.globals) = s.globals := by
    rw [← hs.copy]
    exact ite_self _
  have hrun : (loadBootInfo : Code 64 (FrameGlobals τ) Unit).run s =
      .ok () s := by
    rw [loadBootInfo, run_modifyGlobals, hload]
  rw [toPhysicalAddr, run_bind_of_ok hrun, EStateM.run_bind, EStateM.run_get]
  simp only [EStateM.run_pure, hs.copy, hs.info]

theorem takesBack_kernelSource {τ : Type} (T : SizeTable τ) (fuel : ℕ)
    (R : UsableRegion) (hlow : R.start.toNat + R.length.toNat ≤ 2 ^ 52) :
    TakesBack (kernelSource T fuel R hlow) toPhysicalAddr := by
  rintro n s frames ⟨mem, table, used, hs, -, -, hpages⟩ hne a
  obtain ⟨f, hf⟩ := List.exists_mem_of_ne_nil _ hne
  obtain ⟨o, -, -, hle⟩ := hpages f hf
  rcases hs with ⟨rfl, -⟩ | hs
  · omega
  · exact run_toPhysicalAddr_bump hs a

section

variable {hhdmOffset f root : Word} {m : Bytes}

theorem entryPointer_ofNat (t : Word) {i : ℕ} (hi : i < 512) :
    entryPointer (t + hhdmOffset) (BitVec.ofNat 64 i) =
      tableSlot hhdmOffset t (BitVec.ofNat 9 i) := by
  have hnat : (BitVec.ofNat 9 i).toNat = i := by
    rw [BitVec.toNat_ofNat]
    omega
  rw [entryPointer, tableSlot, hnat, BitVec.ofNat_mul]
  rfl

theorem tableEntry_copyEntry (hf : f.toNat % 4096 = 0) {i : ℕ}
    (hi : i < 512) {t : Word} (ht : t.toNat % 4096 = 0) (j : BitVec 9) :
    tableEntry (copyEntry (f + hhdmOffset) (root + hhdmOffset) m i) hhdmOffset
        t j =
      if t = f ∧ j.toNat = i then tableEntry m hhdmOffset root j
      else tableEntry m hhdmOffset t j := by
  have hj : j.toNat = i ↔ j = BitVec.ofNat 9 i := by
    rw [← BitVec.toNat_inj, BitVec.toNat_ofNat, Nat.mod_eq_of_lt hi]
  rw [copyEntry, entryPointer_ofNat f hi, entryPointer_ofNat root hi]
  split_ifs with h
  · obtain ⟨rfl, hji⟩ := h
    rw [← hj.1 hji]
    exact word_storeWord _ _ _ (by decide)
  · exact word_congr (agreeOff_storeWord _ _ _) (by decide)
      (disjoint_tableSlot_of_aligned ht hf fun hc => h ⟨hc.1, hj.2 hc.2⟩)

variable (hhdmOffset f root m) in
theorem agreeOff_copyEntry {i : ℕ} (hi : i < 512) :
    AgreeOff (region (f + hhdmOffset) 4096) m
      (copyEntry (f + hhdmOffset) (root + hhdmOffset) m i) := by
  rw [copyEntry, entryPointer_ofNat f hi]
  exact (agreeOff_storeWord _ _ _).mono (region_tableSlot_subset hhdmOffset f _)

theorem tableEntry_foldl_copyEntry (hf : f.toNat % 4096 = 0)
    (hroot : root.toNat % 4096 = 0) (hne : root ≠ f) (is : List ℕ)
    (his : ∀ i ∈ is, i < 512) {t : Word} (ht : t.toNat % 4096 = 0)
    (j : BitVec 9) :
    tableEntry (is.foldl (copyEntry (f + hhdmOffset) (root + hhdmOffset)) m)
        hhdmOffset t j =
      if t = f ∧ j.toNat ∈ is then tableEntry m hhdmOffset root j
      else tableEntry m hhdmOffset t j := by
  induction is generalizing m with
  | nil => simp
  | cons i is ih =>
      have hi := his i List.mem_cons_self
      rw [List.foldl_cons, ih fun i hi => his i (List.mem_cons_of_mem _ hi),
        tableEntry_copyEntry hf hi hroot, tableEntry_copyEntry hf hi ht,
        if_neg fun h : root = f ∧ _ => hne h.1]
      by_cases htf : t = f
      · by_cases hji : j.toNat = i <;> simp [htf, hji]
      · simp [htf]

variable (hhdmOffset f root m) in
theorem agreeOff_foldl_copyEntry (is : List ℕ) (his : ∀ i ∈ is, i < 512) :
    AgreeOff (region (f + hhdmOffset) 4096) m
      (is.foldl (copyEntry (f + hhdmOffset) (root + hhdmOffset)) m) := by
  induction is generalizing m with
  | nil => exact AgreeOff.refl _ _
  | cons i is ih =>
      have hrest := ih (m := copyEntry (f + hhdmOffset) (root + hhdmOffset) m i)
        fun i hi => his i (List.mem_cons_of_mem _ hi)
      have hfirst := agreeOff_copyEntry hhdmOffset f root m
        (his i List.mem_cons_self)
      rw [List.foldl_cons]
      simpa using hfirst.trans hrest

def copyTable (newPML4 pml4 : Addr) (m : Bytes) : Bytes :=
  copyEntry newPML4 pml4
    ((List.range' 256 256).foldl (copyEntry newPML4 pml4) m) 0

theorem lt_of_mem_range' {i : ℕ} (hi : i ∈ List.range' 256 256) : i < 512 := by
  have hlt := (List.mem_range'_1.1 hi).2
  omega

variable (hhdmOffset f root m) in
theorem agreeOff_copyTable :
    AgreeOff (region (f + hhdmOffset) 4096) m
      (copyTable (f + hhdmOffset) (root + hhdmOffset) m) := by
  have hupper := agreeOff_foldl_copyEntry hhdmOffset f root m
    (List.range' 256 256) fun _ => lt_of_mem_range'
  have hlower := agreeOff_copyEntry hhdmOffset f root ((List.range' 256
    256).foldl (copyEntry (f + hhdmOffset) (root + hhdmOffset)) m)
      (by decide : 0 < 512)
  rw [copyTable]
  simpa using hupper.trans hlower

theorem tableEntry_copyTable (hf : f.toNat % 4096 = 0)
    (hroot : root.toNat % 4096 = 0) (hne : root ≠ f) {t : Word}
    (ht : t.toNat % 4096 = 0) (j : BitVec 9) :
    tableEntry (copyTable (f + hhdmOffset) (root + hhdmOffset) m) hhdmOffset t
        j =
      if t = f ∧ (256 ≤ j.toNat ∨ j.toNat = 0) then
        tableEntry m hhdmOffset root j
      else tableEntry m hhdmOffset t j := by
  have hj : j.toNat ∈ List.range' 256 256 ↔ 256 ≤ j.toNat := by
    have hlt := j.isLt
    rw [List.mem_range'_1]
    omega
  rw [copyTable, tableEntry_copyEntry hf (by decide) ht,
    tableEntry_foldl_copyEntry hf hroot hne _ (fun _ => lt_of_mem_range') hroot,
    tableEntry_foldl_copyEntry hf hroot hne _ (fun _ => lt_of_mem_range') ht,
    if_neg fun h : root = f ∧ _ => hne h.1]
  by_cases htf : t = f
  · by_cases hzero : j.toNat = 0 <;> simp [htf, hzero, hj]
  · simp [htf]

end

theorem run_newPML4 {α : Type} {A : FrameAllocator α} {hhdmOffset f root : Word}
    {toPhysicalAddr : Addr → Code 64 α Word} {s : Machine 64 (PagingGlobals α)}
    {s₁ : Machine 64 α} (hroot : s.globals.PML4 = root)
    (hrun : (A.allocateFrame 0x1000).run ⟨s.mem, s.globals.frames⟩ = .ok f s₁)
    (hf : (A.toVirtualAddr f).run s₁ = .ok (f + hhdmOffset) s₁)
    (hpml4 : (A.toVirtualAddr root).run s₁ = .ok (root + hhdmOffset) s₁)
    (hback : (toPhysicalAddr (f + hhdmOffset)).run
        ⟨copyTable (f + hhdmOffset) (root + hhdmOffset) s₁.mem, s₁.globals⟩ =
      .ok f ⟨copyTable (f + hhdmOffset) (root + hhdmOffset) s₁.mem,
        s₁.globals⟩) :
    (newPML4 A toPhysicalAddr).run s =
      .ok f ⟨copyTable (f + hhdmOffset) (root + hhdmOffset) s₁.mem,
        { s.globals with frames := s₁.globals }⟩ := by
  subst hroot
  obtain ⟨m₁, hm₁⟩ : ∃ m, (List.range' 256 256).foldl
    (copyEntry (f + hhdmOffset) (s.globals.PML4 + hhdmOffset)) s₁.mem = m :=
    ⟨_, rfl⟩
  obtain ⟨m₂, hm₂⟩ : ∃ m, copyEntry (f + hhdmOffset)
    (s.globals.PML4 + hhdmOffset) m₁ 0 = m := ⟨_, rfl⟩
  rw [copyTable, hm₁, hm₂] at hback ⊢
  rw [newPML4, run_bind_of_ok (run_callFrames_ok hrun),
    run_bind_of_ok (run_callFrames_ok hf), EStateM.run_bind, EStateM.run_get]
  dsimp only
  rw [run_bind_of_ok (run_callFrames_ok hpml4), EStateM.run_bind, run_modifyMem]
  simp only [hm₁]
  rw [EStateM.run_bind, run_modifyMem]
  simp only [hm₂]
  exact run_callFrames_ok (s := ⟨m₂, { s.globals with frames := s₁.globals }⟩)
    hback

/-- `p` is a new table with a copy of the entries 0 and 256 to 511 of `root`, and
no table in `frames` has changed. -/
structure CopiesTable {α : Type} (hhdmOffset root : Word)
    (s : Machine 64 (PagingGlobals α)) (frames : List Word) (p : Word)
    (s' : Machine 64 (PagingGlobals α)) : Prop where
  notMem : p ∉ frames
  globals : SameGlobals s s'
  kept : ∀ t ∈ frames, ∀ j,
    tableEntry s'.mem hhdmOffset t j = tableEntry s.mem hhdmOffset t j
  entry : ∀ j, tableEntry s'.mem hhdmOffset p j =
    if 256 ≤ j.toNat ∨ j.toNat = 0 then tableEntry s.mem hhdmOffset root j
    else 0

/-- `newPML4` returns a copy of the current top level table. -/
theorem returns_newPML4 {α : Type} {A : FrameAllocator α} {hhdmOffset : Word}
    {S : FrameSource A hhdmOffset} {toPhysicalAddr : Addr → Code 64 α Word}
    {root : Word} {n : ℕ} {s : Machine 64 (PagingGlobals α)}
    {frames : List Word} {level : Word → Option ℕ}
    (h : Leveled S root n s frames level) (hroot : s.globals.PML4 = root)
    (hback : TakesBack S toPhysicalAddr) :
    (newPML4 A toPhysicalAddr).Returns s (n = 0) fun p s' =>
      CopiesTable hhdmOffset root s frames p s' ∧ level p = none ∧
        Leveled S root (n - 1) s' (p :: frames) level := by
  have hrootFrame := h.levels.frame root h.levels.root_mem
  rcases S.allocateFrame n _ frames h.ready with
    ⟨f, s₁, hrun, hfresh, hready⟩ | ⟨hn, e, s₁, hrun⟩
  · have hne : root ≠ f := by
      rintro rfl
      exact hfresh.notMem h.levels.root_mem
    have hlevel : level f = none := by
      cases hf : level f with
      | none => rfl
      | some k => exact absurd (h.levels.owned f k hf) hfresh.notMem
    let s' : Machine 64 (PagingGlobals α) :=
      ⟨copyTable (f + hhdmOffset) (root + hhdmOffset) s₁.mem,
        { s.globals with frames := s₁.globals }⟩
    have hready' : S.Ready (n - 1) ⟨s'.mem, s'.globals.frames⟩ (f :: frames) :=
      S.write _ _ _ _ hready ((agreeOff_copyTable hhdmOffset f root s₁.mem).mono
        fun x hx => ⟨f, List.mem_cons_self, hx⟩)
    have hentry := fun {t : Word} (ht : t.toNat % 4096 = 0) (j : BitVec 9) =>
      @tableEntry_copyTable hhdmOffset f root s₁.mem hfresh.frame.aligned
        hrootFrame.aligned hne t ht j
    have hkept : ∀ t ∈ frames, ∀ j,
        tableEntry s'.mem hhdmOffset t j = tableEntry s.mem hhdmOffset t j := by
      intro t ht j
      have htf : t ≠ f := by
        rintro rfl
        exact hfresh.notMem ht
      rw [hentry (h.levels.frame t ht).aligned j, if_neg fun hc => htf hc.1,
        tableEntry_congr hfresh.kept ht]
    have hblank := tableEntry_of_zero hfresh.zero
    refine .of_ok (a := f) (t := s') ?_ ⟨⟨hfresh.notMem, rfl, hkept,
      fun j => ?_⟩, hlevel, hready', ?_, fun t k ht => ?_, h.levels.level_root,
      fun t k i ht hvalid hpage => ?_⟩
    · have hp := hback _ _ _ hready' (by simp) (f + hhdmOffset)
      rw [BitVec.add_sub_cancel] at hp
      exact run_newPML4 hroot hrun
        (S.toVirtualAddr _ _ _ hready (by simp) f hfresh.frame.ne_neg_one)
        (S.toVirtualAddr _ _ _ hready (by simp) root hrootFrame.ne_neg_one) hp
    · rw [hentry hfresh.frame.aligned j, hblank,
        tableEntry_congr hfresh.kept h.levels.root_mem]
      simp
    · intro g hg
      rcases List.mem_cons.1 hg with rfl | hg
      · exact hfresh.frame
      · exact h.levels.frame g hg
    · exact List.mem_cons_of_mem f (h.levels.owned t k ht)
    · have htmem := h.levels.owned t _ ht
      change isValid (tableEntry s'.mem hhdmOffset t i) = true at hvalid
      change k = 0 → isPage (tableEntry s'.mem hhdmOffset t i) = false at hpage
      change level (getAddress (tableEntry s'.mem hhdmOffset t i)) = some k
      rw [hkept t htmem i] at hvalid hpage ⊢
      exact h.levels.below t k i ht hvalid hpage
  · refine Or.inr ⟨hn, e, ⟨s₁.mem, { s.globals with frames := s₁.globals }⟩, ?_⟩
    rw [newPML4, run_bind_of_error (run_callFrames_error hrun)]

end OptimistOS
