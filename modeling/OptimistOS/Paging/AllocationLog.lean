import OptimistOS.Paging.MapStep

/-!
# A log of the frames handed out

The allocator of the paging code with a log beside its globals: the frames that
its calls have returned, and the bytes that they have changed. Without the log
the code does the same (`run_map_eraseLog`). With it, an allocator that
the paging code can rely on tells which memory the code itself has written: all
that changes, but for the allocator's own writes, lies in the frames of the log
and in the table that the code started with (`FrameSource.logged`).
-/

namespace OptimistOS

open ByteMemory ByteMemory.Code PageDirectoryEntry

/-- The frames that `allocateFrame` has returned, the last one first, and the
bytes that its calls have changed. -/
structure AllocationLog where
  frames : List Word
  changed : Set Addr

def besideLog {α β : Type} (x : Code 64 α β) : Code 64 (α × AllocationLog) β :=
  zoom (fun g => g.1) (fun g a => (a, g.2)) x

def FrameAllocator.logged {α : Type} (A : FrameAllocator α) :
    FrameAllocator (α × AllocationLog) where
  allocateFrame size := do
    let before := (← get).mem
    let frame ← besideLog (A.allocateFrame size)
    let after := (← get).mem
    modifyGlobals fun g => (g.1, { frames := frame :: g.2.frames,
                                   changed := g.2.changed ∪
                                     {x | after x ≠ before x} })
    return frame
  toVirtualAddr addr := besideLog (A.toVirtualAddr addr)

section

variable {α β : Type} {A : FrameAllocator α} {s : Machine 64 (α × AllocationLog)}

theorem run_besideLog {x : Code 64 α β} {b : β} {t : Machine 64 α}
    (h : x.run ⟨s.mem, s.globals.1⟩ = .ok b t) :
    (besideLog x).run s = .ok b ⟨t.mem, (t.globals, s.globals.2)⟩ :=
  run_zoom_of_ok h

theorem run_besideLog_error {x : Code 64 α β} {e : Stop} {t : Machine 64 α}
    (h : x.run ⟨s.mem, s.globals.1⟩ = .error e t) :
    (besideLog x).run s = .error e ⟨t.mem, (t.globals, s.globals.2)⟩ :=
  run_zoom_of_error h

theorem run_logged_allocateFrame {size f : Word} {t : Machine 64 α}
    (h : (A.allocateFrame size).run ⟨s.mem, s.globals.1⟩ = .ok f t) :
    (A.logged.allocateFrame size).run s =
      .ok f ⟨t.mem, (t.globals, { frames := f :: s.globals.2.frames,
                                  changed := s.globals.2.changed ∪
                                    {x | t.mem x ≠ s.mem x} })⟩ := by
  simp only [FrameAllocator.logged, EStateM.run_bind, EStateM.run_get,
    run_besideLog h,
    run_modifyGlobals, EStateM.run_pure]

theorem run_logged_allocateFrame_error {size : Word} {e : Stop}
    {t : Machine 64 α}
    (h : (A.allocateFrame size).run ⟨s.mem, s.globals.1⟩ = .error e t) :
    (A.logged.allocateFrame size).run s =
      .error e ⟨t.mem, (t.globals, s.globals.2)⟩ := by
  simp only [FrameAllocator.logged, EStateM.run_bind, EStateM.run_get,
    run_besideLog_error h]

end

/-! ### The log is not seen by the code -/

def eraseLog {α : Type} (s : Machine 64 (PagingGlobals (α × AllocationLog))) :
    Machine 64 (PagingGlobals α) :=
  ⟨s.mem, ⟨s.globals.PML4, s.globals.kernelPML4, s.globals.hhdmOffset,
    s.globals.frames.1⟩⟩

def Erases {α β : Type} (x : Code 64 (PagingGlobals (α × AllocationLog)) β)
    (y : Code 64 (PagingGlobals α) β) : Prop :=
  ∀ s, y.run (eraseLog s) =
    match x.run s with
    | .ok b t => .ok b (eraseLog t)
    | .error e t => .error e (eraseLog t)

namespace Erases

variable {α β γ : Type} {x : Code 64 (PagingGlobals (α × AllocationLog)) β}
  {y : Code 64 (PagingGlobals α) β}

theorem pure (b : β) : Erases (α := α) (Pure.pure b) (Pure.pure b) :=
  fun _ => rfl

theorem throw (e : Stop) :
    Erases (α := α) (β := β) (MonadExcept.throw e) (MonadExcept.throw e) :=
  fun _ => rfl

theorem modifyMem (f : Bytes → Bytes) :
    Erases (α := α) (Code.modifyMem f) (Code.modifyMem f) := fun _ => rfl

theorem bind {f : β → Code 64 (PagingGlobals (α × AllocationLog)) γ}
    {g : β → Code 64 (PagingGlobals α) γ} (h : Erases x y)
    (hf : ∀ b, Erases (f b) (g b)) : Erases (x >>= f) (y >>= g) := by
  intro s
  have hs := h s
  rw [EStateM.run_bind, EStateM.run_bind, hs]
  cases x.run s with
  | ok b t => exact hf b t
  | error e t => rfl

theorem get_bind {f : Machine 64 (PagingGlobals (α × AllocationLog)) →
      Code 64 (PagingGlobals (α × AllocationLog)) γ}
    {g : Machine 64 (PagingGlobals α) → Code 64 (PagingGlobals α) γ}
    (hf : ∀ s, Erases (f s) (g (eraseLog s))) :
    Erases (get >>= f) (get >>= g) :=
  fun s => hf s s

theorem ite {c : Prop} [Decidable c]
    {x' : Code 64 (PagingGlobals (α × AllocationLog)) β}
    {y' : Code 64 (PagingGlobals α) β} (h : Erases x y) (h' : Erases x' y') :
    Erases (if c then x else x') (if c then y else y') := by
  split_ifs
  · exact h
  · exact h'

theorem setPML4 (PML4 : Word) :
    Erases (α := α) (modifyGlobals fun g => { g with PML4 := PML4 })
      (modifyGlobals fun g => { g with PML4 := PML4 }) := fun _ => rfl

theorem callFrames_besideLog (z : Code 64 α β) :
    Erases (callFrames (besideLog z)) (callFrames z) := by
  intro s
  cases h : z.run ⟨s.mem, s.globals.frames.1⟩ with
  | ok b t =>
      rw [run_callFrames_ok (s := s) (run_besideLog h),
        run_callFrames_ok (s := eraseLog s) h]
      rfl
  | error e t =>
      rw [run_callFrames_error (s := s) (run_besideLog_error h),
        run_callFrames_error (s := eraseLog s) h]
      rfl

theorem allocateFrame (A : FrameAllocator α) (size : Word) :
    Erases (callFrames (A.logged.allocateFrame size))
      (callFrames (A.allocateFrame size)) := by
  intro s
  cases h : (A.allocateFrame size).run ⟨s.mem, s.globals.frames.1⟩ with
  | ok f t =>
      rw [run_callFrames_ok (s := s) (run_logged_allocateFrame h),
        run_callFrames_ok (s := eraseLog s) h]
      rfl
  | error e t =>
      rw [run_callFrames_error (s := s) (run_logged_allocateFrame_error h),
        run_callFrames_error (s := eraseLog s) h]
      rfl

variable (A : FrameAllocator α)

theorem getNextLevelPointer (entry : Addr) (allocate : Bool) :
    Erases (OptimistOS.getNextLevelPointer A.logged entry allocate)
      (OptimistOS.getNextLevelPointer A entry allocate) := by
  have hlast : ∀ next : Word, Erases (α := α)
      (if next ≠ 0 then Pure.pure next else MonadExcept.throw .halt)
      (if next ≠ 0 then Pure.pure next else MonadExcept.throw .halt) :=
    fun next => ite (pure next) (throw .halt)
  refine get_bind fun s => ite (c := isValid (word s.mem entry) = true)
    ((pure _).bind hlast) (ite (c := allocate = true) ?_
      ((throw .halt).bind hlast))
  exact (allocateFrame A _).bind fun next => (modifyMem _).bind fun _ =>
    (modifyMem _).bind fun _ => (modifyMem _).bind fun _ =>
      (modifyMem _).bind fun _ => (pure next).bind hlast

theorem nextTable (entry : Addr) :
    Erases (OptimistOS.nextTable A.logged entry)
      (OptimistOS.nextTable A entry) := by
  refine (getNextLevelPointer A entry true).bind fun next => ?_
  exact (callFrames_besideLog (A.toVirtualAddr next)).bind fun table =>
    ite (throw .halt) (pure table)

theorem virtualAddrToPTE (v flags : Word) :
    Erases (OptimistOS.virtualAddrToPTE A.logged v flags)
      (OptimistOS.virtualAddrToPTE A v flags) := by
  refine get_bind fun s => ?_
  refine ite (c := s.globals.PML4 = 0) (pure 0) ?_
  refine (callFrames_besideLog (A.toVirtualAddr s.globals.PML4)).bind
    fun PML4 => (setPML4 PML4).bind fun _ => ?_
  refine (nextTable A _).bind fun PML3 =>
    (setPML4 s.globals.PML4).bind fun _ => ?_
  refine (nextTable A _).bind fun PML2 => ?_
  exact ite (c := flags &&& PageTableFlag.largerPages ≠ 0) (pure _)
    ((nextTable A _).bind fun PML1 => pure _)

theorem map (physicalAddr v flags : Word) :
    Erases (OptimistOS.map A.logged physicalAddr v flags)
      (OptimistOS.map A physicalAddr v flags) :=
  (virtualAddrToPTE A v flags).bind fun _ =>
    ite ((modifyMem _).bind fun _ => (modifyMem _).bind fun _ => pure true)
      (pure false)

end Erases

theorem run_map_eraseLog {α : Type} (A : FrameAllocator α)
    (physicalAddr v flags : Word)
    {s : Machine 64 (PagingGlobals (α × AllocationLog))} {b : Bool}
    {t : Machine 64 (PagingGlobals α)} :
    (map A physicalAddr v flags).run (eraseLog s) = .ok b t ↔
      ∃ u, (map A.logged physicalAddr v flags).run s = .ok b u ∧
        t = eraseLog u := by
  rw [Erases.map A physicalAddr v flags s]
  cases (map A.logged physicalAddr v flags).run s with
  | ok c u => simp [eq_comm]
  | error e u => simp

/-! ### What the log shows -/

theorem notMem_frameBytes {hhdmOffset d : Word} {frames : List Word} {x : Addr}
    (hd : IsTableFrame hhdmOffset d)
    (hframes : ∀ f ∈ frames, IsTableFrame hhdmOffset f) (hnot : d ∉ frames)
    (hx : x ∈ region (d + hhdmOffset) 4096) : x ∉ frameBytes hhdmOffset frames := by
  rintro ⟨f, hf, hx'⟩
  have hne : d ≠ f := fun hc => hnot (hc ▸ hf)
  exact Set.disjoint_left.1 (disjoint_region_add hhdmOffset
    (disjoint_region_of_aligned (by decide : 4096 ∣ 2 ^ 64) hd.aligned
      (hframes f hf).aligned hne)) hx hx'

/-- A machine that has gone on from the memory `m₀` with the table `root`. But
for the allocator's own writes only the frames of the log and `root` have
changed, and the frames in `data` are none of them. -/
structure LoggedReady {α : Type} {A : FrameAllocator α} {hhdmOffset : Word}
    (S : FrameSource A hhdmOffset) (root : Word) (m₀ : Bytes)
    (data : List Word) (n : ℕ) (s : Machine 64 (α × AllocationLog))
    (frames : List Word) : Prop where
  frames_eq : frames = s.globals.2.frames ++ [root]
  agreeOff : AgreeOff (frameBytes hhdmOffset frames ∪ s.globals.2.changed) m₀
    s.mem
  ready : ∃ base, S.Ready n ⟨s.mem, s.globals.1⟩ base ∧ frames ⊆ base ∧
    data ⊆ base
  notMem : ∀ d ∈ data, d ∉ frames
  data_eq : ∀ x ∈ frameBytes hhdmOffset data, s.mem x = m₀ x

section

variable {α : Type} {A : FrameAllocator α} {hhdmOffset : Word}
  {S : FrameSource A hhdmOffset} {root : Word} {m₀ : Bytes} {data : List Word}
  {n : ℕ} {s : Machine 64 (α × AllocationLog)} {frames : List Word}

theorem LoggedReady.allocateFrame (h : LoggedReady S root m₀ data n s frames) :
    (∃ f s', (A.logged.allocateFrame 0x1000).run s = .ok f s' ∧
        FreshFrame hhdmOffset frames s.mem f s'.mem ∧
        LoggedReady S root m₀ data (n - 1) s' (f :: frames)) ∨
      n = 0 ∧ ∃ e s', (A.logged.allocateFrame 0x1000).run s = .error e s' := by
  obtain ⟨base, hready, hframes, hdata⟩ := h.ready
  rcases S.allocateFrame n _ base hready with
    ⟨f, t, hrun, hfresh, hready'⟩ | ⟨hn, e, t, hrun⟩
  · have hkept : ∀ l ⊆ base, ∀ x ∈ frameBytes hhdmOffset l, t.mem x = s.mem x :=
      fun l hl x ⟨g, hg, hx⟩ => hfresh.kept x ⟨g, hl hg, hx⟩
    refine Or.inl ⟨f, _, run_logged_allocateFrame hrun, ⟨hfresh.frame,
      fun hf => hfresh.notMem (hframes hf), hfresh.zero, hkept frames hframes⟩,
      by rw [h.frames_eq]; rfl, fun x hx => ?_, ⟨f :: base, hready',
        List.cons_subset_cons f hframes, List.subset_cons_of_subset f hdata⟩,
      fun d hd hf => ?_, fun x hx => (hkept data hdata x hx).trans
        (h.data_eq x hx)⟩
    · have hsame : t.mem x = s.mem x := by
        by_contra hne
        exact hx (Or.inr (Or.inr hne))
      rw [hsame]
      refine h.agreeOff x fun hmem => hx ?_
      rcases hmem with ⟨g, hg, hx'⟩ | hmem
      · exact Or.inl ⟨g, List.mem_cons_of_mem f hg, hx'⟩
      · exact Or.inr (Or.inl hmem)
    · rcases List.mem_cons.1 hf with rfl | hf
      · exact hfresh.notMem (hdata hd)
      · exact h.notMem d hd hf
  · exact Or.inr ⟨hn, e, _, run_logged_allocateFrame_error hrun⟩

theorem LoggedReady.write (h : LoggedReady S root m₀ data n s frames) {m' : Bytes}
    (hm : AgreeOff (frameBytes hhdmOffset frames) s.mem m') :
    LoggedReady S root m₀ data n { s with mem := m' } frames := by
  obtain ⟨base, hready, hframes, hdata⟩ := h.ready
  have hframe := S.frame _ _ _ hready
  refine ⟨h.frames_eq, fun x hx => ?_, ⟨base, S.write _ _ _ _ hready (hm.mono
    fun x ⟨f, hf, hx⟩ => ⟨f, hframes hf, hx⟩), hframes, hdata⟩, h.notMem,
    fun x hx => ?_⟩
  · exact (h.agreeOff x hx).trans (hm x fun hmem => hx (Or.inl hmem))
  · obtain ⟨d, hd, hx'⟩ := hx
    have hnot := notMem_frameBytes (hframe d (hdata hd))
      (fun f hf => hframe f (hframes hf)) (h.notMem d hd) hx'
    exact (hm x hnot).symm.trans (h.data_eq x ⟨d, hd, hx'⟩)

variable (S root m₀ data) in
/-- The allocator with its log is one that the paging code can rely on. -/
def FrameSource.logged : FrameSource A.logged hhdmOffset where
  Ready := LoggedReady S root m₀ data
  allocateFrame _ _ _ h := h.allocateFrame
  toVirtualAddr n s frames h _ a ha := by
    obtain ⟨base, hready, hframes, -⟩ := h.ready
    have hroot : root ∈ base := hframes (by rw [h.frames_eq]; simp)
    exact run_besideLog (S.toVirtualAddr n _ base hready
      (List.ne_nil_of_mem hroot) a ha)
  write _ _ _ _ h hm := h.write hm
  mono n k s frames h hk := by
    obtain ⟨base, hready, hsub⟩ := h.ready
    exact ⟨h.frames_eq, h.agreeOff, ⟨base, S.mono _ _ _ _ hready hk, hsub⟩,
      h.notMem, h.data_eq⟩
  frame n s frames h f hf := by
    obtain ⟨base, hready, hframes, -⟩ := h.ready
    exact S.frame _ _ _ hready f (hframes hf)

end

end OptimistOS
