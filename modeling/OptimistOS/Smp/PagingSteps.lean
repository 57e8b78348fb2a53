import OptimistOS.Foundation.SpinLock
import OptimistOS.Paging.OtherTables

/-!
# The steps of `initPaging`

The application processors call `initPaging` one after the other, behind its
lock. Here the code between the lock and the unlock is cut into steps: one call
of `map` at a time. The steps of a whole section are a run of `initTables` and a
load of `cr3` (`performs_of_run`). The boot processor has been through
`initPaging` before.
-/

namespace OptimistOS

open ByteMemory ByteMemory.Code Transition

/-- What the processors share, and what `initPaging` has put into their `cr3`;
the boot processor is `none`. -/
structure PagedProcessors (ι α : Type) where
  machine : Machine 64 (PagingGlobals α)
  cr3 : Option ι → Option Word

inductive PagingPoint
  | init
  | identity (i : Word)
  | direct (i : Word)
  | memmap
  | kernel (i : Word)
  | load
  | unlock
  deriving DecidableEq

/-- Run code of `paging.cpp` and go on at the point `next`. -/
def PagedProcessors.call {ι α : Type} (v : PagedProcessors ι α)
    (x : Code 64 (PagingGlobals α) Unit) (next : PagingPoint) :
    Option (PagingPoint × PagedProcessors ι α) :=
  match x.run v.machine with
  | .ok _ t => some (next, { v with machine := t })
  | .error _ _ => none

def BootResponses.kernelStart (r : BootResponses) : Word :=
  roundDown r.KERNEL_BLOB_BEGIN pageSize4KB

/-- Where it ends. -/
def BootResponses.kernelEnd (r : BootResponses) : Word :=
  r.kernelStart + roundUp
    (r.KERNEL_BLOB_SIZE + (r.KERNEL_BLOB_BEGIN - r.kernelStart)) pageSize4KB

section

variable {ι α : Type} [DecidableEq ι] (A : FrameAllocator α) (fuel : ℕ)
  (r : BootResponses)

/-- `init` and the offset of the direct map. -/
def startTables : Code 64 (PagingGlobals α) Unit := do
  init A
  modifyGlobals fun g => { g with hhdmOffset := r.hhdmOffset }

/-- A call of `map` whose result is not looked at. -/
def mapPage (physicalAddr virtualAddr flags : Word) :
    Code 64 (PagingGlobals α) Unit := do
  let _ ← map A physicalAddr virtualAddr flags
  return ()

def pagingStep (i : ι) (t : PagingPoint) (v : PagedProcessors ι α) :
    Option (PagingPoint × PagedProcessors ι α) :=
  match t with
  | .init => v.call (startTables A r) (.identity 0)
  | .identity k =>
      if k < _4GB then
        v.call (mapPage A k k (kernelFlags ||| PageTableFlag.largerPages))
          (.direct k)
      else
        some (.memmap, v)
  | .direct k =>
      v.call
        (mapPage A k (k + r.hhdmOffset)
          (kernelFlags ||| PageTableFlag.largerPages))
        (.identity (k + _2MB))
  | .memmap =>
      v.call (mapMemmap A fuel r.hhdmOffset r.memmap) (.kernel r.kernelStart)
  | .kernel k =>
      if k < r.kernelEnd then
        v.call (mapPage A (k - r.virtualBase + r.physicalBase) k kernelFlags)
          (.kernel (k + pageSize4KB))
      else
        some (.load, v)
  | .load =>
      if v.machine.globals.PML4 = 0 then
        none
      else
        some (.unlock, { v with
          cr3 := Function.update v.cr3 (some i) (some v.machine.globals.PML4) })
  | .unlock => none

def initPagingBody : Bodies ι (PagedProcessors ι α) PagingPoint where
  start _ := .init
  step := pagingStep A fuel r
  ended t := decide (t = .unlock)

variable {A fuel r} {v : PagedProcessors ι α} {t : Machine 64 (PagingGlobals α)}
  {x : Code 64 (PagingGlobals α) Unit} {next : PagingPoint} {i : ι}

omit [DecidableEq ι] in
theorem call_of_ok (h : x.run v.machine = .ok () t) :
    v.call x next = some (next, { v with machine := t }) := by
  rw [PagedProcessors.call, h]

omit [DecidableEq ι] in
theorem call_eq_some {y : PagingPoint × PagedProcessors ι α}
    (h : v.call x next = some y) :
    ∃ t, x.run v.machine = .ok () t ∧ y = (next, { v with machine := t }) := by
  rw [PagedProcessors.call] at h
  cases hx : x.run v.machine with
  | ok u t =>
      rw [hx] at h
      exact ⟨t, rfl, (Option.some.inj h).symm⟩
  | error e t =>
      rw [hx] at h
      exact absurd h (by simp)

theorem exists_steps_forLoop {body : Word → Code 64 (PagingGlobals α) Unit}
    {bound step : Word} {point : Word → PagingPoint}
    (hbody : ∀ k (v : PagedProcessors ι α) t, k < bound →
      (body k).run v.machine = .ok () t →
      ∃ n, (initPagingBody A fuel r).Steps i n (point k, v)
        (point (k + step), { v with machine := t })) :
    ∀ n k (v : PagedProcessors ι α),
      (forLoop body bound step n k).run v.machine = .ok () t →
      ∃ m k', ¬ k' < bound ∧ (initPagingBody A fuel r).Steps i m (point k, v)
        (point k', { v with machine := t }) := by
  intro n
  induction n with
  | zero =>
      intro k v h
      by_cases hk : k < bound
      · rw [forLoop, if_pos hk] at h
        exact absurd h (by simp)
      · rw [run_forLoop_of_le hk, EStateM.Result.ok.injEq] at h
        exact ⟨0, k, hk, h.2 ▸ .refl _⟩
  | succ n ih =>
      intro k v h
      by_cases hk : k < bound
      · rw [forLoop, if_pos hk] at h
        obtain ⟨_, u, hu, h⟩ := run_bind_eq_ok.1 h
        obtain ⟨m, hm⟩ := hbody k v u hk hu
        obtain ⟨m', k', hk', hm'⟩ := ih (k + step) { v with machine := u } h
        exact ⟨m + m', k', hk', hm.trans hm'⟩
      · rw [run_forLoop_of_le hk, EStateM.Result.ok.injEq] at h
        exact ⟨0, k, hk, h.2 ▸ .refl _⟩

theorem step_of_eq {p q : PagingPoint} {w : PagedProcessors ι α}
    (hp : p ≠ .unlock) (h : pagingStep A fuel r i p v = some (q, w)) :
    (initPagingBody A fuel r).Steps i 1 (p, v) (q, w) :=
  .snoc (.refl _) (decide_eq_false hp) h

theorem exists_steps_first4GB
    (h : (mapFirst4GB A fuel r.hhdmOffset).run v.machine = .ok () t) :
    ∃ n k, ¬ k < _4GB ∧ (initPagingBody A fuel r).Steps i n (.identity 0, v)
      (.identity k, { v with machine := t }) := by
  refine exists_steps_forLoop (fun k w u hk hu => ?_) fuel 0 v h
  obtain ⟨_, u₁, hu₁, hu⟩ := run_bind_eq_ok.1 hu
  have hidentity : (mapPage A k k (kernelFlags |||
      PageTableFlag.largerPages)).run w.machine = .ok () u₁ := by
    rw [mapPage, run_bind_of_ok hu₁]
    rfl
  have hfirst : pagingStep A fuel r i (.identity k) w =
      some (.direct k, { w with machine := u₁ }) := by
    rw [pagingStep, if_pos hk, call_of_ok hidentity]
  exact ⟨_, (step_of_eq (by simp) hfirst).trans
    (step_of_eq (p := .direct k) (by simp) (call_of_ok hu))⟩

theorem exists_steps_kernel (h : (mapKernel A fuel r).run v.machine = .ok () t) :
    ∃ n k, ¬ k < r.kernelEnd ∧ (initPagingBody A fuel r).Steps i n
      (.kernel r.kernelStart, v) (.kernel k, { v with machine := t }) := by
  refine exists_steps_forLoop (fun k w u hk hu => ?_) fuel r.kernelStart v h
  have hlt : k < r.kernelEnd := hk
  refine ⟨1, step_of_eq (by simp) ?_⟩
  rw [pagingStep, if_pos hlt]
  exact call_of_ok hu

/-- The steps of a section are a run of `initTables` and a load of `cr3`. -/
theorem performs_of_run (hrun : (initTables A fuel r).run v.machine = .ok () t)
    (hne : t.globals.PML4 ≠ 0) :
    (initPagingBody A fuel r).Performs i v
      ⟨t, Function.update v.cr3 (some i) (some t.globals.PML4)⟩ := by
  obtain ⟨_, t₁, h₁, hrun⟩ := run_bind_eq_ok.1 hrun
  obtain ⟨_, t₂, h₂, hrun⟩ := run_bind_eq_ok.1 hrun
  obtain ⟨_, t₃, h₃, hrun⟩ := run_bind_eq_ok.1 hrun
  obtain ⟨_, t₄, h₄, h₅⟩ := run_bind_eq_ok.1 hrun
  have hstart : (startTables A r).run v.machine = .ok () t₂ := by
    rw [startTables, run_bind_of_ok h₁, h₂]
  have hinit : pagingStep A fuel r i .init v =
      some (.identity 0, { v with machine := t₂ }) := call_of_ok hstart
  obtain ⟨n, k, hk, hlow⟩ :=
    exists_steps_first4GB (i := i) (v := { v with machine := t₂ }) h₃
  have hlowEnd : pagingStep A fuel r i (.identity k) { v with machine := t₃ } =
      some (.memmap, { v with machine := t₃ }) := by
    rw [pagingStep, if_neg hk]
  have hmemmap : pagingStep A fuel r i .memmap { v with machine := t₃ } =
      some (.kernel r.kernelStart, { v with machine := t₄ }) := call_of_ok h₄
  obtain ⟨m, k', hk', hkernel⟩ :=
    exists_steps_kernel (i := i) (v := { v with machine := t₄ }) h₅
  have hkernelEnd : pagingStep A fuel r i (.kernel k') { v with machine := t } =
      some (.load, { v with machine := t }) := by
    rw [pagingStep, if_neg hk']
  have hload : pagingStep A fuel r i .load { v with machine := t } =
      some (.unlock, ⟨t, Function.update v.cr3 (some i)
        (some t.globals.PML4)⟩) := by
    rw [pagingStep, if_neg hne]
  have hlowSteps := (step_of_eq (by simp) hinit).trans hlow
  have hkernelSteps := (hlowSteps.trans (step_of_eq (by simp) hlowEnd)).trans
    ((step_of_eq (by simp) hmemmap).trans hkernel)
  exact ⟨_, .unlock, (hkernelSteps.trans (step_of_eq (by simp) hkernelEnd)).trans
    (step_of_eq (by simp) hload), rfl⟩

end

end OptimistOS
