import OptimistOS.Heap.HeapRuns
import OptimistOS.Heap.SharedHeaders

/-!
# The links back to the page in front

`initNodes` links every page node back to the page in front of it, but for the
first one and for the last page, whose header it does not write. `mallocx`
never writes a `previous` member, and `freex` writes to the pages of a block
what `initNodes` has written there.
-/

namespace OptimistOS

open ByteMemory ByteMemory.Code

/-- What the `previous` member of the `j`-th page is set to. -/
def backlink (b : Addr) (j : ℕ) : Addr :=
  if j = 0 ∨ j = 3071 then 0 else page b (j - 1)

/-- All the pages are linked back as `initNodes` links them. -/
def Backlinks (m : Bytes) (b : Addr) : Prop :=
  ∀ j ≤ 3071, head.get m (page b j) .previous = backlink b j

theorem page_sub_PAGE_SIZE (b : Addr) {j : ℕ} (hj : j ≠ 0) :
    page b j - PAGE_SIZE = page b (j - 1) := by
  obtain ⟨i, rfl⟩ := Nat.exists_eq_succ_of_ne_zero hj
  rw [Nat.succ_sub_one, Nat.succ_eq_add_one, ← page_add_PAGE_SIZE,
    BitVec.add_sub_cancel]

section

variable {m : Bytes} {b : Addr}

theorem links_initNode (m : Bytes) (p : Addr) (i : ℕ) :
    head.get (initNode m p i) p .next = p + PAGE_SIZE ∧
      head.get (initNode m p i) p .previous =
        if i ≠ 0 then p - PAGE_SIZE else 0 := by
  constructor <;>
    simp (disch := decide) only [initNode, head_get_set_self,
      head.get_set_of_ne]

theorem initNodesLoop_succ (n i : ℕ) (m : Bytes) (b : Addr) :
    initNodesLoop (n + 1) i m b =
      initNodesLoop n (i + 1) (initNode m b i) (b + PAGE_SIZE) := by
  rw [initNodesLoop, (links_initNode m b i).1]

theorem agreeOff_initNodesLoop (n i : ℕ) (m : Bytes) (b : Addr) :
    AgreeOff (headers b n) m (initNodesLoop n i m b) := by
  induction n generalizing i m b with
  | zero => exact fun x _ => rfl
  | succ n ih =>
      rw [initNodesLoop_succ]
      refine ((agreeOff_initNode m b i).trans (ih _ _ _)).mono
        (Set.union_subset ?_ ?_)
      · exact fun x hx => ⟨0, Nat.succ_pos n, by rwa [page_zero]⟩
      · rintro x ⟨j, hj, hx⟩
        exact ⟨j + 1, by omega, by rwa [← page_succ]⟩

theorem previous_initNodesLoop {n : ℕ} (i : ℕ) (m : Bytes) (b : Addr)
    (hn : 4096 * n ≤ 2 ^ 64) {j : ℕ} (hj : j < n) :
    head.get (initNodesLoop n i m b) (page b j) .previous =
      if i + j ≠ 0 then page b j - PAGE_SIZE else 0 := by
  induction n generalizing i j m b with
  | zero => exact absurd hj (by omega)
  | succ n ih =>
      rw [initNodesLoop_succ]
      rcases j with _ | j
      · rw [page_zero]
        exact (head.get_congr (agreeOff_initNodesLoop n _ _ _) b _
          (disjoint_header_headers b hn)).trans (links_initNode m b i).2
      · rw [← page_succ, ih _ _ _ (by omega) (by omega)]
        congr 2
        omega

theorem FreshPool.backlinks {m₀ : Bytes}
    (h : FreshPool (initNodesLoop (POOL_ARRAY_SIZE - 1) 0 m₀ b) b) :
    Backlinks (initNodesLoop (POOL_ARRAY_SIZE - 1) 0 m₀ b) b := by
  have hsize : poolBytes.toNat = 12779520 := by decide
  intro j hj
  rw [backlink]
  by_cases hlast : j = 3071
  · rw [if_pos (Or.inr hlast), hlast]
    refine head.get_of_forall_zero (fun x hx => h.zero x ?_ ?_) _
    · exact region_subset_of_le b (i := 4096 * 3071) (n := 64) (by omega)
        poolBytes.isLt.le hx
    · rintro ⟨i, hi, hx'⟩
      have hi' : i < 3071 := hi
      exact Set.disjoint_left.1
        (disjoint_pages b le_rfl (by omega) (by omega)) hx hx'
  · rw [previous_initNodesLoop 0 m₀ b (by decide)
      (show j < POOL_ARRAY_SIZE - 1 by rw [POOL_ARRAY_SIZE]; omega),
      Nat.zero_add]
    by_cases hzero : j = 0
    · rw [if_neg (not_not.2 hzero), if_pos (Or.inl hzero)]
    · rw [if_pos hzero, if_neg (not_or.2 ⟨hzero, hlast⟩),
        page_sub_PAGE_SIZE b hzero]

theorem Backlinks.set (h : Backlinks m b) {p : Addr} {f : Head} (v : Word)
    (hp : p ∈ slots b) (hf : f ≠ .previous) :
    Backlinks (head.set m p f v) b := by
  intro j hj
  rw [Layout.get_set_of_apart (apart_slots b) m v hp (page_mem_slots b hj)
    fun he => hf (Prod.mk.inj he).2.symm]
  exact h j hj

theorem Backlinks.splitNode (h : Backlinks m b) {p c : Addr}
    (hchild : head.get m p .childSize = c) (hp : p ∈ slots b)
    (hr : p + c ∈ slots b) : Backlinks (OptimistOS.splitNode m p) b := by
  rw [splitNode_eq hchild (eq_or_disjoint (apart_slots b) hp hr)]
  exact (((((h.set _ hp (by decide)).set _ hp (by decide)).set _ hp
    (by decide)).set _ hp (by decide)).set _ hr (by decide)).set _ hr
      (by decide)

theorem Backlinks.mergeBlocks (h : Backlinks m b) {p : Addr} (next : Addr)
    (n : Word) (hp : p ∈ slots b) :
    Backlinks (OptimistOS.mergeBlocks m p next n) b :=
  ((h.set _ hp (by decide)).set _ hp (by decide)).set _ hp (by decide)

theorem Backlinks.freePage (h : Backlinks m b) {j : ℕ} (hj : j + 1 ≤ 3070) :
    Backlinks (OptimistOS.freePage m (page b j)) b := by
  have hp := page_mem_slots b (j := j) (by omega)
  have hq := page_mem_slots b (j := j + 1) (by omega)
  have hfirst : Backlinks
      (head.set m (page b (j + 1)) .previous (page b j)) b := by
    intro i hi
    by_cases heq : i = j + 1
    · subst heq
      rw [head_get_set_self _ _ _ _ rfl, backlink, if_neg (by omega),
        Nat.add_sub_cancel]
    · have hne : page b i ≠ page b (j + 1) := fun he => heq (by
        rw [page_eq_slot, page_eq_slot] at he
        have := slot_inj b (by omega) (by omega) he
        omega)
      rw [Layout.get_set_of_apart (apart_slots b) m _ hq (page_mem_slots b hi)
        fun he => hne (Prod.mk.inj he).1]
      exact h i hi
  rw [freePage_eq m (page_add_PAGE_SIZE b j)]
  exact ((((((hfirst.set _ hq (by decide)).set _ hq (by decide)).set _ hq
    (by decide)).set _ hq (by decide)).set _ hq (by decide)).set _ hp
      (by decide)).set _ hp (by decide)

theorem Backlinks.freePages (h : Backlinks m b) {j n : ℕ}
    (hj : j + n ≤ 3070) :
    Backlinks (OptimistOS.freePages n m (page b j)) b := by
  induction n generalizing m j with
  | zero => exact h
  | succ n ih =>
      rw [OptimistOS.freePages, page_add_PAGE_SIZE]
      exact ih (h.freePage (by omega)) (by omega)

theorem initNodes_eq_ok {α : Type} {A : FrameAllocator α}
    {s s' : Machine 64 (HeapGlobals α)}
    (h : (initNodes A).run s = .ok () s') :
    ∃ m, s'.mem =
      initNodesLoop (POOL_ARRAY_SIZE - 1) 0 m s'.globals.freeList := by
  rw [initNodes] at h
  obtain ⟨frame, s₁, -, h⟩ := run_bind_eq_ok.1 h
  obtain ⟨memory, s₂, -, h⟩ := run_bind_eq_ok.1 h
  obtain ⟨_, s₃, hset, h⟩ := run_bind_eq_ok.1 h
  rw [run_modifyGlobals, EStateM.Result.ok.injEq] at hset
  rw [run_modifyMem, EStateM.Result.ok.injEq] at h
  refine ⟨s₃.mem, ?_⟩
  rw [← h.2, ← hset.2]

end

end OptimistOS
