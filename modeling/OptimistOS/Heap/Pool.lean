import OptimistOS.Heap.Split

/-!
# The pool before the first request

`initNodes` writes the headers of the first 3071 pages of the pool. The last
page has no header and is the end of the list, because the frame that the pool
lies in was cleared.
-/

namespace OptimistOS

open ByteMemory ByteMemory.Code

def page (b : Addr) (j : ℕ) : Addr := b + BitVec.ofNat 64 (4096 * j)

theorem page_zero (b : Addr) : page b 0 = b := by
  simp [page]

theorem page_page (b : Addr) (j i : ℕ) : page (page b j) i = page b (j + i) := by
  rw [page, page, page, add_ofNat_add_ofNat, Nat.mul_add]

theorem page_succ (b : Addr) (j : ℕ) :
    page (b + PAGE_SIZE) j = page b (j + 1) := by
  rw [page, page, show (PAGE_SIZE : Word) = BitVec.ofNat 64 4096 from rfl,
    add_ofNat_add_ofNat]
  congr 2
  ring

def headers (b : Addr) (n : ℕ) : Set Addr :=
  {x | ∃ j < n, x ∈ head.recordRegion (page b j)}

/-- A page node as `initNodes` leaves it. -/
structure FreshPage (m : Bytes) (p : Addr) : Prop where
  left : head.get m p .left = 0
  right : head.get m p .right = 0
  next : head.get m p .next = p + PAGE_SIZE
  status : head.get m p .status = Flag.unused
  childSize : head.get m p .childSize = 2048
  size : head.get m p .size = PAGE_SIZE
  level : head.get m p .level = 0
  isBuddyCoalesced : head.get m p .isBuddyCoalesced = 0

/-- The members of the header at `p` that `initNodes` does not set are 0. -/
def BlankRest (m : Bytes) (p : Addr) : Prop :=
  head.get m p .level = 0 ∧ head.get m p .isBuddyCoalesced = 0

theorem agreeOff_initNode (m : Bytes) (p : Addr) (i : ℕ) :
    AgreeOff (head.recordRegion p) m (initNode m p i) := by
  intro x hx
  have hp : ∀ (m : Bytes) (f : Head) (v : Word), head.set m p f v x = m x :=
    fun m f v => (head.agreeOff_set m p f v x hx).symm
  rw [initNode, hp, hp, hp, hp, hp, hp, hp]

theorem freshPage_initNode {m : Bytes} {p : Addr} (i : ℕ)
    (h : BlankRest m p) : FreshPage (initNode m p i) p := by
  have hhalf : PAGE_SIZE / 2 = (2048 : Word) := by decide
  constructor <;>
    simp (disch := decide) only [initNode, head_get_set_self,
      head.get_set_of_ne, head_get_set_unused, h.1, h.2, hhalf]

theorem BlankRest.congr {m m' : Bytes} {s : Set Addr} {p : Addr}
    (h : BlankRest m p) (hm : AgreeOff s m m')
    (hp : Disjoint (head.recordRegion p) s) : BlankRest m' p :=
  ⟨(head.get_congr hm p _ hp).trans h.1, (head.get_congr hm p _ hp).trans h.2⟩

theorem FreshPage.congr {m m' : Bytes} {s : Set Addr} {p : Addr}
    (h : FreshPage m p) (hm : AgreeOff s m m')
    (hp : Disjoint (head.recordRegion p) s) : FreshPage m' p where
  left := (head.get_congr hm p _ hp).trans h.left
  right := (head.get_congr hm p _ hp).trans h.right
  next := (head.get_congr hm p _ hp).trans h.next
  status := (head.get_congr hm p _ hp).trans h.status
  childSize := (head.get_congr hm p _ hp).trans h.childSize
  size := (head.get_congr hm p _ hp).trans h.size
  level := (head.get_congr hm p _ hp).trans h.level
  isBuddyCoalesced := (head.get_congr hm p _ hp).trans h.isBuddyCoalesced

theorem disjoint_header_headers (b : Addr) {n : ℕ}
    (hn : 4096 * (n + 1) ≤ 2 ^ 64) :
    Disjoint (head.recordRegion b) (headers (b + PAGE_SIZE) n) := by
  rw [Set.disjoint_right]
  rintro x ⟨j, hj, hx⟩
  rw [page_succ] at hx
  have hdisj := disjoint_region_of_le b (i := 0) (n := 64)
    (j := 4096 * (j + 1)) (k := 64) (by omega) (by omega)
  rw [BitVec.add_zero] at hdisj
  exact Set.disjoint_right.1 hdisj hx

/-- The loop of `initNodes`. -/
theorem initNodesLoop_spec {n : ℕ} (i : ℕ) {m : Bytes} {b : Addr}
    (hn : 4096 * n ≤ 2 ^ 64) (h : ∀ j < n, BlankRest m (page b j)) :
    (∀ j < n, FreshPage (initNodesLoop n i m b) (page b j)) ∧
      AgreeOff (headers b n) m (initNodesLoop n i m b) := by
  induction n generalizing i m b with
  | zero => exact ⟨fun j hj => absurd hj (by omega), fun x _ => rfl⟩
  | succ n ih =>
      have hfirst := freshPage_initNode i
        (show BlankRest m b from page_zero b ▸ h 0 (Nat.succ_pos n))
      have hnext : initNodesLoop (n + 1) i m b =
          initNodesLoop n (i + 1) (initNode m b i) (b + PAGE_SIZE) := by
        rw [initNodesLoop, hfirst.next]
      have hdisj := disjoint_header_headers b hn
      obtain ⟨hpages, hagree⟩ := ih (i + 1) (m := initNode m b i)
        (b := b + PAGE_SIZE) (by omega) fun j hj => by
          rw [page_succ]
          refine (h (j + 1) (by omega)).congr (agreeOff_initNode m b i) ?_
          refine (hdisj.mono_right fun x hx => ?_).symm
          exact ⟨j, hj, (page_succ b j).symm ▸ hx⟩
      rw [hnext]
      refine ⟨fun j hj => ?_, ?_⟩
      · rcases j with _ | j
        · rw [page_zero]
          exact hfirst.congr hagree hdisj
        · rw [← page_succ]
          exact hpages j (by omega)
      · have hall := (agreeOff_initNode m b i).trans hagree
        refine hall.mono (Set.union_subset ?_ ?_)
        · exact fun x hx => ⟨0, Nat.succ_pos n, by rwa [page_zero]⟩
        · rintro x ⟨j, hj, hx⟩
          exact ⟨j + 1, by omega, by rwa [← page_succ]⟩

structure FreshPool (m : Bytes) (b : Addr) : Prop where
  ne_zero : b ≠ 0
  fits : b.toNat + poolBytes.toNat < 2 ^ 64
  page : ∀ j < POOL_ARRAY_SIZE - 1, FreshPage m (page b j)
  zero : ∀ x ∈ region b poolBytes.toNat,
    x ∉ headers b (POOL_ARRAY_SIZE - 1) → m x = 0

theorem freshPool_initNodesLoop {m : Bytes} {b : Addr} (hb : b ≠ 0)
    (hfits : b.toNat + poolBytes.toNat < 2 ^ 64)
    (hzero : ∀ x ∈ region b poolBytes.toNat, m x = 0) :
    FreshPool (initNodesLoop (POOL_ARRAY_SIZE - 1) 0 m b) b ∧
      AgreeOff (headers b (POOL_ARRAY_SIZE - 1)) m
        (initNodesLoop (POOL_ARRAY_SIZE - 1) 0 m b) := by
  have hblank : ∀ j < POOL_ARRAY_SIZE - 1, BlankRest m (OptimistOS.page b j) := by
    intro j hj
    have hrecord : ∀ x ∈ head.recordRegion (OptimistOS.page b j), m x = 0 := by
      intro x hx
      refine hzero x (region_subset_of_le b (i := 4096 * j) (n := 64) ?_ ?_ hx)
      · have hj' : j < 3071 := hj
        have hsize : poolBytes.toNat = 12779520 := by decide
        omega
      · exact poolBytes.isLt.le
    exact ⟨head.get_of_forall_zero hrecord _, head.get_of_forall_zero hrecord _⟩
  obtain ⟨hpages, hagree⟩ := initNodesLoop_spec 0 (b := b) (by decide) hblank
  exact ⟨⟨hb, hfits, hpages, fun x hx hx' =>
    (hagree x hx').symm.trans (hzero x hx)⟩, hagree⟩

end OptimistOS
