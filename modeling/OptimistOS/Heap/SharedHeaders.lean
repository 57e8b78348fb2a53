import OptimistOS.Foundation.SharedMembers
import OptimistOS.Heap.Blocks

/-!
# Headers in two memories

The writes of the heap, followed in two memories that share some members of the
headers. A split reads the sizes and the link of the node that it splits, the
loop of `freex` reads nothing that it has not written: what they write they
write alike in both memories.
-/

namespace OptimistOS

open ByteMemory

def slots (b : Addr) : Set Addr := {p | ∃ k ≤ 6143, p = slot b k}

theorem slot_mem_slots (b : Addr) {k : ℕ} (hk : k ≤ 6143) :
    slot b k ∈ slots b :=
  ⟨k, hk, rfl⟩

theorem page_mem_slots (b : Addr) {j : ℕ} (hj : j ≤ 3071) :
    page b j ∈ slots b :=
  page_eq_slot b j ▸ slot_mem_slots b (by omega)

theorem apart_slots (b : Addr) : head.Apart (slots b) := by
  rintro p ⟨i, hi, rfl⟩ q ⟨k, hk, rfl⟩ hne
  exact disjoint_slots b hi hk fun h => hne (by rw [h])

def splitMembers (p r : Addr) : Set (Addr × Head) :=
  {(p, .left), (p, .right), (p, .status), (p, .size), (r, .size), (r, .next)}

/-- The members that `freePage` writes, for the page at `p` and the one at `q`
behind it. -/
def freedMembers (p q : Addr) : Set (Addr × Head) :=
  {(q, .previous), (q, .size), (q, .level), (q, .status), (q, .childSize),
    (q, .next), (p, .next), (p, .size)}

theorem freePage_eq (m : Bytes) {p q : Addr} (hq : p + PAGE_SIZE = q) :
    freePage m p =
      head.set (head.set (head.set (head.set (head.set (head.set (head.set
        (head.set m q .previous p) q .size PAGE_SIZE) q .level 0) q .status
          Flag.unused) q .childSize 2048) q .next (q + PAGE_SIZE)) p .next q)
            p .size PAGE_SIZE := by
  have hhalf : PAGE_SIZE / 2 = (2048 : Word) := by decide
  simp (disch := decide) only [freePage, hq, head.get_set_of_ne,
    head_get_set_self, hhalf]

def rebuiltMembers : Set Head :=
  {f | f ≠ .left ∧ f ≠ .right ∧ f ≠ .isBuddyCoalesced}

section

variable {A : Set Addr} {S : Set (Addr × Head)} {m m' : Bytes} {p : Addr}

theorem eq_or_disjoint (hA : head.Apart A) {q : Addr} (hp : p ∈ A)
    (hq : q ∈ A) :
    q = p ∨ Disjoint (head.recordRegion p) (head.recordRegion q) := by
  by_cases heq : q = p
  · exact Or.inl heq
  · exact Or.inr (hA p hp q hq fun he => heq he.symm)

theorem sameOn_splitNode (hA : head.Apart A) (h : head.SameOn A S m m')
    {c : Word} (hp : p ∈ A) (hr : p + c ∈ A) (hc : (p, .childSize) ∈ S)
    (hsize : (p, .size) ∈ S) (hnext : (p, .next) ∈ S)
    (hchild : head.get m p .childSize = c) :
    head.SameOn A (splitMembers p (p + c) ∪ S) (splitNode m p)
      (splitNode m' p) := by
  have hapart := eq_or_disjoint hA hp hr
  rw [splitNode_eq hchild hapart,
    splitNode_eq ((h.get hc).trans hchild) hapart, h.get hsize, h.get hnext]
  refine ((((((h.set hA hp .left _).set hA hp .right _).set hA hp .status
    _).set hA hp .size _).set hA hr .size _).set hA hr .next _).mono ?_
  intro x hx
  simp only [splitMembers, Set.mem_union, Set.mem_insert_iff,
    Set.mem_singleton_iff] at hx ⊢
  tauto

theorem sameOn_freePage (hA : head.Apart A) (h : head.SameOn A S m m')
    {q : Addr} (hp : p ∈ A) (hq : q ∈ A) (hpq : p + PAGE_SIZE = q) :
    head.SameOn A (freedMembers p q ∪ S) (freePage m p) (freePage m' p) := by
  rw [freePage_eq m hpq, freePage_eq m' hpq]
  refine ((((((((h.set hA hq .previous _).set hA hq .size _).set hA hq .level
    _).set hA hq .status _).set hA hq .childSize _).set hA hq .next _).set hA
      hp .next _).set hA hp .size _).mono ?_
  intro x hx
  simp only [freedMembers, Set.mem_union, Set.mem_insert_iff,
    Set.mem_singleton_iff] at hx ⊢
  tauto

theorem mem_freedMembers {p q : Addr} {f : Head} (hf : f ∈ rebuiltMembers) :
    (q, f) ∈ freedMembers p q := by
  obtain ⟨hleft, hright, hbuddy⟩ := hf
  cases f <;> simp_all [freedMembers]

theorem sameOn_freePages {b : Addr} {j n : ℕ} (hj : j + n ≤ 3071)
    (h : head.SameOn (slots b) S m m') :
    head.SameOn (slots b) (S ∪ {x | ∃ i, 0 < i ∧ i ≤ n ∧
        x.1 = page b (j + i) ∧ x.2 ∈ rebuiltMembers})
      (freePages n m (page b j)) (freePages n m' (page b j)) := by
  induction n generalizing j m m' S with
  | zero =>
      refine h.mono (Set.union_subset le_rfl ?_)
      rintro x ⟨i, hi, hi', -⟩
      omega
  | succ n ih =>
      have hstep := sameOn_freePage (apart_slots b) h
        (page_mem_slots b (j := j) (by omega))
        (page_mem_slots b (j := j + 1) (by omega)) (page_add_PAGE_SIZE b j)
      rw [freePages, freePages, page_add_PAGE_SIZE]
      refine (ih (by omega) hstep).mono ?_
      rintro x (hx | ⟨i, hi, hi', hx, hf⟩)
      · exact Or.inl (Or.inr hx)
      · rcases Nat.lt_or_ge 1 i with hlt | hle
        · exact Or.inr ⟨i - 1, by omega, by omega, by
            rw [hx, show j + i = j + 1 + (i - 1) by omega], hf⟩
        · obtain rfl : i = 1 := by omega
          obtain ⟨q, f⟩ := x
          obtain rfl : q = page b (j + 1) := hx
          exact Or.inl (Or.inl (mem_freedMembers hf))

theorem get_freePages {b q : Addr} {j n : ℕ} {f : Head} (hj : j + n ≤ 3071)
    (hq : q ∈ slots b) (hf : f ∉ rebuiltMembers) :
    head.get (freePages n m (page b j)) q f = head.get m q f := by
  have hne : ∀ (p : Addr) (g : Head), g ∈ rebuiltMembers → (q, f) ≠ (p, g) :=
    fun p g hg he => hf ((Prod.mk.inj he).2 ▸ hg)
  induction n generalizing j m with
  | zero => rfl
  | succ n ih =>
      have hset : ∀ (m : Bytes) (p : Addr) (g : Head) (v : Word), p ∈ slots b →
          g ∈ rebuiltMembers →
          head.get (head.set m p g v) q f = head.get m q f :=
        fun m p g v hp hg =>
          Layout.get_set_of_apart (apart_slots b) m v hp hq (hne p g hg)
      have hp := page_mem_slots b (j := j) (by omega)
      have hp' := page_mem_slots b (j := j + 1) (by omega)
      rw [freePages, page_add_PAGE_SIZE, ih (by omega),
        freePage_eq m (page_add_PAGE_SIZE b j)]
      rw [hset _ _ _ _ hp, hset _ _ _ _ hp, hset _ _ _ _ hp',
        hset _ _ _ _ hp', hset _ _ _ _ hp', hset _ _ _ _ hp',
        hset _ _ _ _ hp', hset _ _ _ _ hp'] <;>
        simp [rebuiltMembers]

end

end OptimistOS
