import OptimistOS.Heap.Malloc

/-!
# Splitting a node

What an iteration of `mallocx` does at an unused node: a node of the size that is
looked for ends the loop, a larger one is split, and the loop goes on with its
left half, which is the node itself. All the splits of one node write to the
same two headers, because the distance of the right half does not change
(`IsSplit`).
-/

namespace OptimistOS

open ByteMemory

theorem head_get_set_self (m : Bytes) (p v : Word) (f : Head)
    (h : head.width f = 8) : head.get (head.set m p f v) p f = v :=
  head.get_set_self m p f (by rw [h]; exact v.isLt)

theorem head_get_set_status (m : Bytes) (p v : Word) (h : v.toNat < 2 ^ 32) :
    head.get (head.set m p .status v) p .status = v :=
  head.get_set_self m p .status h

theorem head_get_set_allocated (m : Bytes) (p : Addr) :
    head.get (head.set m p .status Flag.allocated) p .status =
      Flag.allocated :=
  head_get_set_status m p _ (by decide)

theorem head_get_set_unused (m : Bytes) (p : Addr) :
    head.get (head.set m p .status Flag.unused) p .status = Flag.unused :=
  head_get_set_status m p _ (by decide)

/-- The memory `m'` after the node at `p` was split at the distance `child` in
the memory `m`, once or several times. -/
structure IsSplit (m : Bytes) (p child : Addr) (m' : Bytes) : Prop where
  left : head.get m' p .left = p
  right : head.get m' p .right = p + child
  status : head.get m' p .status = Flag.unused
  kept : ∀ f, f ≠ .left → f ≠ .right → f ≠ .status → f ≠ .size →
    head.get m' p f = head.get m p f
  rightSize : head.get m' (p + child) .size = head.get m' p .size
  rightNext : head.get m' (p + child) .next = head.get m p .next
  rightKept : ∀ f, f ≠ .size → f ≠ .next →
    head.get m' (p + child) f = head.get m (p + child) f
  frame : AgreeOff (head.recordRegion p ∪ head.recordRegion (p + child)) m m'

theorem splitNode_eq {m : Bytes} {p c : Addr}
    (hc : head.get m p .childSize = c)
    (h : p + c = p ∨
      Disjoint (head.recordRegion p) (head.recordRegion (p + c))) :
    splitNode m p =
      head.set (head.set (head.set (head.set (head.set (head.set m p .left p)
        p .right (p + c)) p .status Flag.unused) p .size
          (head.get m p .size / 2)) (p + c) .size (head.get m p .size / 2))
            (p + c) .next (head.get m p .next) := by
  -- the size of the right half is not what is read at the node afterwards
  have hright : ∀ (m : Bytes) (f : Head) (v : Word), f ≠ .size →
      head.get (head.set m (p + c) .size v) p f = head.get m p f := by
    intro m f v hf
    rcases h with heq | hdisj
    · rw [heq, head.get_set_of_ne _ _ _ hf]
    · exact head.get_set_of_disjoint head m f _ v hdisj
  simp (disch := decide) only [splitNode, head.get_set_of_ne,
    head_get_set_self, hright, hc]

theorem agreeOff_splitNode {m : Bytes} {p c : Addr}
    (hc : head.get m p .childSize = c)
    (h : p + c = p ∨
      Disjoint (head.recordRegion p) (head.recordRegion (p + c))) :
    AgreeOff (head.recordRegion p ∪ head.recordRegion (p + c)) m
      (splitNode m p) := by
  intro x hx
  simp only [Set.mem_union, not_or] at hx
  have hp : ∀ (m : Bytes) (f : Head) (v : Word), head.set m p f v x = m x :=
    fun m f v => (head.agreeOff_set m p f v x hx.1).symm
  have hq : ∀ (m : Bytes) (f : Head) (v : Word),
      head.set m (p + c) f v x = m x :=
    fun m f v => (head.agreeOff_set m (p + c) f v x hx.2).symm
  rw [splitNode_eq hc h, hq, hq, hp, hp, hp, hp]

theorem isSplit_splitNode {m : Bytes} {p : Addr}
    (h : Disjoint (head.recordRegion p)
      (head.recordRegion (p + head.get m p .childSize))) :
    IsSplit m p (head.get m p .childSize) (splitNode m p) ∧
      head.get (splitNode m p) p .size = head.get m p .size / 2 := by
  set c := head.get m p .childSize with hc
  have hright : ∀ (m : Bytes) (f g : Head) (v : Word),
      head.get (head.set m (p + c) g v) p f = head.get m p f :=
    fun m f g v => head.get_set_of_disjoint head m f g v h
  have hleft : ∀ (m : Bytes) (f g : Head) (v : Word),
      head.get (head.set m p g v) (p + c) f = head.get m (p + c) f :=
    fun m f g v => head.get_set_of_disjoint head m f g v h.symm
  have hsplit := splitNode_eq hc.symm (Or.inr h)
  refine ⟨⟨?_, ?_, ?_, ?_, ?_, ?_, ?_, ?_⟩, ?_⟩
  · simp (disch := decide) only [hsplit, hright, head.get_set_of_ne,
      head_get_set_self]
  · simp (disch := decide) only [hsplit, hright, head.get_set_of_ne,
      head_get_set_self]
  · simp (disch := decide) only [hsplit, hright, head.get_set_of_ne,
      head_get_set_unused]
  · intro f h1 h2 h3 h4
    simp (disch := assumption) only [hsplit, hright, head.get_set_of_ne]
  · simp (disch := decide) only [hsplit, hright, head.get_set_of_ne,
      head_get_set_self]
  · simp (disch := decide) only [hsplit, head_get_set_self]
  · intro f h1 h2
    simp (disch := assumption) only [hsplit, hleft, head.get_set_of_ne]
  · exact agreeOff_splitNode hc.symm (Or.inr h)
  · simp (disch := decide) only [hsplit, hright, head_get_set_self]

theorem IsSplit.trans {m m' m'' : Bytes} {p child : Addr}
    (h : IsSplit m p child m') (h' : IsSplit m' p child m'') :
    IsSplit m p child m'' where
  left := h'.left
  right := h'.right
  status := h'.status
  kept f h1 h2 h3 h4 := (h'.kept f h1 h2 h3 h4).trans (h.kept f h1 h2 h3 h4)
  rightSize := h'.rightSize
  rightNext := h'.rightNext.trans
    (h.kept .next (by simp) (by simp) (by simp) (by simp))
  rightKept f h1 h2 := (h'.rightKept f h1 h2).trans (h.rightKept f h1 h2)
  frame := by simpa using h.frame.trans h'.frame

/-- An unused node that the loop can stay at: its left half, if it has one, is
the node itself. -/
structure IsUnused (m : Bytes) (p : Addr) : Prop where
  ne_zero : p ≠ 0
  status : head.get m p .status = Flag.unused
  left : head.get m p .left = 0 ∨ head.get m p .left = p

theorem IsUnused.skipAllocated {m : Bytes} {p : Addr} (h : IsUnused m p) :
    skipAllocated m p = p := by
  have hne : Flag.unused ≠ Flag.allocated := by decide
  have hstatus : head.get m p .status ≠ Flag.allocated := h.status ▸ hne
  rw [OptimistOS.skipAllocated, if_neg, if_neg hstatus]
  rintro ⟨hleft, hallocated⟩
  rcases h.left with h0 | hp
  · exact hleft h0
  · rw [hp] at hallocated
    exact hstatus hallocated

theorem multiPage_of_le (m : Bytes) {size : Word} (p : Addr)
    (h : size ≤ PAGE_SIZE) : multiPage m size p = .ok none := by
  rw [multiPage, if_neg]
  exact fun hand => absurd hand.1 (by simpa using h)

theorem mallocStep_of_le {m : Bytes} {size : Word} {p : Addr} (hp : p ≠ 0)
    (h : size ≤ PAGE_SIZE) :
    mallocStep m size p = takeOrSplit m size (skipAllocated m p) := by
  rw [mallocStep, if_neg hp, multiPage_of_le m p h]
  rfl

theorem mallocLoop_of_size {m : Bytes} (size : Word) {p : Addr} (fuel : ℕ)
    (hp : p ≠ 0) (h : size ≤ PAGE_SIZE) (hskip : skipAllocated m p ≠ 0)
    (hsize : head.get m (skipAllocated m p) .size = size) :
    mallocLoop size (fuel + 1) m p = .ok (.node (skipAllocated m p), m) := by
  rw [mallocLoop, mallocStep_of_le hp h, takeOrSplit, if_neg hskip,
    if_pos hsize]
  rfl

theorem mallocLoop_of_lt {m : Bytes} {size : Word} {p q : Addr} (fuel : ℕ)
    (hp : p ≠ 0) (h : size ≤ PAGE_SIZE) (hskip : skipAllocated m p = q)
    (hq : IsUnused m q) (hlt : size < head.get m q .size)
    (hchild : q + head.get m q .childSize ≠ 0)
    (hdisj : Disjoint (head.recordRegion q)
      (head.recordRegion (q + head.get m q .childSize))) :
    mallocLoop size (fuel + 1) m p =
      mallocLoop size fuel (splitNode m q) q := by
  have hne : head.get m q .size ≠ size := fun he => by
    rw [he] at hlt
    exact absurd hlt (BitVec.lt_irrefl size)
  have hunused : Flag.unused ≠ Flag.allocated := by decide
  have hstatus : ¬ (head.get m q .status = Flag.allocated ∨
      head.get m q .size < size) := by
    rintro (hallocated | hgt)
    · exact hunused (hq.status.symm.trans hallocated)
    · rw [BitVec.lt_def] at hlt hgt
      omega
  rw [mallocLoop, mallocStep_of_le hp h, hskip, takeOrSplit,
    if_neg hq.ne_zero, if_neg hne, if_neg hstatus, if_neg hchild,
    (isSplit_splitNode hdisj).1.left]
  rfl

/-- The loop splits an unused node until it has the size looked for. -/
theorem mallocLoop_split (size : Word) {p child : Addr} (k fuel : ℕ)
    {m : Bytes} (h : size ≤ PAGE_SIZE) (hp : IsUnused m p)
    (hpos : size ≠ 0)
    (hsize : (head.get m p .size).toNat = size.toNat * 2 ^ k)
    (hc : head.get m p .childSize = child) (hchild : p + child ≠ 0)
    (hdisj : Disjoint (head.recordRegion p) (head.recordRegion (p + child))) :
    ∃ m', mallocLoop size (fuel + k + 1) m p = .ok (.node p, m') ∧
      head.get m' p .size = size ∧
      (m' = m ∧ k = 0 ∨ IsSplit m p child m') := by
  induction k generalizing m with
  | zero =>
      rw [Nat.pow_zero, Nat.mul_one] at hsize
      have hself := hp.skipAllocated
      refine ⟨m, ?_, BitVec.eq_of_toNat_eq hsize, Or.inl ⟨rfl, rfl⟩⟩
      have hloop := mallocLoop_of_size size (fuel + 0) hp.ne_zero h
        (hself.symm ▸ hp.ne_zero)
        (hself.symm ▸ BitVec.eq_of_toNat_eq hsize)
      rwa [hself] at hloop
  | succ k ih =>
      subst hc
      have hnat : 0 < size.toNat :=
        Nat.pos_of_ne_zero fun h0 => hpos (BitVec.eq_of_toNat_eq h0)
      have hpow : 0 < 2 ^ k := Nat.two_pow_pos k
      have hmul : 0 < size.toNat * 2 ^ k := Nat.mul_pos hnat hpow
      have hdouble : size.toNat * 2 ^ (k + 1) = 2 * (size.toNat * 2 ^ k) := by
        rw [Nat.pow_succ]
        ring
      have hle : size.toNat ≤ size.toNat * 2 ^ k := Nat.le_mul_of_pos_right _ hpow
      have hlt : size < head.get m p .size := by
        rw [BitVec.lt_def, hsize, hdouble]
        omega
      obtain ⟨hsplit, hhalf⟩ := isSplit_splitNode hdisj
      have hhalfNat : (head.get (splitNode m p) p .size).toNat =
          size.toNat * 2 ^ k := by
        rw [hhalf, BitVec.toNat_udiv, hsize, hdouble]
        change 2 * (size.toNat * 2 ^ k) / 2 = _
        omega
      have hchild' : head.get (splitNode m p) p .childSize =
          head.get m p .childSize :=
        hsplit.kept .childSize (by simp) (by simp) (by simp) (by simp)
      obtain ⟨m', hloop, hsize', hm'⟩ := ih
        ⟨hp.ne_zero, hsplit.status, Or.inr hsplit.left⟩ hhalfNat hchild'
      refine ⟨m', ?_, hsize', Or.inr ?_⟩
      · rw [← Nat.add_assoc, mallocLoop_of_lt (fuel + k + 1) hp.ne_zero h
          hp.skipAllocated hp hlt hchild hdisj, hloop]
      · rcases hm' with ⟨rfl, -⟩ | hm'
        · exact hsplit
        · exact hsplit.trans hm'

/-- An iteration of the loop of `mallocx` gets to the writes of a split. -/
def Splits (m : Bytes) (size : Word) (currentNode : Addr) : Prop :=
  currentNode ≠ 0 ∧ multiPage m size currentNode = .ok none ∧
    skipAllocated m currentNode ≠ 0 ∧
    head.get m (skipAllocated m currentNode) .size ≠ size ∧
    head.get m (skipAllocated m currentNode) .status ≠ Flag.allocated ∧
    size ≤ head.get m (skipAllocated m currentNode) .size

instance (m : Bytes) (size : Word) (p : Addr) : Decidable (Splits m size p) :=
  inferInstanceAs (Decidable (_ ∧ _))

/-- The loop of `mallocx` comes from one iteration to another. -/
inductive Searches (size : Word) (m : Bytes) (p : Addr) : Bytes → Addr → Prop
  | refl : Searches size m p m p
  | step {m' m'' : Bytes} {q r : Addr} (h : Searches size m p m' q)
      (hstep : mallocStep m' size q = .ok (.next m'' r)) :
      Searches size m p m'' r

/-- Every split of the search from `p` on is one that `P` allows, at the node
that is split. -/
def SplitsOnly (P : Bytes → Addr → Prop) (size : Word) (m : Bytes) (p : Addr) :
    Prop :=
  ∀ m' q, Searches size m p m' q → Splits m' size q → P m' (skipAllocated m' q)

theorem Searches.head {size : Word} {m m' m'' : Bytes} {p q r : Addr}
    (hstep : mallocStep m size p = .ok (.next m' q))
    (h : Searches size m' q m'' r) : Searches size m p m'' r := by
  induction h with
  | refl => exact .step .refl hstep
  | step _ hnext ih => exact .step ih hnext

theorem SplitsOnly.next {P : Bytes → Addr → Prop} {size : Word} {m m' : Bytes}
    {p q : Addr} (h : SplitsOnly P size m p)
    (hstep : mallocStep m size p = .ok (.next m' q)) :
    SplitsOnly P size m' q :=
  fun m'' r hsearch => h m'' r (hsearch.head hstep)

/-- Every block that the search from `p` on puts together is one that `P`
allows. -/
def MergesOnly (P : Bytes → Addr → Word → Prop) (size : Word) (m : Bytes)
    (p : Addr) : Prop :=
  ∀ m' q n, Searches size m p m' q →
    multiPage m' size q = .ok (some (.blocks q n)) → P m' q n

def EndsOnly (P : Bytes → Addr → Prop) (size : Word) (m : Bytes) (p : Addr) :
    Prop :=
  ∀ m' q r, Searches size m p m' q →
    mallocStep m' size q = .ok (.done (.node r)) → P m' r

theorem exists_lastIteration {size : Word} {fuel : ℕ} {m m' : Bytes} {p : Addr}
    {result : MallocResult}
    (h : mallocLoop size fuel m p = .ok (result, m')) :
    ∃ q, Searches size m p m' q ∧
      mallocStep m' size q = .ok (.done result) := by
  induction fuel generalizing m p with
  | zero => exact absurd h (by simp [mallocLoop])
  | succ fuel ih =>
      rw [mallocLoop] at h
      cases hstep : mallocStep m size p with
      | error e =>
          rw [hstep] at h
          exact absurd h (by simp [bind, Except.bind])
      | ok next =>
          rw [hstep] at h
          cases next with
          | done found =>
              obtain ⟨rfl, rfl⟩ := Prod.mk.inj (Except.ok.inj h)
              exact ⟨p, .refl, hstep⟩
          | next m₁ q =>
              obtain ⟨r, hsearch, hlast⟩ := ih h
              exact ⟨r, hsearch.head hstep, hlast⟩

theorem multiPage_of_mallocStep {size : Word} {m : Bytes} {p q : Addr} {n : Word}
    (h : mallocStep m size q = .ok (.done (.blocks p n))) :
    multiPage m size q = .ok (some (.blocks p n)) := by
  rw [mallocStep] at h
  split_ifs at h with hnull
  cases hmulti : multiPage m size q with
  | error e =>
      rw [hmulti] at h
      exact absurd h (by simp [bind, Except.bind])
  | ok found =>
      rw [hmulti] at h
      cases found with
      | some result =>
          obtain rfl := MallocStep.done.inj (Except.ok.inj h)
          rfl
      | none =>
          change takeOrSplit m size (skipAllocated m q) = _ at h
          rw [takeOrSplit] at h
          split_ifs at h
          all_goals exact absurd h (by simp)

def WholePages (m : Bytes) (p : Addr) (n : Word) : Prop :=
  ∀ i < n.toNat, head.get m (p + BitVec.ofNat 64 (4096 * i)) .size = PAGE_SIZE

end OptimistOS
