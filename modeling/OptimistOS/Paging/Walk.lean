import OptimistOS.Foundation.RadixTree
import OptimistOS.Paging.Paging

/-!
# The four-level walk

The translation of a virtual address by the processor, with 4 KB, 2 MB and 1 GB
pages, as a function of the memory that holds the tables. `translate_eq` reads
it as the end of a walk down a radix tree, seen by `pageOf`.
-/

namespace OptimistOS

open ByteMemory RadixTree

/-- A canonical address: bits 47 to 63 are equal. -/
def Canonical (v : Word) : Prop := (v.setWidth 48).signExtend 64 = v

instance (v : Word) : Decidable (Canonical v) :=
  inferInstanceAs (Decidable (_ = _))

theorem canonical_of_div {v : Word}
    (h : v.toNat / 2 ^ 47 = 0 ∨ v.toNat / 2 ^ 47 = 2 ^ 17 - 1) :
    Canonical v := by
  have hbit : ∀ i, 47 ≤ i → i < 64 → v.getLsbD i = v.getLsbD 47 := by
    intro i hi hi'
    have hdiv : ∀ j, 47 ≤ j →
        v.getLsbD j = (v.toNat / 2 ^ 47).testBit (j - 47) := by
      intro j hj
      rw [Nat.testBit_div_two_pow, Nat.sub_add_cancel hj]
      rfl
    rw [hdiv i hi, hdiv 47 le_rfl]
    rcases h with h | h
    · rw [h, Nat.zero_testBit, Nat.zero_testBit]
    · rw [h, Nat.testBit_two_pow_sub_one, Nat.testBit_two_pow_sub_one,
        decide_eq_true (by omega), decide_eq_true (by omega)]
  refine BitVec.eq_of_getLsbD_eq fun i hi => ?_
  rw [BitVec.getLsbD_signExtend, decide_eq_true hi, Bool.true_and]
  split_ifs with h48
  · rw [BitVec.getLsbD_setWidth, decide_eq_true h48, Bool.true_and]
  · rw [BitVec.msb_eq_getLsbD_last, BitVec.getLsbD_setWidth,
      decide_eq_true (by decide), Bool.true_and, hbit i (by omega) hi]

def upperHalf : Word := 0xffff800000000000

theorem canonical_of_lt {v : Word} (h : v.toNat < 2 ^ 47) : Canonical v :=
  canonical_of_div (Or.inl (Nat.div_eq_of_lt h))

theorem canonical_of_le {v : Word} (h : upperHalf.toNat ≤ v.toNat) :
    Canonical v := by
  have hlt := v.isLt
  have hupper : upperHalf.toNat = 2 ^ 64 - 2 ^ 47 := by decide
  exact canonical_of_div (Or.inr (by omega))

def levelIndex (v : Word) (k : ℕ) : BitVec 9 := v.extractLsb' (12 + 9 * k) 9

def levelIndices (v : Word) : List (BitVec 9) :=
  [levelIndex v 3, levelIndex v 2, levelIndex v 1, levelIndex v 0]

/-- The pointer to entry `i` of the table at the physical address `t`, in the
direct map at `hhdmOffset`. -/
def tableSlot (hhdmOffset : Word) (t : Word) (i : BitVec 9) : Addr :=
  t + hhdmOffset + BitVec.ofNat 64 (8 * i.toNat)

def tableEntry (m : Bytes) (hhdmOffset : Word) (t : Word) (i : BitVec 9) :
    PageDirectoryEntry :=
  word m (tableSlot hhdmOffset t i)

def isPresent (e : PageDirectoryEntry) : Bool := e.getLsbD 0

def isPage (e : PageDirectoryEntry) : Bool := e.getLsbD 7

/-- The bits of an address inside a page of `2 ^ k` bytes. -/
def offsetMask (k : ℕ) : Word := 1#64 <<< k - 1#64

/-- The translation by a page of `2 ^ k` bytes. The bits from 13 to `k - 1` are
reserved; bit 12 of a page larger than 4 KB belongs to the memory type. -/
def pageTranslate (k : ℕ) (e : PageDirectoryEntry) (v : Word) : Option Word :=
  if e &&& (offsetMask k &&& ~~~offsetMask 13) = 0 then
    some ((e &&& addressMask &&& ~~~offsetMask k) ||| (v &&& offsetMask k))
  else none

def walkPT (m : Bytes) (hhdmOffset t v : Word) : Option Word :=
  let pte := tableEntry m hhdmOffset t (levelIndex v 0)
  if isPresent pte then pageTranslate 12 pte v else none

def walkPD (m : Bytes) (hhdmOffset t v : Word) : Option Word :=
  let pde := tableEntry m hhdmOffset t (levelIndex v 1)
  if isPresent pde then
    if isPage pde then pageTranslate 21 pde v
    else walkPT m hhdmOffset (pde &&& addressMask) v
  else none

/-- The translation from the page directory pointer table at `t` on. -/
def walkPDPT (m : Bytes) (hhdmOffset t v : Word) : Option Word :=
  let pdpte := tableEntry m hhdmOffset t (levelIndex v 2)
  if isPresent pdpte then
    if isPage pdpte then pageTranslate 30 pdpte v
    else walkPD m hhdmOffset (pdpte &&& addressMask) v
  else none

/-- The walk of the processor from the table at `PML4`. In the entries of the
top level, bit 7 is reserved. -/
def translate (m : Bytes) (hhdmOffset PML4 v : Word) : Option Word :=
  if Canonical v then
    let pml4e := tableEntry m hhdmOffset PML4 (levelIndex v 3)
    if isPresent pml4e then
      if isPage pml4e then none
      else walkPDPT m hhdmOffset (pml4e &&& addressMask) v
    else none
  else none

def childTable (e : PageDirectoryEntry) : Option Word :=
  if isPresent e ∧ ¬ isPage e then some (e &&& addressMask) else none

/-- The translation of `v` by the entry at which a walk has ended, with the
indices it has left over. -/
def pageOf (v : Word) : Option (PageDirectoryEntry × List (BitVec 9)) →
    Option Word
  | some (e, []) => if isPresent e then pageTranslate 12 e v else none
  | some (e, [_]) => if isPresent e then pageTranslate 21 e v else none
  | some (e, [_, _]) => if isPresent e then pageTranslate 30 e v else none
  | _ => none

theorem childTable_of_page {e : PageDirectoryEntry} (h : isPage e = true) :
    childTable e = none :=
  if_neg fun hc => hc.2 h

theorem childTable_of_not_present {e : PageDirectoryEntry}
    (h : isPresent e = false) : childTable e = none :=
  if_neg fun hc => by simp [h] at hc

theorem childTable_of_table {e : PageDirectoryEntry} (h : isPresent e = true)
    (h' : isPage e = false) : childTable e = some (e &&& addressMask) :=
  if_pos ⟨h, by simp [h']⟩

/-- The walk is the end of a path in the tree of tables. -/
theorem translate_eq (m : Bytes) (hhdmOffset PML4 v : Word) :
    translate m hhdmOffset PML4 v =
      if Canonical v then
        pageOf v (resolve childTable (tableEntry m hhdmOffset) PML4
          (levelIndices v))
      else none := by
  have hpt : ∀ t, pageOf v (resolve childTable (tableEntry m hhdmOffset) t
      [levelIndex v 0]) = walkPT m hhdmOffset t v := fun t => rfl
  have hpd : ∀ t, pageOf v (resolve childTable (tableEntry m hhdmOffset) t
      [levelIndex v 1, levelIndex v 0]) = walkPD m hhdmOffset t v := by
    intro t
    rw [resolve, walkPD]
    generalize tableEntry m hhdmOffset t (levelIndex v 1) = e
    cases hp : isPresent e
    · simp [childTable_of_not_present hp, pageOf, hp]
    · cases hs : isPage e
      · simp [childTable_of_table hp hs, hpt]
      · simp [childTable_of_page hs, pageOf, hp]
  have hpdpt : ∀ t, pageOf v (resolve childTable (tableEntry m hhdmOffset) t
      [levelIndex v 2, levelIndex v 1, levelIndex v 0]) =
        walkPDPT m hhdmOffset t v := by
    intro t
    rw [resolve, walkPDPT]
    generalize tableEntry m hhdmOffset t (levelIndex v 2) = e
    cases hp : isPresent e
    · simp [childTable_of_not_present hp, pageOf, hp]
    · cases hs : isPage e
      · simp [childTable_of_table hp hs, hpd]
      · simp [childTable_of_page hs, pageOf, hp]
  rw [translate, levelIndices, resolve]
  generalize tableEntry m hhdmOffset PML4 (levelIndex v 3) = e
  cases hp : isPresent e
  · simp [childTable_of_not_present hp, pageOf, hp]
  · cases hs : isPage e
    · simp [childTable_of_table hp hs, hpdpt, hp, hs]
    · simp [childTable_of_page hs, pageOf, hs]

end OptimistOS
