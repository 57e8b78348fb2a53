import OptimistOS.Boot.BootInfo
import OptimistOS.Foundation.Masks

/-!
# Entries of page tables

`PageDirectoryEntry` and `pageTableFlag` of `paging.hpp`. Entries have one
format on all levels: bits 12 to 51 hold a physical address, the other bits
hold flags. The lemmas say what an entry looks like after `getNextLevelPointer`
has linked a table into it (`linkEntry`) and after `map` has written a page
(`pageEntry`).
-/

namespace OptimistOS

open ByteMemory

namespace PageTableFlag

def present : Word := 1#64 <<< 0

def readWrite : Word := 1#64 <<< 1

def userOrSuperuser : Word := 1#64 <<< 2

def largerPages : Word := 1#64 <<< 7

end PageTableFlag

abbrev PageDirectoryEntry := Word

def addressMask : Word := 0x000FFFFFFFFFF000

namespace PageDirectoryEntry

def setFlag (value : PageDirectoryEntry) (flag : Word) (enable : Bool) :
    PageDirectoryEntry :=
  let value := value &&& ~~~flag
  if enable then value ||| flag else value

def getFlag (value : PageDirectoryEntry) (flag : Word) : Bool :=
  value &&& flag ≠ 0

def setAddress (value : PageDirectoryEntry) (address : Word) :
    PageDirectoryEntry :=
  let value := value &&& ~~~addressMask
  value ||| (address &&& addressMask)

def getAddress (value : PageDirectoryEntry) : Word :=
  if value ≠ 0 then value &&& addressMask else 0

def isValid (value : PageDirectoryEntry) : Bool :=
  if getFlag value PageTableFlag.present then
    if getAddress value = 0 then false else true
  else false

end PageDirectoryEntry

open PageDirectoryEntry

theorem getLsbD_addressMask (i : ℕ) :
    addressMask.getLsbD i = (decide (12 ≤ i) && decide (i < 52)) := by
  by_cases hi : i < 64
  · have hall : ∀ j : Fin 64, addressMask.getLsbD j =
        (decide (12 ≤ (j : ℕ)) && decide ((j : ℕ) < 52)) := by decide
    exact hall ⟨i, hi⟩
  · rw [BitVec.getLsbD_of_ge _ _ (by omega), decide_eq_false (by omega : ¬ i < 52),
      Bool.and_false]

theorem getAddress_eq (e : PageDirectoryEntry) :
    getAddress e = e &&& addressMask := by
  rw [getAddress]
  split_ifs with h
  · rfl
  · rw [not_not.1 h]
    exact BitVec.zero_and.symm

/-- An address that an entry can hold: page aligned and below 2^52. -/
def IsFrameAddress (a : Word) : Prop := a &&& addressMask = a

theorem isFrameAddress_of_mod {a : Word} (hmod : a.toNat % 4096 = 0)
    (hlt : a.toNat < 2 ^ 52) : IsFrameAddress a := by
  refine BitVec.eq_of_getLsbD_eq fun i _ => ?_
  rw [BitVec.getLsbD_and, getLsbD_addressMask]
  by_cases hi : 12 ≤ i
  · by_cases hi' : i < 52
    · simp [hi, hi']
    · have hzero : a.getLsbD i = false := by
        rw [BitVec.getLsbD, Nat.testBit_lt_two_pow]
        exact lt_of_lt_of_le hlt (Nat.pow_le_pow_right (by decide) (by omega))
      rw [hzero, Bool.false_and]
  · have hzero : a.getLsbD i = false := by
      obtain ⟨k, hk⟩ := Nat.dvd_of_mod_eq_zero hmod
      rw [BitVec.getLsbD, hk, show (4096 : ℕ) = 2 ^ 12 by rfl,
        Nat.testBit_two_pow_mul, decide_eq_false (by omega), Bool.false_and]
    rw [hzero, Bool.false_and]

theorem IsFrameAddress.getLsbD {a : Word} (h : IsFrameAddress a) {i : ℕ}
    (hi : i < 12 ∨ 52 ≤ i) : a.getLsbD i = false := by
  rw [← h, BitVec.getLsbD_and, getLsbD_addressMask]
  rcases hi with hi | hi
  · rw [decide_eq_false (by omega : ¬ 12 ≤ i), Bool.false_and, Bool.and_false]
  · rw [decide_eq_false (by omega : ¬ i < 52), Bool.and_false, Bool.and_false]

def pageEntry (value : PageDirectoryEntry) (physicalAddr flags : Word) :
    PageDirectoryEntry :=
  setFlag (setAddress value physicalAddr) flags true

def linkEntry (value : PageDirectoryEntry) (address : Word) :
    PageDirectoryEntry :=
  setFlag (setFlag (setFlag (setAddress value address) PageTableFlag.readWrite
    true) PageTableFlag.userOrSuperuser true) PageTableFlag.present true

theorem getLsbD_setFlag (e : PageDirectoryEntry) (flags : Word) (i : ℕ) :
    (setFlag e flags true).getLsbD i = (e.getLsbD i || flags.getLsbD i) := by
  by_cases hi : i < 64
  · simp only [setFlag, if_true, BitVec.getLsbD_or, BitVec.getLsbD_and,
      BitVec.getLsbD_not, hi, decide_true, Bool.true_and]
    cases e.getLsbD i <;> cases flags.getLsbD i <;> rfl
  · rw [BitVec.getLsbD_of_ge _ _ (by omega), BitVec.getLsbD_of_ge _ _ (by omega),
      BitVec.getLsbD_of_ge _ _ (by omega)]
    rfl

theorem getLsbD_setAddress (e : PageDirectoryEntry) (a : Word) (i : ℕ) :
    (setAddress e a).getLsbD i =
      if 12 ≤ i ∧ i < 52 then a.getLsbD i else e.getLsbD i := by
  by_cases hi : i < 64
  · simp only [setAddress, BitVec.getLsbD_or, BitVec.getLsbD_and,
      BitVec.getLsbD_not, getLsbD_addressMask, hi, decide_true, Bool.true_and]
    by_cases h : 12 ≤ i ∧ i < 52
    · simp [h]
    · rw [if_neg h]
      rcases not_and_or.1 h with h | h <;> simp [h]
  · rw [BitVec.getLsbD_of_ge _ _ (by omega), if_neg (by omega),
      BitVec.getLsbD_of_ge _ _ (by omega)]

theorem getLsbD_pageEntry (e : PageDirectoryEntry) {a flags : Word}
    (hflags : flags &&& addressMask = 0) (i : ℕ) :
    (pageEntry e a flags).getLsbD i =
      if 12 ≤ i ∧ i < 52 then a.getLsbD i
      else (e.getLsbD i || flags.getLsbD i) := by
  rw [pageEntry, getLsbD_setFlag, getLsbD_setAddress]
  split_ifs with h
  · have hbit : flags.getLsbD i = false := by
      have hzero := congrArg (fun x : Word => x.getLsbD i) hflags
      simpa [getLsbD_addressMask, h.1, h.2] using hzero
    rw [hbit, Bool.or_false]
  · rfl

theorem pageEntry_and_addressMask (e : PageDirectoryEntry) {a flags : Word}
    (hflags : flags &&& addressMask = 0) :
    pageEntry e a flags &&& addressMask = a &&& addressMask := by
  refine BitVec.eq_of_getLsbD_eq fun i _ => ?_
  rw [BitVec.getLsbD_and, BitVec.getLsbD_and, getLsbD_pageEntry e hflags,
    getLsbD_addressMask]
  split_ifs with h
  · rfl
  · rcases not_and_or.1 h with h | h <;> simp [h]

theorem getLsbD_linkEntry {a : Word} (ha : IsFrameAddress a) (i : ℕ) :
    (linkEntry 0 a).getLsbD i = (a.getLsbD i || decide (i < 3)) := by
  have hset : setAddress 0 a = a := by
    rw [setAddress, ha]
    exact (congrArg (· ||| a) BitVec.zero_and).trans BitVec.zero_or
  rw [linkEntry, getLsbD_setFlag, getLsbD_setFlag, getLsbD_setFlag, hset,
    PageTableFlag.readWrite, PageTableFlag.userOrSuperuser,
    PageTableFlag.present, Bool.or_assoc, Bool.or_assoc]
  congr 1
  by_cases hi : i < 64
  · have hall : ∀ j : Fin 64, ((1#64 <<< 1).getLsbD j ||
        ((1#64 <<< 2).getLsbD j || (1#64 <<< 0).getLsbD j)) =
          decide ((j : ℕ) < 3) := by decide
    exact hall ⟨i, hi⟩
  · rw [BitVec.getLsbD_of_ge _ _ (by omega), BitVec.getLsbD_of_ge _ _ (by omega),
      BitVec.getLsbD_of_ge _ _ (by omega), decide_eq_false (by omega)]
    rfl

theorem linkEntry_and_addressMask {a : Word} (ha : IsFrameAddress a) :
    linkEntry 0 a &&& addressMask = a := by
  refine BitVec.eq_of_getLsbD_eq fun i _ => ?_
  rw [BitVec.getLsbD_and, getLsbD_linkEntry ha, getLsbD_addressMask]
  by_cases h : 12 ≤ i ∧ i < 52
  · simp [h, show ¬ i < 3 by omega]
  · rw [ha.getLsbD (by omega)]
    rcases not_and_or.1 h with h | h <;> simp [h]

theorem getFlag_present (e : PageDirectoryEntry) :
    getFlag e PageTableFlag.present = e.getLsbD 0 := by
  rw [getFlag, PageTableFlag.present, Bool.eq_iff_iff, decide_eq_true_iff]
  exact and_one_shiftLeft_ne_zero e (by decide)

theorem isValid_iff (e : PageDirectoryEntry) :
    isValid e = true ↔ e.getLsbD 0 = true ∧ e &&& addressMask ≠ 0 := by
  rw [isValid, getFlag_present, getAddress_eq]
  by_cases h0 : e.getLsbD 0 = true
  · rw [if_pos h0]
    by_cases h1 : e &&& addressMask = 0
    · rw [if_pos h1]
      exact ⟨fun h => absurd h (by decide), fun h => absurd h1 h.2⟩
    · rw [if_neg h1]
      exact ⟨fun _ => ⟨h0, h1⟩, fun _ => rfl⟩
  · rw [if_neg h0]
    exact ⟨fun h => absurd h (by decide), fun h => absurd h.1 h0⟩

end OptimistOS
