import OptimistOS.Paging.PageDirectoryEntry

/-!
# The flags of an entry

The flags that `pageTableFlag` declares, each one bit of an entry. The address of
an entry is in the bits 12 to 51, on all levels. `PATlg`, which belongs to the
larger pages, is bit 12: it is overwritten with the address, and changes it. All
other flags are independent of the address (`independent_iff`).
-/

namespace OptimistOS

open ByteMemory PageDirectoryEntry

/-- `pageTableFlag`. -/
inductive DeclaredFlag
  | present
  | readWrite
  | userOrSuperuser
  | writeThrough
  | cacheDisable
  | accessed
  | largerPages
  | pat4k
  | global
  | custom0
  | custom1
  | custom2
  | patlg
  | noExec
  deriving DecidableEq, Repr

namespace DeclaredFlag

def bit : DeclaredFlag → ℕ
  | present => 0
  | readWrite => 1
  | userOrSuperuser => 2
  | writeThrough => 3
  | cacheDisable => 4
  | accessed => 5
  | largerPages => 7
  | pat4k => 7
  | global => 8
  | custom0 => 9
  | custom1 => 10
  | custom2 => 11
  | patlg => 12
  | noExec => 63

def value (f : DeclaredFlag) : Word := 1#64 <<< f.bit

theorem bit_lt (f : DeclaredFlag) : f.bit < 64 := by
  cases f <;> decide

theorem addressMask_bit (f : DeclaredFlag) :
    addressMask.getLsbD f.bit = true ↔ f = patlg := by
  cases f <;> decide

theorem getLsbD_value (f : DeclaredFlag) (i : ℕ) :
    f.value.getLsbD i = decide (i = f.bit) :=
  getLsbD_one_shiftLeft f.bit_lt i

end DeclaredFlag

/-- What `setAddress` and `setFlag` do to an entry with the flag `f`. -/
structure Independent (e : PageDirectoryEntry) (a : Word) (f : DeclaredFlag) :
    Prop where
  address : getAddress (setAddress e a) = a &&& addressMask
  keepsFlag : getFlag (setAddress e a) f.value = getFlag e f.value
  flag : ∀ b, getFlag (setFlag e f.value b) f.value = b
  keepsAddress : ∀ b, getAddress (setFlag e f.value b) = getAddress e
  keepsBits : ∀ b i, i ≠ f.bit →
    (setFlag e f.value b).getLsbD i = e.getLsbD i

variable {f : DeclaredFlag}

theorem getFlag_eq_getLsbD (e : PageDirectoryEntry) (f : DeclaredFlag) :
    getFlag e f.value = e.getLsbD f.bit := by
  have hiff := and_one_shiftLeft_ne_zero e f.bit_lt
  rw [getFlag, DeclaredFlag.value]
  by_cases h : e.getLsbD f.bit = true
  · rw [h, decide_eq_true (hiff.2 h)]
  · rw [Bool.eq_false_iff.2 h, decide_eq_false (mt hiff.1 h)]

theorem getLsbD_setFlag_value (e : PageDirectoryEntry) (f : DeclaredFlag)
    (b : Bool) (i : ℕ) : (setFlag e f.value b).getLsbD i =
      if i = f.bit then b else e.getLsbD i := by
  have hlt := f.bit_lt
  by_cases hi : i < 64
  · rw [setFlag]
    cases b <;>
      simp only [Bool.false_eq_true, if_true, if_false, BitVec.getLsbD_or,
        BitVec.getLsbD_and, BitVec.getLsbD_not, f.getLsbD_value, hi,
        decide_true, Bool.true_and] <;>
      by_cases hb : i = f.bit <;> simp [hb]
  · rw [BitVec.getLsbD_of_ge _ _ (by omega), BitVec.getLsbD_of_ge _ _ (by omega),
      if_neg (by omega)]

theorem getAddress_setFlag (e : PageDirectoryEntry) (b : Bool)
    (hf : f ≠ .patlg) : getAddress (setFlag e f.value b) = getAddress e := by
  rw [getAddress_eq, getAddress_eq]
  refine BitVec.eq_of_getLsbD_eq fun i _ => ?_
  rw [BitVec.getLsbD_and, BitVec.getLsbD_and, getLsbD_setFlag_value]
  split_ifs with hi
  · rw [hi, Bool.eq_false_iff.2 (mt f.addressMask_bit.1 hf), Bool.and_false,
      Bool.and_false]
  · rfl

theorem getFlag_setAddress (e : PageDirectoryEntry) (a : Word)
    (hf : f ≠ .patlg) :
    getFlag (setAddress e a) f.value = getFlag e f.value := by
  have hbit := mt f.addressMask_bit.1 hf
  rw [getFlag_eq_getLsbD, getFlag_eq_getLsbD, getLsbD_setAddress]
  refine if_neg fun hin => hbit ?_
  rw [getLsbD_addressMask, decide_eq_true hin.1, decide_eq_true hin.2]
  rfl

theorem getAddress_setAddress (e : PageDirectoryEntry) (a : Word) :
    getAddress (setAddress e a) = a &&& addressMask := by
  rw [getAddress_eq]
  refine BitVec.eq_of_getLsbD_eq fun i _ => ?_
  rw [BitVec.getLsbD_and, BitVec.getLsbD_and, getLsbD_setAddress,
    getLsbD_addressMask]
  split_ifs with hi
  · rfl
  · rw [← Bool.decide_and, decide_eq_false hi, Bool.and_false, Bool.and_false]

theorem not_independent_patlg (e : PageDirectoryEntry) (a : Word) :
    ¬ Independent e a .patlg := by
  intro h
  have hsame : ∀ b : Bool, b = e.getLsbD 12 := by
    intro b
    have haddress := congrArg (fun v => BitVec.getLsbD v 12)
      (h.keepsAddress b)
    have hmask : addressMask.getLsbD 12 = true := by decide
    rwa [getAddress_eq, getAddress_eq, BitVec.getLsbD_and, BitVec.getLsbD_and,
      hmask, Bool.and_true, Bool.and_true, getLsbD_setFlag_value,
      if_pos (show 12 = DeclaredFlag.patlg.bit from rfl)] at haddress
  exact absurd ((hsame true).trans (hsame false).symm) (by simp)

/-- All declared flags but `PATlg` are independent of the address. -/
theorem independent_iff (e : PageDirectoryEntry) (a : Word) (f : DeclaredFlag) :
    Independent e a f ↔ f ≠ .patlg := by
  refine ⟨fun h hf => not_independent_patlg e a (hf ▸ h), fun hf =>
    ⟨getAddress_setAddress e a, getFlag_setAddress e a hf, fun b => ?_,
      fun b => getAddress_setFlag e b hf, fun b i hi => ?_⟩⟩
  · rw [getFlag_eq_getLsbD, getLsbD_setFlag_value, if_pos rfl]
  · rw [getLsbD_setFlag_value, if_neg hi]

/-- Setting `PATlg` in an empty entry gives it an address. -/
theorem exists_not_independent :
    ∃ (e : PageDirectoryEntry) (a : Word) (f : DeclaredFlag),
      ¬ Independent e a f :=
  ⟨0, 0, .patlg, not_independent_patlg 0 0⟩

end OptimistOS
