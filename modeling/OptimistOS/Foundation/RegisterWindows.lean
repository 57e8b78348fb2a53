import Mathlib.Data.BitVec
import Mathlib.Logic.Function.Basic

/-!
# Registers behind a window

A device shows one of its registers at a time. A word written to its base address
selects the register, which is then read and written at a window `win` bytes
further on. A bus has a device at every base address. Devices that are `Apart`, so
that neither of the two words of one is a word of the other, do not notice each
other.
-/

namespace RegisterWindow

variable {w n k : ℕ}

structure Device (n k : ℕ) where
  select : BitVec n
  registers : BitVec n → BitVec k

/-- The devices by their base addresses. -/
abbrev Bus (w n k : ℕ) := BitVec w → Device n k

namespace Bus

def write (win a : BitVec w) (value : BitVec k) (d : Bus w n k) : Bus w n k :=
  fun base =>
    if base = a then { d base with select := value.setWidth n }
    else if base + win = a then
      { d base with
        registers := Function.update (d base).registers (d base).select value }
    else d base

/-- The word in the window at the address `a`. -/
def read (win a : BitVec w) (d : Bus w n k) : BitVec k :=
  (d (a - win)).registers (d (a - win)).select

/-- No word of one device is one of the other. -/
structure Apart (win base base' : BitVec w) : Prop where
  base_ne : base' ≠ base
  base_ne_window : base' ≠ base + win
  window_ne_base : base' + win ≠ base

variable {win base base' : BitVec w} {d : Bus w n k} {value reg : BitVec k}

theorem write_base : write win base value d base =
    { d base with select := value.setWidth n } :=
  if_pos rfl

theorem ne_add_window (hwin : win ≠ 0) : base ≠ base + win := by
  intro h
  exact hwin (BitVec.add_right_eq_self.1 h.symm)

theorem write_window (hwin : win ≠ 0) : write win (base + win) value d base =
    { d base with
      registers := Function.update (d base).registers (d base).select value } := by
  rw [write, if_neg (ne_add_window hwin), if_pos rfl]

theorem Apart.write_base (h : Apart win base base') :
    write win base value d base' = d base' := by
  rw [write, if_neg h.base_ne, if_neg h.window_ne_base]

theorem Apart.write_window (h : Apart win base base') :
    write win (base + win) value d base' = d base' := by
  rw [write, if_neg h.base_ne_window, if_neg]
  exact fun heq => h.base_ne ((BitVec.add_left_inj win).1 heq)

theorem read_write_base (d : Bus w n k) (win base : BitVec w) (reg : BitVec k) :
    read win (base + win) (write win base reg d) =
      (d base).registers (reg.setWidth n) := by
  rw [read, BitVec.add_sub_cancel, Bus.write_base]

theorem registers_write_write (hwin : win ≠ 0) :
    (write win (base + win) value (write win base reg d) base).registers =
      Function.update (d base).registers (reg.setWidth n) value := by
  rw [Bus.write_window hwin, Bus.write_base]

theorem Apart.write_write (h : Apart win base base') :
    write win (base + win) value (write win base reg d) base' = d base' := by
  rw [h.write_window, h.write_base]

end Bus

end RegisterWindow
