import OptimistOS.Printutils.E9Print

/-!
# The renderer

Characters are drawn as cells of 8 by 16 pixels. The cursor is two unsigned
32-bit numbers. A cell that reaches to the end of their range is not drawn at
all, as the bounds of the loops over its rows and columns wrap to zero
(`mem_putChar`). The font and the strings lie outside the frame buffer, so that
no pixel in it changes them.
-/

namespace OptimistOS

open CString

/-- `unsigned int`. -/
abbrev Unsigned := BitVec 32

structure Point where
  X : Unsigned
  Y : Unsigned
  deriving DecidableEq, Repr

structure Framebuffer where
  BaseAddress : Word
  Width : Unsigned
  Height : Unsigned
  PixelsPerScanLine : Unsigned

structure PSF1_FONT where
  charsize : Byte
  glyphBuffer : ℤ → Byte

structure BasicRenderer where
  CursorPosition : Point
  framebuffer : Framebuffer
  psf1_font : PSF1_FONT
  color : Unsigned

structure Pixel where
  x : ℕ
  y : ℕ
  address : Word
  color : Unsigned

/-- A call of `PutChar`. -/
structure Draw where
  chr : Byte
  xOff : Unsigned
  yOff : Unsigned
  deriving DecidableEq, Repr

def Point.right (p : Point) : Point :=
  { p with X := p.X + 8 }

/-- `PutChar` at the cursor. -/
def Point.draw (p : Point) (chr : Byte) : Draw :=
  ⟨chr, p.X, p.Y⟩

namespace BasicRenderer

/-- The test of `PutChar` for the column `col` in the row `row` of a glyph.
`chr` is signed. -/
def lit (r : BasicRenderer) (chr : Byte) (row col : ℕ) : Bool :=
  let fontPtr := chr.toInt * r.psf1_font.charsize.toNat + row
  decide (0 < ((r.psf1_font.glyphBuffer fontPtr).signExtend 32 &&&
    (0b10000000#32 >>> col)).toInt)

def pixel (r : BasicRenderer) (x y : ℕ) : Pixel where
  x := x
  y := y
  address := r.framebuffer.BaseAddress + 4 * (BitVec.ofNat 64 x +
    BitVec.ofNat 64 y * r.framebuffer.PixelsPerScanLine.setWidth 64)
  color := r.color

def putChar (r : BasicRenderer) (d : Draw) : List Pixel :=
  (List.range' d.yOff.toNat ((d.yOff + 16).toNat - d.yOff.toNat)).flatMap fun y =>
    ((List.range' d.xOff.toNat ((d.xOff + 8).toNat - d.xOff.toNat)).filter
      fun x => r.lit d.chr (y - d.yOff.toNat) (x - d.xOff.toNat)).map
        fun x => r.pixel x y

variable {r : BasicRenderer} {d : Draw} {p : Pixel}

theorem mem_range'_add (u v : Unsigned) {x : ℕ} :
    x ∈ List.range' u.toNat ((u + v).toNat - u.toNat) ↔
      u.toNat + v.toNat < 2 ^ 32 ∧ ∃ i < v.toNat, x = u.toNat + i := by
  rw [List.mem_range'_1]
  constructor
  · rintro ⟨hlow, hhigh⟩
    have hadd : (u + v).toNat = (u.toNat + v.toNat) % 2 ^ 32 :=
      BitVec.toNat_add u v
    exact ⟨by omega, x - u.toNat, by omega, by omega⟩
  · rintro ⟨hlt, i, hi, rfl⟩
    rw [BitVec.toNat_add_of_lt hlt]
    omega

/-- The pixels of a character: none if the cell reaches to the end of the range
of the coordinates. -/
theorem mem_putChar : p ∈ r.putChar d ↔
    (d.xOff.toNat + 8 < 2 ^ 32 ∧ d.yOff.toNat + 16 < 2 ^ 32) ∧
      ∃ row < 16, ∃ col < 8, r.lit d.chr row col = true ∧
        p = r.pixel (d.xOff.toNat + col) (d.yOff.toNat + row) := by
  simp only [putChar, List.mem_flatMap, List.mem_map, List.mem_filter,
    mem_range'_add _ (8 : Unsigned), mem_range'_add _ (16 : Unsigned)]
  constructor
  · rintro ⟨_, ⟨hy, row, hrow, rfl⟩, _, ⟨⟨hx, col, hcol, rfl⟩, hlit⟩, rfl⟩
    rw [Nat.add_sub_cancel_left, Nat.add_sub_cancel_left] at hlit
    exact ⟨⟨hx, hy⟩, row, hrow, col, hcol, hlit, rfl⟩
  · rintro ⟨⟨hx, hy⟩, row, hrow, col, hcol, hlit, rfl⟩
    refine ⟨_, ⟨hy, row, hrow, rfl⟩, _, ⟨⟨hx, col, hcol, rfl⟩, ?_⟩, rfl⟩
    rwa [Nat.add_sub_cancel_left, Nat.add_sub_cancel_left]

end BasicRenderer

end OptimistOS
