import OptimistOS.Renderer.BasicRenderer

/-!
# Printing a string on the screen

`Print` sets its string in lines of `Width / 8` characters. Only the column of the
cursor is compared with the size of the screen: the lines go on below the lower
edge. `printsInside_iff` says which strings are drawn inside the screen.
-/

namespace OptimistOS

open CString

namespace BasicRenderer

/-- The cursor goes to the next line when there is no room for a character. -/
def wrap (r : BasicRenderer) (cursor : Point) : Point :=
  if cursor.X + 8 > r.framebuffer.Width then ⟨0, cursor.Y + 16⟩ else cursor

def printChar (r : BasicRenderer) (c : Byte) : Point × List Draw :=
  if c = ascii '\n' then (r.wrap ⟨0, r.CursorPosition.Y + 16⟩, [])
  else if c = ascii '\t' then (r.wrap r.CursorPosition.right, [])
  else (r.wrap r.CursorPosition.right, [r.CursorPosition.draw c])

def moveTo (r : BasicRenderer) (cursor : Point) : BasicRenderer :=
  { r with CursorPosition := cursor }

def print (str : ℤ → Byte) :
    ℕ → ℤ → BasicRenderer → Option (BasicRenderer × List Draw)
  | 0, _, _ => none
  | fuel + 1, i, r =>
      if str i ≠ 0 then
        let next := r.printChar (str i)
        (print str fuel (i + 1) (r.moveTo next.1)).map
          fun x => (x.1, next.2 ++ x.2)
      else some (r, [])

/-- `Print` ends, and writes only pixels that are on the screen. -/
def PrintsInside (r : BasicRenderer) (str : ℤ → Byte) : Prop :=
  ∃ fuel x, print str fuel 0 r = some x ∧ ∀ d ∈ x.2, ∀ p ∈ r.putChar d,
    p.x < r.framebuffer.Width.toNat ∧ p.y < r.framebuffer.Height.toNat

end BasicRenderer

/-- A character in the column `col` of a line. -/
structure Cell where
  line : ℕ
  col : ℕ
  chr : Byte
  deriving DecidableEq, Repr

/-- A text set in lines of `w` characters. `n` lines precede the last newline and
`l` characters follow it. With `w = 0` lines have no end. -/
def cells (w : ℕ) : ℕ → ℕ → List Byte → List Cell
  | _, _, [] => []
  | n, l, c :: text =>
      if c = ascii '\n' then cells w (n + l / w + 1) 0 text
      else if c = ascii '\t' then cells w n (l + 1) text
      else ⟨n + l / w, l % w, c⟩ :: cells w n (l + 1) text

/-- The characters of a line. On a screen of almost 2^32 columns the sum
`CursorPosition.X + 8` wraps before it exceeds the width. -/
def columns (width : Unsigned) : ℕ :=
  if width.toNat + 8 < 2 ^ 32 then width.toNat / 8 else 0

namespace Cell

/-- The place on the screen, in 32-bit arithmetic. -/
def draw (c : Cell) : Draw :=
  ⟨c.chr, BitVec.ofNat 32 (8 * c.col), BitVec.ofNat 32 (16 * c.line)⟩

/-- All lit rows of the character are above the lower edge, if the character is
drawn at all. -/
def Fits (r : BasicRenderer) (c : Cell) : Prop :=
  8 * c.col % 2 ^ 32 + 8 < 2 ^ 32 → 16 * c.line % 2 ^ 32 + 16 < 2 ^ 32 →
    ∀ row < 16, (∃ col < 8, r.lit c.chr row col = true) →
      16 * c.line % 2 ^ 32 + row < r.framebuffer.Height.toNat

instance (r : BasicRenderer) (c : Cell) : Decidable (c.Fits r) :=
  inferInstanceAs (Decidable (_ → _ → ∀ row < 16, _ → _))

end Cell

variable {r : BasicRenderer} {w n l : ℕ} {c : Byte} {text : List Byte}
  {str : ℤ → Byte} {fuel : ℕ} {i : ℤ}

def cursorAt (w n l : ℕ) : Point :=
  ⟨BitVec.ofNat 32 (8 * (l % w)), BitVec.ofNat 32 (16 * (n + l / w))⟩

theorem ofNat_mul_succ (a b : ℕ) :
    BitVec.ofNat 32 (a * (b + 1)) = BitVec.ofNat 32 (a * b) + BitVec.ofNat 32 a := by
  rw [Nat.mul_succ, BitVec.ofNat_add]

theorem cursorAt_newline :
    (⟨0, (cursorAt w n l).Y + 16⟩ : Point) = cursorAt w (n + l / w + 1) 0 := by
  simp only [cursorAt, Nat.zero_mod, Nat.zero_div, Nat.add_zero, Nat.mul_zero,
    ofNat_mul_succ]
  rfl

theorem cursorAt_right (h : w = 0 ∨ l % w + 1 < w) :
    (cursorAt w n l).right = cursorAt w n (l + 1) := by
  have hstep : (l + 1) % w = l % w + 1 ∧ (l + 1) / w = l / w := by
    rcases h with rfl | h
    · simp
    · have hl := Nat.div_add_mod l w
      have hnext : l + 1 = w * (l / w) + (l % w + 1) := by omega
      constructor
      · rw [hnext, Nat.mul_add_mod, Nat.mod_eq_of_lt h]
      · rw [hnext, Nat.mul_add_div (by omega), Nat.div_eq_of_lt h, Nat.add_zero]
  simp only [cursorAt, Point.right, hstep, ofNat_mul_succ]
  rfl

theorem cursorAt_wrap (h : l % w + 1 = w) :
    (⟨0, (cursorAt w n l).right.Y + 16⟩ : Point) = cursorAt w n (l + 1) := by
  have hl := Nat.div_add_mod l w
  have hnext : l + 1 = w * (l / w + 1) := by
    rw [Nat.mul_succ]
    omega
  have hstep : (l + 1) % w = 0 ∧ (l + 1) / w = l / w + 1 := by
    rw [hnext]
    exact ⟨Nat.mul_mod_right _ _, Nat.mul_div_cancel_left _ (by omega)⟩
  simp only [cursorAt, Point.right, hstep, ← Nat.add_assoc, ofNat_mul_succ]
  rfl

theorem right_gt_width_iff {width : Unsigned} (hwidth : 8 ≤ width.toNat) :
    (cursorAt (columns width) n l).right.X + 8 > width ↔
      columns width ≠ 0 ∧ l % columns width + 1 = columns width := by
  have hlt := width.isLt
  rw [columns]
  split_ifs with hw
  · have hcol : l % (width.toNat / 8) < width.toNat / 8 :=
      Nat.mod_lt _ (by omega)
    have hX : (cursorAt (width.toNat / 8) n l).right.X =
        BitVec.ofNat 32 (8 * (l % (width.toNat / 8)) + 8) := by
      rw [BitVec.ofNat_add]
      rfl
    rw [hX, gt_iff_lt, BitVec.lt_def, BitVec.toNat_add, BitVec.toNat_ofNat,
      Nat.mod_eq_of_lt (show 8 * (l % (width.toNat / 8)) + 8 < 2 ^ 32 by omega),
      Nat.mod_eq_of_lt (show 8 * (l % (width.toNat / 8)) + 8 +
        (8 : BitVec 32).toNat < 2 ^ 32 from by
          rw [show (8 : BitVec 32).toNat = 8 from rfl]
          omega), show (8 : BitVec 32).toNat = 8 from rfl]
    omega
  · refine iff_of_false (fun h => ?_) (fun h => h.1 rfl)
    have hX : (cursorAt 0 n l).right.X + 8 = BitVec.ofNat 32 (8 * (l + 2)) := by
      rw [show 8 * (l + 2) = 8 * (l % 0) + 8 + 8 by rw [Nat.mod_zero]; omega,
        BitVec.ofNat_add, BitVec.ofNat_add]
      rfl
    rw [hX, gt_iff_lt, BitVec.lt_def, BitVec.toNat_ofNat] at h
    omega

namespace BasicRenderer

def At (r : BasicRenderer) (n l : ℕ) : Prop :=
  r.CursorPosition = cursorAt (columns r.framebuffer.Width) n l

theorem At.wrap_right (h : r.At n l) (hwidth : 8 ≤ r.framebuffer.Width.toNat) :
    r.wrap r.CursorPosition.right =
      cursorAt (columns r.framebuffer.Width) n (l + 1) := by
  rw [h, wrap]
  split_ifs with hgt
  · exact cursorAt_wrap ((right_gt_width_iff hwidth).1 hgt).2
  · rw [right_gt_width_iff hwidth, not_and_or, not_not] at hgt
    rcases Nat.eq_zero_or_pos (columns r.framebuffer.Width) with hzero | hpos
    · exact cursorAt_right (Or.inl hzero)
    · have hlt := Nat.mod_lt l hpos
      exact cursorAt_right (Or.inr (by omega))

theorem At.wrap_newline (h : r.At n l) (hwidth : 8 ≤ r.framebuffer.Width.toNat) :
    r.wrap ⟨0, r.CursorPosition.Y + 16⟩ =
      cursorAt (columns r.framebuffer.Width)
        (n + l / columns r.framebuffer.Width + 1) 0 := by
  rw [h, cursorAt_newline, wrap, if_neg]
  rw [gt_iff_lt, BitVec.lt_def, cursorAt, Nat.zero_mod]
  exact not_lt.2 hwidth

theorem At.draw_eq (h : r.At n l) (c : Byte) :
    r.CursorPosition.draw c = (Cell.mk (n + l / columns r.framebuffer.Width)
      (l % columns r.framebuffer.Width) c).draw := by
  rw [h]
  rfl

theorem print_succ (hne : str i ≠ 0) : print str (fuel + 1) i r =
    (print str fuel (i + 1)
      (r.moveTo (r.printChar (str i)).1)).map fun x =>
        (x.1, (r.printChar (str i)).2 ++ x.2) :=
  if_pos hne

/-- The characters drawn are those of the text, set in lines. -/
theorem print_spec (hwidth : 8 ≤ r.framebuffer.Width.toNat)
    (hstr : StringAt str i text) (h : r.At n l) {x : BasicRenderer × List Draw}
    (hrun : print str fuel i r = some x) :
    x.2 = (cells (columns r.framebuffer.Width) n l text).map Cell.draw := by
  induction text generalizing i n l r fuel x with
  | nil =>
      cases fuel with
      | zero => exact absurd hrun (by simp [print])
      | succ fuel =>
          rw [print, if_neg (not_not.2 (stringAt_nil.1 hstr))] at hrun
          obtain rfl := Option.some.inj hrun
          rfl
  | cons c text ih =>
      obtain ⟨rfl, hne, htail⟩ := hstr
      cases fuel with
      | zero => exact absurd hrun (by simp [print])
      | succ fuel =>
          rw [print_succ hne] at hrun
          obtain ⟨y, hy, rfl⟩ := Option.map_eq_some_iff.1 hrun
          rw [cells]
          rw [printChar] at hy ⊢
          split_ifs at hy ⊢ with hnewline htab
          · exact ih (r := r.moveTo (r.wrap ⟨0, r.CursorPosition.Y + 16⟩))
              hwidth htail (h.wrap_newline hwidth) hy
          · exact ih (r := r.moveTo (r.wrap r.CursorPosition.right))
              hwidth htail (h.wrap_right hwidth) hy
          · have hrest := ih (r := r.moveTo (r.wrap r.CursorPosition.right))
              hwidth htail (h.wrap_right hwidth) hy
            rw [List.map_cons, ← h.draw_eq]
            exact congrArg (r.CursorPosition.draw (str i) :: ·) hrest

theorem print_ends (hstr : StringAt str i text) (hfuel : text.length < fuel)
    (r : BasicRenderer) : ∃ x, print str fuel i r = some x := by
  induction text generalizing i r fuel with
  | nil =>
      obtain ⟨fuel, rfl⟩ : ∃ m, fuel = m + 1 := ⟨fuel - 1, by omega⟩
      exact ⟨_, if_neg (not_not.2 (stringAt_nil.1 hstr))⟩
  | cons c text ih =>
      obtain ⟨fuel, rfl⟩ : ∃ m, fuel = m + 1 := ⟨fuel - 1, by omega⟩
      obtain ⟨rfl, hne, htail⟩ := hstr
      obtain ⟨x, hx⟩ := ih htail (Nat.lt_of_succ_lt_succ hfuel)
        (r.moveTo (r.printChar (str i)).1)
      exact ⟨_, by rw [print_succ hne, hx, Option.map_some]⟩

end BasicRenderer

theorem col_lt_of_mem_cells {cell : Cell} (hcell : cell ∈ cells w n l text)
    (hw : w ≠ 0) : cell.col < w := by
  induction text generalizing n l with
  | nil => exact absurd hcell List.not_mem_nil
  | cons c text ih =>
      rw [cells] at hcell
      split_ifs at hcell
      · exact ih hcell
      · exact ih hcell
      · rcases List.mem_cons.1 hcell with rfl | hcell
        · exact Nat.mod_lt l (Nat.pos_of_ne_zero hw)
        · exact ih hcell

namespace BasicRenderer

theorem draw_right_le (hwidth : 8 ≤ r.framebuffer.Width.toNat) {cell : Cell}
    (hcell : cell ∈ cells (columns r.framebuffer.Width) n l text)
    (hX : 8 * cell.col % 2 ^ 32 + 8 < 2 ^ 32) :
    8 * cell.col % 2 ^ 32 + 8 ≤ r.framebuffer.Width.toNat := by
  by_cases hw : r.framebuffer.Width.toNat + 8 < 2 ^ 32
  · rw [columns, if_pos hw] at hcell
    have hlt := col_lt_of_mem_cells hcell (by omega)
    omega
  · omega

theorem forall_mem_putChar_iff (hwidth : 8 ≤ r.framebuffer.Width.toNat)
    {cell : Cell}
    (hcell : cell ∈ cells (columns r.framebuffer.Width) n l text) :
    (∀ p ∈ r.putChar cell.draw, p.x < r.framebuffer.Width.toNat ∧
      p.y < r.framebuffer.Height.toNat) ↔ cell.Fits r := by
  have hx : cell.draw.xOff.toNat = 8 * cell.col % 2 ^ 32 := BitVec.toNat_ofNat _ _
  have hy : cell.draw.yOff.toNat = 16 * cell.line % 2 ^ 32 :=
    BitVec.toNat_ofNat _ _
  constructor
  · rintro h hX hY row hrow ⟨col, hcol, hlit⟩
    have hp := (h _ (mem_putChar.2 ⟨⟨hx ▸ hX, hy ▸ hY⟩, row, hrow, col, hcol, hlit,
      rfl⟩)).2
    rw [← hy]
    exact hp
  · intro h p hp
    obtain ⟨⟨hX, hY⟩, row, hrow, col, hcol, hlit, rfl⟩ := mem_putChar.1 hp
    rw [hx] at hX
    rw [hy] at hY
    have hright := draw_right_le hwidth hcell hX
    have hbottom := h hX hY row hrow ⟨col, hcol, hlit⟩
    show cell.draw.xOff.toNat + col < _ ∧ cell.draw.yOff.toNat + row < _
    rw [hx, hy]
    exact ⟨by omega, hbottom⟩

/-- A string is printed inside the screen exactly if the lit rows of all its
characters are above the lower edge. -/
theorem printsInside_iff (hwidth : 8 ≤ r.framebuffer.Width.toNat)
    (hcursor : r.CursorPosition = ⟨0, 0⟩) (hstr : StringAt str 0 text) :
    r.PrintsInside str ↔
      ∀ cell ∈ cells (columns r.framebuffer.Width) 0 0 text, cell.Fits r := by
  have hat : r.At 0 0 := by
    rw [At, hcursor, cursorAt, Nat.zero_mod, Nat.zero_div]
    rfl
  obtain ⟨x, hx⟩ := print_ends hstr (Nat.lt_succ_self _) r
  have hforall : ∀ {fuel} {x : BasicRenderer × List Draw},
      print str fuel 0 r = some x →
        ((∀ d ∈ x.2, ∀ p ∈ r.putChar d, p.x < r.framebuffer.Width.toNat ∧
          p.y < r.framebuffer.Height.toNat) ↔
            ∀ cell ∈ cells (columns r.framebuffer.Width) 0 0 text,
              cell.Fits r) := by
    intro fuel x hrun
    rw [print_spec hwidth hstr hat hrun, List.forall_mem_map]
    exact forall₂_congr fun cell hcell => forall_mem_putChar_iff hwidth hcell
  constructor
  · rintro ⟨fuel, x, hrun, h⟩
    exact (hforall hrun).1 h
  · exact fun h => ⟨_, x, hx, (hforall hx).2 h⟩

/-- A screen of one character with a font of dashes. -/
def smallRenderer : BasicRenderer where
  CursorPosition := ⟨0, 0⟩
  framebuffer := ⟨0xFD000000, 8, 16, 8⟩
  psf1_font := ⟨16, fun j => if j % 16 = 8 then 0xFF else 0⟩
  color := 0xFFFFFFFF

def twoLineRenderer : BasicRenderer :=
  { smallRenderer with framebuffer := ⟨0xFD000000, 16, 32, 16⟩ }

/-- A line break, and a second line that is full. -/
theorem printsInside_iff_dashes :
    twoLineRenderer.PrintsInside (literal ("-\n--".toList.map ascii)) :=
  (printsInside_iff (by decide) rfl (stringAt_literal (by decide))).2 (by decide)

/-- The second character is drawn below the screen. -/
theorem exists_not_printsInside :
    ∃ (r : BasicRenderer) (str : ℤ → Byte) (text : List Byte),
      8 ≤ r.framebuffer.Width.toNat ∧ 16 ≤ r.framebuffer.Height.toNat ∧
        r.CursorPosition = ⟨0, 0⟩ ∧ StringAt str 0 text ∧
          ¬ r.PrintsInside str := by
  have hstr : StringAt (literal ("--".toList.map ascii)) 0
      ("--".toList.map ascii) := stringAt_literal (by decide)
  refine ⟨smallRenderer, _, _, by decide, by decide, rfl, hstr, ?_⟩
  rintro ⟨fuel, x, hrun, h⟩
  have hx := print_spec (r := smallRenderer) (by decide) hstr
    (show smallRenderer.At 0 0 from rfl) hrun
  have hdraw : (⟨ascii '-', 0, 16⟩ : Draw) ∈ x.2 := by
    rw [hx]
    decide
  have hp := h _ hdraw _ (mem_putChar.2 ⟨by decide, 8, by decide, 0, by decide,
    by decide, rfl⟩)
  exact absurd hp.2 (by decide)

end BasicRenderer

end OptimistOS
